import Lighttpd.ConfigParser
import Lighttpd.DataArrayIndex

/-!
# What the actions of the parser do

Each action in terms of the blocks: a condition takes up the block that has its key, or makes a new
one; the block of an else branch changes its key when it ends. `Wf` is what holds between two
actions, and `Keeps` what the actions of a part of the text leave as it was.
-/

namespace Lighttpd

open CString

variable {V : Type}

/-! ## Between two actions -/

/-- The invariant: `all_configs` holds every block under its key, and the blocks are numbered in the
order in which they were made. -/
structure Wf (ctx : ConfigCtx V) : Prop where
  indexed : Indexed ctx.allConfigs
  live : ∀ e, e ∈ ctx.allConfigs.live ↔ ∃ h < ctx.next, e = configElement h (ctx.heap h).key
  used : ctx.allConfigs.used = ctx.next
  ndx : ∀ h < ctx.next, (ctx.heap h).contextNdx = h
  key_length : ∀ h < ctx.next, h ≠ 0 → 6 < (ctx.heap h).key.length
  root : (ctx.heap 0).key = str "global"
  current : ctx.current < ctx.next
  stack : ∀ h ∈ ctx.configsStack, h < ctx.next

/-- The fields of a block that stay. -/
structure Kept (b b' : ConfigBlock V) : Prop where
  key : b'.key = b.key
  own : b'.own = b.own
  contextNdx : b'.contextNdx = b.contextNdx
  parent : b'.parent = b.parent

theorem Kept.refl (b : ConfigBlock V) : Kept b b := ⟨rfl, rfl, rfl, rfl⟩

theorem Kept.trans {b b' b'' : ConfigBlock V} (h : Kept b b') (h' : Kept b' b'') : Kept b b'' :=
  ⟨h'.key.trans h.key, h'.own.trans h.own, h'.contextNdx.trans h.contextNdx,
    h'.parent.trans h.parent⟩

variable {key : Bytes} {a b c : ℕ} {ctx ctx' ctx₀ : ConfigCtx V} {dc : ConfigBlock V}
  {e : DataUnset ℕ}

namespace Wf

variable {ctx ctx' : ConfigCtx V}

theorem next_pos (h : Wf ctx) : 0 < ctx.next := lt_of_le_of_lt (Nat.zero_le _) h.current

/-- The invariant depends on the keys and the numbers of the blocks only. -/
theorem congr (h : Wf ctx) (hall : ctx'.allConfigs = ctx.allConfigs) (hnext : ctx'.next = ctx.next)
    (hkept : ∀ dc < ctx.next, Kept (ctx.heap dc) (ctx'.heap dc)) (hcur : ctx'.current < ctx.next)
    (hstack : ∀ dc ∈ ctx'.configsStack, dc < ctx.next) : Wf ctx' where
  indexed := by rw [hall]; exact h.indexed
  live e := by
    rw [hall, hnext, h.live]
    refine exists_congr fun dc => and_congr_right fun hdc => ?_
    rw [(hkept dc hdc).key]
  used := by rw [hall, hnext]; exact h.used
  ndx dc hdc := by
    rw [hnext] at hdc
    rw [(hkept dc hdc).contextNdx]
    exact h.ndx dc hdc
  key_length dc hdc := by
    rw [hnext] at hdc
    rw [(hkept dc hdc).key]
    exact h.key_length dc hdc
  root := by rw [(hkept 0 h.next_pos).key]; exact h.root
  current := by rw [hnext]; exact hcur
  stack := by rw [hnext]; exact hstack

theorem lookup (h : Wf ctx) (he : arrayGetElementKlen ctx.allConfigs key = some e) :
    e.value < ctx.next ∧ CaseEq key (ctx.heap e.value).key := by
  obtain ⟨hmem, hkey⟩ := h.indexed.arrayGetElementKlen_eq_some_iff.mp he
  obtain ⟨dc, hdc, rfl⟩ := (h.live e).mp hmem
  exact ⟨hdc, hkey⟩

theorem not_caseEq (h : Wf ctx) (hnone : arrayGetElementKlen ctx.allConfigs key = none) {dc : ℕ}
    (hdc : dc < ctx.next) : ¬ CaseEq key (ctx.heap dc).key := by
  intro hkey
  have hsome := h.indexed.arrayGetElementKlen_eq_some_iff.mpr
    ⟨(h.live _).mpr ⟨dc, hdc, rfl⟩, (hkey : CaseEq key (configElement dc (ctx.heap dc).key).key.string)⟩
  rw [hnone] at hsome
  cases hsome

theorem eq_of_caseEq (h : Wf ctx) (ha : a < ctx.next) (hb : b < ctx.next)
    (hkey : CaseEq (ctx.heap a).key (ctx.heap b).key) : a = b := by
  have hget : ∀ dc < ctx.next, CaseEq (ctx.heap a).key (ctx.heap dc).key →
      arrayGetElementKlen ctx.allConfigs (ctx.heap a).key =
        some (configElement dc (ctx.heap dc).key) := fun dc hdc hk =>
    h.indexed.arrayGetElementKlen_eq_some_iff.mpr ⟨(h.live _).mpr ⟨dc, hdc, rfl⟩, hk⟩
  have heq := (hget a ha (.refl _)).symm.trans (hget b hb hkey)
  exact congrArg DataUnset.value (Option.some.inj heq)

end Wf

theorem arrayInsertUnique_config {a b : DataArray ℕ} (ha : Indexed a) {dc : ℕ}
    (hnone : arrayGetElementKlen a key = none)
    (hb : arrayInsertUniqueElement configMethods a (configElement dc key) = some b) :
    Indexed b ∧ b.used = a.used + 1 ∧
      ∀ i < a.used + 1, b.element i = if i = a.used then some (configElement dc key) else a.element i := by
  have hindexed := ha.arrayInsertUniqueElement_indexed hb
  have hgen : generateKey a (configElement dc key) = (configElement dc key, a) :=
    if_neg (by simp [configElement])
  unfold arrayInsertUniqueElement arrayFindOrInsert at hb
  rw [hgen] at hb
  dsimp only at hb
  have hkey : (configElement dc key).key.string = key := rfl
  rw [hkey] at hb
  rcases ha.arrayGetIndex_spec key with ⟨ndx, pos, hget, -, hlt, -⟩ | ⟨pos, hget, -⟩
  · obtain ⟨e, he, -⟩ := ha.element_eq_some hlt
    rw [arrayGetElementKlen, hget, Option.bind_some, he] at hnone
    cases hnone
  · rw [hget] at hb
    cases hb
    exact ⟨hindexed, rfl, fun i hi => ha.element_arrayInsertAt _ pos i hi⟩

/-- The context after a new block `dc` was put behind the others. -/
structure Inserted (ctx : ConfigCtx V) (dc : ConfigBlock V) (ctx' : ConfigCtx V) : Prop where
  fresh : arrayGetElementKlen ctx.allConfigs dc.key = none
  next : ctx'.next = ctx.next + 1
  block : ctx'.heap ctx.next = { dc with contextNdx := ctx.next, parent := some ctx.current }
  others : ∀ h < ctx.next, ∃ children, ctx'.heap h = { ctx.heap h with children := children }
  all : arrayInsertUniqueElement configMethods ctx.allConfigs (configElement ctx.next dc.key) =
    some ctx'.allConfigs
  current : ctx'.current = ctx.current
  stack : ctx'.configsStack = ctx.configsStack
  log : ctx'.log = ctx.log

theorem configparserInsert_spec (hwf : Wf ctx) (h : configparserInsert ctx dc = some ctx') :
    Inserted ctx dc ctx' := by
  unfold configparserInsert at h
  split_ifs at h with hsome hndx
  obtain ⟨all, hall, rfl⟩ := Option.map_eq_some_iff.mp h
  have hne : ctx.next ≠ ctx.current := hwf.current.ne'
  refine ⟨Option.not_isSome_iff_eq_none.mp hsome, rfl, ?_, fun dc hdc => ?_, hall, rfl, rfl, rfl⟩
  · simp [ConfigCtx.setBlock, Function.update_of_ne hne, hwf.used]
  · by_cases hcur : dc = ctx.current
    · subst hcur
      refine ⟨ctx.cur.children ++ [ctx.next], ?_⟩
      simp [ConfigCtx.setBlock, ConfigCtx.cur, Function.update_of_ne hne.symm]
    · refine ⟨(ctx.heap dc).children, ?_⟩
      simp [ConfigCtx.setBlock, Function.update_of_ne hcur, Function.update_of_ne hdc.ne]

theorem Inserted.kept (h : Inserted ctx dc ctx') (ha : a < ctx.next) :
    Kept (ctx.heap a) (ctx'.heap a) ∧
      (ctx'.heap a).prev = (ctx.heap a).prev := by
  obtain ⟨children, heq⟩ := h.others a ha
  rw [heq]
  exact ⟨⟨rfl, rfl, rfl, rfl⟩, rfl⟩

theorem Inserted.wf (h : Inserted ctx dc ctx') (hwf : Wf ctx) (hkey : 6 < dc.key.length) :
    Wf ctx' := by
  obtain ⟨hindexed, hused, helem⟩ := arrayInsertUnique_config hwf.indexed h.fresh h.all
  have hu := hwf.used
  have hblock : (ctx'.heap ctx.next).key = dc.key := by rw [h.block]
  refine ⟨hindexed, fun e => ?_, by rw [hused, hu, h.next], fun a ha => ?_, fun a ha hne => ?_, ?_, ?_,
    fun a ha => ?_⟩
  · rw [Indexed.mem_live, hused, h.next, hu]
    constructor
    · rintro ⟨i, hi, he⟩
      rw [helem i (by omega)] at he
      by_cases hlast : i = ctx.allConfigs.used
      · rw [if_pos hlast] at he
        cases he
        exact ⟨ctx.next, Nat.lt_succ_self _, by rw [hblock]⟩
      · rw [if_neg hlast] at he
        obtain ⟨a, ha, rfl⟩ := (hwf.live e).mp (Indexed.mem_live.mpr ⟨i, by omega, he⟩)
        exact ⟨a, by omega, by rw [(h.kept ha).1.key]⟩
    · rintro ⟨a, ha, rfl⟩
      rcases Nat.lt_succ_iff_lt_or_eq.mp ha with ha | rfl
      · rw [(h.kept ha).1.key]
        obtain ⟨i, hi, he⟩ := Indexed.mem_live.mp ((hwf.live _).mpr ⟨a, ha, rfl⟩)
        exact ⟨i, by omega, by rw [helem i (by omega), if_neg (by omega), he]⟩
      · exact ⟨ctx.allConfigs.used, by omega, by rw [helem _ (by omega), if_pos rfl, hblock]⟩
  · rw [h.next] at ha
    rcases Nat.lt_succ_iff_lt_or_eq.mp ha with ha | rfl
    · rw [(h.kept ha).1.contextNdx]
      exact hwf.ndx a ha
    · rw [h.block]
  · rw [h.next] at ha
    rcases Nat.lt_succ_iff_lt_or_eq.mp ha with ha | rfl
    · rw [(h.kept ha).1.key]
      exact hwf.key_length a ha hne
    · rw [hblock]
      exact hkey
  · rw [(h.kept hwf.next_pos).1.key]
    exact hwf.root
  · rw [h.current, h.next]
    exact Nat.lt_succ_of_lt hwf.current
  · rw [h.stack] at ha
    rw [h.next]
    exact Nat.lt_succ_of_lt (hwf.stack a ha)

/-! ## Opening and closing a block -/

theorem length_condKey (key : Bytes) (c : TextCond) : key.length < (condKey key c).length := by
  simp [condKey, str]

theorem length_elseKey (key : Bytes) : key.length < (elseKey key).length := by
  simp [elseKey, str]

/-- The block `dc` is open in `ctx'`. -/
structure Entered (ctx : ConfigCtx V) (dc : ℕ) (ctx' : ConfigCtx V) : Prop where
  allowed : ctx.configsStack ≠ [] → ctx.cur.contextNdx ≠ 0
  eq : ctx' = { ctx with configsStack := ctx.current :: ctx.configsStack, current := dc }

theorem configparserEnter_spec {dc : ℕ} (h : configparserEnter ctx dc = some ctx') :
    Entered ctx dc ctx' := by
  unfold configparserEnter at h
  split_ifs at h with hglobal
  exact ⟨fun hne h0 => hglobal ⟨hne, h0⟩, (Option.some.inj h).symm⟩

/-- What a part of a run leaves as it was: the fields of the first `n` blocks, and the log. -/
structure Keeps (n : ℕ) (ctx ctx' : ConfigCtx V) : Prop where
  wf : Wf ctx'
  next_le : ctx.next ≤ ctx'.next
  kept : ∀ h < n, Kept (ctx.heap h) (ctx'.heap h)
  log : ∀ e ∈ ctx.log, e ∈ ctx'.log

theorem Keeps.refl (h : Wf ctx) (n : ℕ) : Keeps n ctx ctx :=
  ⟨h, le_rfl, fun _ _ => .refl _, fun _ he => he⟩

theorem Keeps.trans {n m : ℕ} {ctx ctx' ctx'' : ConfigCtx V} (h : Keeps n ctx ctx')
    (h' : Keeps m ctx' ctx'') (hle : n ≤ m) : Keeps n ctx ctx'' :=
  ⟨h'.wf, h.next_le.trans h'.next_le,
    fun a ha => (h.kept a ha).trans (h'.kept a (lt_of_lt_of_le ha hle)),
    fun e he => h'.log e (h.log e he)⟩

/-- The block that `context` or `context_else` opens: it was there, or it is the new block `dc`. -/
inductive Opened (ctx : ConfigCtx V) (ctx' : ConfigCtx V) (key : Bytes) (dc : ConfigBlock V) : Prop
  | found (hlt : ctx'.current < ctx.next) (hkey : CaseEq key (ctx.heap ctx'.current).key)
      (hheap : ctx'.heap = ctx.heap) (hnext : ctx'.next = ctx.next)
  | new (hcur : ctx'.current = ctx.next) (hnext : ctx'.next = ctx.next + 1)
      (hfresh : ∀ a < ctx.next, ¬ CaseEq key (ctx.heap a).key)
      (hblock : ctx'.heap ctx.next = { dc with contextNdx := ctx.next, parent := some ctx.current })

/-- What opening a block does in any case. -/
structure Opens (ctx ctx' : ConfigCtx V) : Prop where
  keeps : Keeps ctx.next ctx ctx'
  prev : ∀ a < ctx.next, (ctx'.heap a).prev = (ctx.heap a).prev
  stack : ctx'.configsStack = ctx.current :: ctx.configsStack
  log : ctx'.log = ctx.log
  allowed : ctx.configsStack ≠ [] → ctx.current ≠ 0
  next_le : ctx'.next ≤ ctx.next + 1
  elements : ∀ i < ctx'.next, ctx'.allConfigs.element i =
    if i < ctx.next then ctx.allConfigs.element i else some (configElement i (ctx'.heap i).key)

theorem Entered.opens {dc : ℕ} (hkeeps : Keeps ctx.next ctx ctx₀)
    (hprev : ∀ a < ctx.next, (ctx₀.heap a).prev = (ctx.heap a).prev)
    (hcur : ctx₀.current = ctx.current) (hstack : ctx₀.configsStack = ctx.configsStack)
    (hlog : ctx₀.log = ctx.log) (hnext : ctx₀.next ≤ ctx.next + 1)
    (helem : ∀ i < ctx₀.next, ctx₀.allConfigs.element i =
      if i < ctx.next then ctx.allConfigs.element i else some (configElement i (ctx₀.heap i).key))
    (hdc : dc < ctx₀.next) (h : Entered ctx₀ dc ctx') : Opens ctx ctx' := by
  obtain ⟨hallowed, rfl⟩ := h
  refine ⟨⟨hkeeps.wf.congr rfl rfl (fun _ _ => .refl _) hdc fun a ha => ?_, hkeeps.next_le,
    hkeeps.kept, hkeeps.log⟩, hprev, by rw [hcur, hstack], hlog, fun hne h0 => ?_, hnext, helem⟩
  · rcases List.mem_cons.mp ha with rfl | ha
    · exact hkeeps.wf.current
    · exact hkeeps.wf.stack a ha
  · refine hallowed (by rw [hstack]; exact hne) ?_
    rw [ConfigCtx.cur, hkeeps.wf.ndx _ hkeeps.wf.current, hcur, h0]

theorem Inserted.keeps (h : Inserted ctx dc ctx') (hwf : Wf ctx) (hkey : 6 < dc.key.length) :
    Keeps ctx.next ctx ctx' :=
  ⟨h.wf hwf hkey, by rw [h.next]; exact Nat.le_succ _, fun _ ha => (h.kept ha).1,
    fun e he => by rwa [h.log]⟩

theorem Inserted.elements (h : Inserted ctx dc ctx') (hwf : Wf ctx) :
    ∀ i < ctx'.next, ctx'.allConfigs.element i =
      if i < ctx.next then ctx.allConfigs.element i
      else some (configElement i (ctx'.heap i).key) := by
  obtain ⟨-, -, helem⟩ := arrayInsertUnique_config hwf.indexed h.fresh h.all
  intro i hi
  rw [h.next] at hi
  have hu := hwf.used
  rw [helem i (by omega)]
  by_cases hlt : i < ctx.next
  · rw [if_pos hlt, if_neg (by omega)]
  · obtain rfl : i = ctx.next := by omega
    rw [if_pos hu.symm, if_neg (lt_irrefl _), h.block]

theorem Inserted.opened (hwf : Wf ctx) (hkey : 6 < dc.key.length) (h : Inserted ctx dc ctx₀)
    (henter : Entered ctx₀ ctx.next ctx') : Opens ctx ctx' ∧ Opened ctx ctx' dc.key dc := by
  have hopens := henter.opens (h.keeps hwf hkey) (fun a ha => (h.kept ha).2) h.current h.stack
    h.log h.next.le (h.elements hwf) (by rw [h.next]; exact Nat.lt_succ_self _)
  obtain ⟨-, rfl⟩ := henter
  exact ⟨hopens, .new rfl h.next (fun a ha => hwf.not_caseEq h.fresh ha) h.block⟩

theorem le_length_key (hwf : Wf ctx) (ha : a < ctx.next) : 6 ≤ (ctx.heap a).key.length := by
  by_cases h0 : a = 0
  · rw [h0, hwf.root]
    decide
  · exact (hwf.key_length a ha h0).le

/-- The new block of a condition. -/
def condBlock (key : Bytes) (c : BlockCond) : ConfigBlock V :=
  { dataConfigInit with
    key := key, comp := c.comp, compTag := c.compTag, cond := c.cond, string := some c.string }

/-- `context`. -/
theorem parseContext_spec {lib : ParserLib} {c : TextCond} (hwf : Wf ctx)
    (h : parseContext lib c ctx = some ctx') :
    Opens ctx ctx' ∧ ∃ cond, Opened ctx ctx' (condKey ctx.cur.key c)
      (condBlock (condKey ctx.cur.key c) cond) ∧
        (ctx'.current = ctx.next → contextCond lib c = some cond) := by
  have hlen : 6 < (condKey ctx.cur.key c).length :=
    lt_of_le_of_lt (le_length_key hwf hwf.current) (length_condKey _ _)
  unfold parseContext at h
  dsimp only at h
  cases hget : arrayGetElementKlen ctx.allConfigs (condKey ctx.cur.key c) with
  | some e =>
    rw [hget] at h
    obtain ⟨hlt, hkey⟩ := hwf.lookup hget
    have henter := configparserEnter_spec h
    have hopens := henter.opens (.refl hwf _) (fun _ _ => rfl) rfl rfl rfl (Nat.le_succ _)
      (fun i hi => (if_pos hi).symm) hlt
    obtain ⟨-, rfl⟩ := henter
    exact ⟨hopens, ⟨.unset, [], .unset, []⟩, .found hlt hkey rfl rfl, fun hcur => absurd hcur hlt.ne⟩
  | none =>
    rw [hget] at h
    cases hcond : contextCond lib c with
    | some cond =>
      rw [hcond] at h
      obtain ⟨ctx₀, hins, henter⟩ := Option.bind_eq_some_iff.mp h
      obtain ⟨hopens, hopened⟩ :=
        (configparserInsert_spec hwf hins).opened hwf hlen (configparserEnter_spec henter)
      exact ⟨hopens, cond, hopened, fun _ => rfl⟩
    | none =>
      rw [hcond] at h
      cases h

/-- `context_else`. -/
theorem parseContextElse_spec (hwf : Wf ctx) (h : parseContextElse ctx = some ctx') :
    Opens ctx ctx' ∧ ctx'.current = ctx.next ∧
      ctx'.next = ctx.next + 1 ∧ ctx'.heap ctx.next =
        { dataConfigInit with
          key := elseKey ctx.cur.key, cond := .elseBranch, contextNdx := ctx.next
          parent := some ctx.current } := by
  obtain ⟨ctx₀, hins, henter⟩ := Option.bind_eq_some_iff.mp h
  have hlen : 6 < (elseKey ctx.cur.key).length :=
    lt_of_le_of_lt (le_length_key hwf hwf.current) (length_elseKey _)
  have hins := configparserInsert_spec hwf hins
  have henter := configparserEnter_spec henter
  have hopens := (hins.opened hwf hlen henter).1
  obtain ⟨-, rfl⟩ := henter
  exact ⟨hopens, rfl, hins.next, hins.block⟩

/-- `globalstart`. -/
theorem parseGlobalstart_spec (hwf : Wf ctx) (h : parseGlobalstart ctx = some ctx') :
    Opens ctx ctx' ∧ ctx'.current = 0 ∧
      ctx'.heap = ctx.heap ∧ ctx'.next = ctx.next := by
  unfold parseGlobalstart at h
  cases hget : arrayGetElementKlen ctx.allConfigs (str "global") with
  | some e =>
    rw [hget] at h
    obtain ⟨hlt, hkey⟩ := hwf.lookup hget
    rw [← hwf.root] at hkey
    have henter := configparserEnter_spec h
    have hopens := henter.opens (.refl hwf _) (fun _ _ => rfl) rfl rfl rfl (Nat.le_succ _)
      (fun i hi => (if_pos hi).symm) hlt
    obtain ⟨-, rfl⟩ := henter
    exact ⟨hopens, (hwf.eq_of_caseEq hwf.next_pos hlt hkey).symm, rfl, rfl⟩
  | none =>
    rw [hget] at h
    cases h

/-- `configparser_pop`. -/
theorem configparserPop_spec {rest : List ℕ} {r : ℕ × ConfigCtx V} (hwf : Wf ctx)
    (hstack : ctx.configsStack = a :: rest) (h : configparserPop ctx = some r) :
    r = (ctx.current, { ctx with current := a, configsStack := rest }) ∧ Wf r.2 := by
  unfold configparserPop at h
  rw [hstack] at h
  cases h
  refine ⟨rfl, hwf.congr rfl rfl (fun _ _ => .refl _) ?_ fun b hb => ?_⟩
  · exact hwf.stack a (by rw [hstack]; exact List.mem_cons_self)
  · exact hwf.stack b (by rw [hstack]; exact List.mem_cons_of_mem a hb)

theorem Keeps.addLog {n : ℕ} (hwf : Wf ctx) (e : ParseEvent) : Keeps n ctx (ctx.addLog e) :=
  ⟨hwf.congr rfl rfl (fun _ _ => .refl _) hwf.current hwf.stack, le_rfl, fun _ _ => .refl _,
    fun _ he => List.mem_cons_of_mem e he⟩

/-- A setting changes nothing but the settings of the open block. -/
theorem parseVarline_spec [Inhabited V] {op : AssignOp} {value : V} (hwf : Wf ctx)
    (h : parseVarline ctx op key value = some ctx') :
    Wf ctx' ∧ ∃ vars, ctx' = ctx.setBlock ctx.current { ctx.cur with value := vars } := by
  unfold parseVarline at h
  split_ifs at h
  obtain ⟨vars, -, rfl⟩ := Option.map_eq_some_iff.mp h
  refine ⟨hwf.congr rfl rfl (fun a _ => ?_) hwf.current hwf.stack, vars, rfl⟩
  by_cases ha : a = ctx.current
  · subst ha
    simp only [ConfigCtx.setBlock, Function.update_self]
    exact ⟨rfl, rfl, rfl, rfl⟩
  · simp only [ConfigCtx.setBlock, Function.update_of_ne ha]
    exact .refl _

/-! ## Else branches -/

/-- What linking the branch `c` behind the branch `b` does to the blocks. -/
structure Linked (b c : ℕ) (heap heap' : ℕ → ConfigBlock V) : Prop where
  prev : ∀ a, (heap' a).prev = if a = c then some b else (heap a).prev
  kept : ∀ a, Kept (heap a) (heap' a)

theorem linkBranches_linked (ctx : ConfigCtx V) (hne : b ≠ c) :
    Linked b c ctx.heap (linkBranches ctx b c).heap := by
  have hheap : ∀ a, (linkBranches ctx b c).heap a =
      if a = b then { ctx.heap b with next := some c }
      else if a = c then { ctx.heap c with prev := some b } else ctx.heap a := by
    intro a
    simp only [linkBranches, ConfigCtx.setBlock, Function.update_apply, if_neg hne]
  refine ⟨fun a => ?_, fun a => ?_⟩
  · rw [hheap]
    by_cases hab : a = b
    · rw [if_pos hab, if_neg (by rw [hab]; exact hne), hab]
    · rw [if_neg hab]
      split_ifs <;> rfl
  · rw [hheap]
    split_ifs with hab hac
    · rw [hab]
      exact ⟨rfl, rfl, rfl, rfl⟩
    · rw [hac]
      exact ⟨rfl, rfl, rfl, rfl⟩
    · exact .refl _

theorem elseReachable_spec (hwf : Wf ctx) (hb : b < ctx.next) (hc : c < ctx.next)
    (h : elseReachable ctx b c) : b < c ∧ (ctx.heap b).cond ≠ .elseBranch := by
  unfold elseReachable at h
  rw [Bool.and_eq_true, decide_eq_true_eq, hwf.ndx b hb, hwf.ndx c hc] at h
  exact ⟨h.1, of_decide_eq_true h.2⟩

/-- `condlines ::= condlines eols ELSE condline`. -/
theorem parseElseCondline_spec (hwf : Wf ctx) (hb : b < ctx.next) (hc : c < ctx.next)
    (h : parseElseCondline ctx b c = some ctx') :
    Keeps ctx.next ctx ctx' ∧ Linked b c ctx.heap ctx'.heap ∧ ctx'.next = ctx.next ∧
      ctx'.current = ctx.current ∧ ctx'.configsStack = ctx.configsStack ∧ ctx'.log = ctx.log ∧
      ctx'.allConfigs = ctx.allConfigs := by
  unfold parseElseCondline at h
  split_ifs at h with hreach
  cases h
  have hlinked := linkBranches_linked ctx (elseReachable_spec hwf hb hc hreach).1.ne
  exact ⟨⟨hwf.congr rfl rfl (fun a _ => hlinked.kept a) hwf.current hwf.stack, le_rfl,
    fun a _ => hlinked.kept a, fun _ he => he⟩, hlinked, rfl, rfl, rfl, rfl, rfl⟩

theorem length_live {a : DataArray ℕ} (h : Indexed a) : a.live.length = a.used := by
  have key : ∀ n ≤ a.used, ((List.range n).filterMap a.element).length = n := by
    intro n
    induction n with
    | zero => simp
    | succ n ih =>
      intro hn
      obtain ⟨e, he, -⟩ := h.element_eq_some (show n < a.used by omega)
      rw [List.range_succ, List.filterMap_append, List.length_append, ih (by omega)]
      simp [he]
  exact key a.used le_rfl

theorem length_negatedKey {key' s : Bytes} {cond : ConfigCond}
    (h : negatedKey key cond s = some key') : key'.length = key.length := by
  unfold negatedKey at h
  split_ifs at h
  obtain ⟨ch, -, rfl⟩ := Option.map_eq_some_iff.mp h
  exact List.length_set

/-- `all_configs` after the block of an else branch was taken out and put back under another key. -/
structure Reinserted (ctx : ConfigCtx V) (c : ℕ) (key : Bytes) (all' : DataArray ℕ) : Prop where
  extracted : ∃ all, arrayExtractElementKlen ctx.allConfigs (ctx.heap c).key =
      some (some (configElement c (ctx.heap c).key), all) ∧
    arrayGetElementKlen all key = none ∧
    arrayInsertUniqueElement configMethods all (configElement c key) = some all'

/-- `condlines ::= condlines eols ELSE cond_else`. -/
structure CondElse (ctx ctx' : ConfigCtx V) (b c : ℕ) (key : Bytes) : Prop where
  negated : negatedKey (ctx.heap b).key (ctx.heap b).cond (ctx.heap b).string.string = some key
  reinserted : Reinserted ctx c key ctx'.allConfigs
  wf : Wf ctx'
  fresh : ∀ a < ctx.next, a ≠ c → ¬ CaseEq key (ctx.heap a).key
  key : (ctx'.heap c).key = key
  own : (ctx'.heap c).own = (ctx.heap c).own
  parent : (ctx'.heap c).parent = (ctx.heap c).parent
  kept : ∀ a, a ≠ c → Kept (ctx.heap a) (ctx'.heap a)
  prev : ∀ a, (ctx'.heap a).prev = if a = c then some b else (ctx.heap a).prev
  next : ctx'.next = ctx.next
  current : ctx'.current = ctx.current
  stack : ctx'.configsStack = ctx.configsStack
  log : ctx'.log = .elseEnd ((arrayGetIndex ctx.allConfigs (ctx.heap c).key).1 =
    some (ctx.allConfigs.used - 1)) :: ctx.log

theorem mem_live_of_extract {a all : DataArray ℕ} (ha : Indexed a)
    (h : arrayExtractElementKlen a key = some (some e, all)) :
    Indexed all ∧ a.live.Perm (e :: all.live) ∧ arrayGetElementKlen a key = some e := by
  rcases ha.arrayExtract_spec key with ⟨-, hx⟩ | ⟨e', b, hget, hx, hb, hperm⟩
  · rw [hx] at h
    cases h
  · rw [hx] at h
    cases h
    exact ⟨hb, hperm, hget⟩

theorem parseElseCondElse_spec (hwf : Wf ctx) (hb : b < ctx.next) (hc : c < ctx.next) (hb0 : b ≠ 0)
    (helse : (ctx.heap c).cond = .elseBranch) (h : parseElseCondElse ctx b c = some ctx') :
    ∃ key, CondElse ctx ctx' b c key := by
  unfold parseElseCondElse at h
  split_ifs at h with hreach
  obtain ⟨hbc, -⟩ := elseReachable_spec hwf hb hc hreach
  split at h
  case h_2 => cases h
  next e all key hex hneg =>
  split_ifs at h with hval hsome
  obtain ⟨all', hins, hctx'⟩ := Option.map_eq_some_iff.mp h
  obtain ⟨hall, hperm, hget⟩ := mem_live_of_extract hwf.indexed hex
  -- the element that is taken out is that of `c`
  obtain rfl : e = configElement c (ctx.heap c).key := by
    obtain ⟨hmem, -⟩ := hwf.indexed.arrayGetElementKlen_eq_some_iff.mp hget
    obtain ⟨a, ha, rfl⟩ := (hwf.live e).mp hmem
    rw [show a = c from not_not.mp hval]
  have hnone := Option.not_isSome_iff_eq_none.mp hsome
  obtain ⟨hindexed', hused', helem'⟩ := arrayInsertUnique_config hall hnone hins
  have hlive : ∀ x, x ∈ all.live ↔ ∃ a < ctx.next, a ≠ c ∧ x = configElement a (ctx.heap a).key := by
    intro x
    have hnodup : (configElement c (ctx.heap c).key :: all.live).Nodup := by
      refine hperm.nodup_iff.mp ?_
      exact hwf.indexed.live_pairwise.imp fun hne heq => hne (by rw [heq]; exact .refl _)
    constructor
    · intro hx
      obtain ⟨a, ha, rfl⟩ := (hwf.live x).mp (hperm.mem_iff.mpr (List.mem_cons_of_mem _ hx))
      refine ⟨a, ha, ?_, rfl⟩
      rintro rfl
      exact (List.nodup_cons.mp hnodup).1 hx
    · rintro ⟨a, ha, hne, rfl⟩
      rcases List.mem_cons.mp (hperm.mem_iff.mp ((hwf.live _).mpr ⟨a, ha, rfl⟩)) with heq | hmem
      · exact absurd (congrArg DataUnset.value heq) hne
      · exact hmem
  have hused : all.used + 1 = ctx.allConfigs.used := by
    rw [← length_live hall, ← length_live hwf.indexed, hperm.length_eq, List.length_cons]
  have hfresh : ∀ a < ctx.next, a ≠ c → ¬ CaseEq key (ctx.heap a).key := by
    intro a ha hne hkey
    exact hsome ((hall.arrayGetElementKlen_isSome_iff key).mpr
      ⟨_, (hlive _).mpr ⟨a, ha, hne, rfl⟩, hkey⟩)
  -- the blocks afterwards
  have hlinked := linkBranches_linked
    { ctx.setBlock c { ctx.heap c with key := key, comp := (ctx.heap b).comp } with
      allConfigs := all' } hbc.ne
  have hheap : (linkBranches
      { ctx.setBlock c { ctx.heap c with key := key, comp := (ctx.heap b).comp } with
        allConfigs := all' } b c).heap = ctx'.heap := by
    rw [← hctx']
    rfl
  rw [hheap] at hlinked
  have hkept : ∀ a, a ≠ c → Kept (ctx.heap a) (ctx'.heap a) := by
    intro a ha
    simpa only [ConfigCtx.setBlock, Function.update_of_ne ha] using hlinked.kept a
  have hc' := hlinked.kept c
  simp only [ConfigCtx.setBlock, Function.update_self] at hc'
  have hown : (ctx'.heap c).own = (ctx.heap c).own := by
    rw [hc'.own]
    simp only [ConfigBlock.own, helse, if_true]
  have hkeyOf : ∀ a, (ctx'.heap a).key = if a = c then key else (ctx.heap a).key := by
    intro a
    by_cases hac : a = c
    · rw [if_pos hac, hac]
      exact hc'.key
    · rw [if_neg hac]
      exact (hkept a hac).key
  have hndx : ∀ a < ctx.next, (ctx'.heap a).contextNdx = a := by
    intro a ha
    by_cases hac : a = c
    · subst hac
      rw [hc'.contextNdx]
      exact hwf.ndx a ha
    · rw [(hkept a hac).contextNdx]
      exact hwf.ndx a ha
  have hprev : ∀ a, (ctx'.heap a).prev = if a = c then some b else (ctx.heap a).prev := by
    intro a
    have hprev := hlinked.prev a
    by_cases hac : a = c
    · rw [if_pos hac] at hprev ⊢
      exact hprev
    · rw [if_neg hac] at hprev ⊢
      simpa only [ConfigCtx.setBlock, Function.update_of_ne hac] using hprev
  have hallCfg : ctx'.allConfigs = all' := by rw [← hctx']; rfl
  have hnext : ctx'.next = ctx.next := by rw [← hctx']; rfl
  have hcur : ctx'.current = ctx.current := by rw [← hctx']; rfl
  have hstack : ctx'.configsStack = ctx.configsStack := by rw [← hctx']; rfl
  have hwf' : Wf ctx' := by
    refine ⟨by rw [hallCfg]; exact hindexed', fun x => ?_, ?_, by rw [hnext]; exact hndx,
      fun a ha hne => ?_, ?_, ?_, ?_⟩
    · rw [hallCfg, hnext, Indexed.mem_live, hused']
      constructor
      · rintro ⟨i, hi, hx⟩
        rw [helem' i hi] at hx
        by_cases hlast : i = all.used
        · rw [if_pos hlast] at hx
          cases hx
          exact ⟨c, hc, by rw [hkeyOf, if_pos rfl]⟩
        · rw [if_neg hlast] at hx
          obtain ⟨a, ha, hne, rfl⟩ := (hlive x).mp (Indexed.mem_live.mpr ⟨i, by omega, hx⟩)
          exact ⟨a, ha, by rw [hkeyOf, if_neg hne]⟩
      · rintro ⟨a, ha, rfl⟩
        by_cases hac : a = c
        · exact ⟨all.used, by omega, by rw [helem' _ (by omega), if_pos rfl, hkeyOf, if_pos hac, hac]⟩
        · obtain ⟨i, hi, hx⟩ := Indexed.mem_live.mp ((hlive _).mpr ⟨a, ha, hac, rfl⟩)
          exact ⟨i, by omega, by rw [helem' i (by omega), if_neg (by omega), hx, hkeyOf, if_neg hac]⟩
    · rw [hallCfg, hused', hused, hwf.used, hnext]
    · rw [hnext] at ha
      rw [hkeyOf]
      split_ifs with hac
      · rw [length_negatedKey hneg]
        exact hwf.key_length b hb hb0
      · exact hwf.key_length a ha hne
    · rw [hkeyOf, if_neg (by omega)]
      exact hwf.root
    · rw [hcur, hnext]
      exact hwf.current
    · rw [hstack, hnext]
      exact hwf.stack
  refine ⟨key, hneg, ⟨⟨all, hex, hnone, by rw [hallCfg]; exact hins⟩⟩, hwf', hfresh, hc'.key, hown,
    hc'.parent, hkept, hprev, hnext, hcur, hstack, by rw [← hctx']; rfl⟩

end Lighttpd
