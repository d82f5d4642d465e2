import Lighttpd.ConfigSharing

/-!
# The order in which settings are merged

`config_patch_connection` goes through `all_configs` and takes over the settings of the blocks that
are active, so that the last one wins. Blocks get their `context_ndx` when they are opened. An else
block is taken out of `all_configs` when it ends and put back at the end; the last block is then put
in its place, which changes the order unless the else block is itself the last.
-/

namespace Lighttpd

open CString

variable {V : Type}

/-- The setting of a block for a key. -/
def ConfigBlock.setting (b : ConfigBlock V) (key : Bytes) : Option V :=
  (b.value.live.find? fun e => e.key.string = key).map DataUnset.value

/-- One turn of `config_patch_connection` for a setting that is `conf` so far. -/
def patchBlock (active : ConfigBlock V → Bool) (key : Bytes) (ctx : ConfigCtx V) (conf : V) (i : ℕ) :
    V :=
  match ctx.allConfigs.element i with
  | some e =>
    if active (ctx.heap e.value) then ((ctx.heap e.value).setting key).getD conf else conf
  | none => conf

/-- `config_patch_connection`, for the setting `key`; `active` is the outcome of
`config_check_cond`. -/
def configPatchConnection (active : ConfigBlock V → Bool) (key : Bytes) (ctx : ConfigCtx V)
    (conf : V) : V :=
  (List.range' 1 (ctx.allConfigs.used - 1)).foldl (patchBlock active key ctx) conf

/-- Settings are merged in the order of the text. -/
structure MergedInOrder (ctx : ConfigCtx V) : Prop where
  /-- The blocks are where their `context_ndx` says. -/
  order : ∀ i < ctx.allConfigs.used, ∃ e, ctx.allConfigs.element i = some e ∧
    (ctx.heap e.value).contextNdx = i
  /-- The last active block with the setting wins. -/
  last : ∀ (active : ConfigBlock V → Bool) (key : Bytes) (conf v : V) (dc : ℕ), dc ≠ 0 →
    dc < ctx.allConfigs.used → active (ctx.heap dc) → (ctx.heap dc).setting key = some v →
    (∀ dc' < ctx.allConfigs.used, dc < dc' → active (ctx.heap dc') →
      (ctx.heap dc').setting key = none) → configPatchConnection active key ctx conf = v
  /-- A block comes behind the block around it. -/
  nested : ∀ dc < ctx.allConfigs.used, ∀ p, (ctx.heap dc).parent = some p → p < dc

/-- Every block is at the position of its number. -/
def InOrder (ctx : ConfigCtx V) : Prop :=
  ∀ i < ctx.next, ctx.allConfigs.element i = some (configElement i (ctx.heap i).key)

variable {ctx ctx₀ ctx₁ ctx' ctx₂ : ConfigCtx V} {key : Bytes} {c b : ℕ} {inner : Place}

theorem inOrder_iff (hwf : Wf ctx) : InOrder ctx ↔
    ∀ i < ctx.allConfigs.used, ∃ e, ctx.allConfigs.element i = some e ∧
      (ctx.heap e.value).contextNdx = i := by
  rw [hwf.used]
  constructor
  · intro h i hi
    exact ⟨_, h i hi, hwf.ndx i hi⟩
  · intro h i hi
    obtain ⟨e, he, hndx⟩ := h i hi
    obtain ⟨a, ha, rfl⟩ := (hwf.live e).mp
      (Indexed.mem_live.mpr ⟨i, by rw [hwf.used]; exact hi, he⟩)
    rw [show (configElement a (ctx.heap a).key).value = a from rfl, hwf.ndx a ha] at hndx
    rw [he, hndx]

theorem foldl_keeps {α β : Type} {f : β → α → β} {b : β} :
    ∀ l : List α, (∀ x ∈ l, f b x = b) → l.foldl f b = b
  | [], _ => rfl
  | x :: l, h => by
    rw [List.foldl_cons, h x List.mem_cons_self]
    exact foldl_keeps l fun y hy => h y (List.mem_cons_of_mem x hy)

theorem InOrder.patchBlock (h : InOrder ctx) (active : ConfigBlock V → Bool) (key : Bytes)
    (conf : V) {i : ℕ} (hi : i < ctx.next) : patchBlock active key ctx conf i =
      if active (ctx.heap i) then ((ctx.heap i).setting key).getD conf else conf := by
  unfold Lighttpd.patchBlock
  rw [h i hi]
  rfl

theorem InOrder.last {ctx : ConfigCtx V} (hwf : Wf ctx) (h : InOrder ctx)
    (active : ConfigBlock V → Bool) (key : Bytes) (conf v : V) (dc : ℕ) (h0 : dc ≠ 0)
    (hdc : dc < ctx.allConfigs.used) (hactive : active (ctx.heap dc))
    (hsetting : (ctx.heap dc).setting key = some v)
    (hlater : ∀ dc' < ctx.allConfigs.used, dc < dc' → active (ctx.heap dc') →
      (ctx.heap dc').setting key = none) : configPatchConnection active key ctx conf = v := by
  rw [hwf.used] at hdc hlater
  have hsplit : List.range' 1 (ctx.next - 1) =
      List.range' 1 (dc - 1) ++ dc :: List.range' (dc + 1) (ctx.next - 1 - dc) := by
    obtain ⟨k, rfl⟩ := Nat.exists_eq_succ_of_ne_zero h0
    have happend := @List.range'_append_1 1 k (ctx.next - 1 - (k + 1) + 1)
    rw [show k + (ctx.next - 1 - (k + 1) + 1) = ctx.next - 1 by omega, Nat.add_comm 1 k] at happend
    rw [← List.range'_succ, ← happend]
    rfl
  rw [configPatchConnection, hwf.used, hsplit, List.foldl_append, List.foldl_cons,
    h.patchBlock active key _ hdc, if_pos hactive, hsetting, Option.getD_some]
  refine foldl_keeps _ fun i hi => ?_
  have hi := List.mem_range'_1.mp hi
  rw [h.patchBlock active key _ (by omega)]
  split_ifs with hon
  · rw [hlater i (by omega) (by omega) hon, Option.getD_none]
  · rfl

theorem Indexed.element_of_extract {a all : DataArray ℕ} (h : Indexed a) {ndx : ℕ}
    {e : Option (DataUnset ℕ)} (hget : (arrayGetIndex a key).1 = some ndx)
    (hx : arrayExtractElementKlen a key = some (e, all)) :
    all.used = a.used - 1 ∧ ∀ i < a.used - 1, all.element i =
      if i = ndx then a.element (a.used - 1) else a.element i := by
  obtain ⟨pos, hget⟩ : ∃ pos, arrayGetIndex a key = (some ndx, pos) :=
    ⟨(arrayGetIndex a key).2, Prod.ext hget rfl⟩
  obtain ⟨lastPos, x, hx'⟩ := h.arrayExtract_found hget
  rw [hx'] at hx
  cases hx
  exact ⟨rfl, fun i hi => x.element_removeAt h hi⟩

/-- Where a block is, `array_get_index` finds it. -/
theorem Wf.arrayGetIndex_eq (h : Wf ctx) {i : ℕ} (hi : i < ctx.next)
    (he : ctx.allConfigs.element i = some (configElement c (ctx.heap c).key)) :
    (arrayGetIndex ctx.allConfigs (ctx.heap c).key).1 = some i := by
  have hkeyAt : ctx.allConfigs.keyAt i = (ctx.heap c).key := by
    simp only [DataArray.keyAt, he, configElement, Option.map_some, Option.getD_some]
    rfl
  have hiu : i < ctx.allConfigs.used := by rw [h.used]; exact hi
  rcases h.indexed.arrayGetIndex_spec (ctx.heap c).key with
    ⟨ndx, pos, hget, -, hlt, hkey⟩ | ⟨pos, hget, hplace⟩
  · rw [← hkeyAt] at hkey
    rw [hget, h.indexed.eq_of_caseEq hiu hlt hkey]
  · refine absurd (bufferCaselessCompare_eq_zero.mpr ?_)
      (hplace.ne_zero i (h.indexed.mem_sorted.mpr hiu))
    rw [hkeyAt]
    exact .refl _

theorem Wf.exists_element (h : Wf ctx) (hc : c < ctx.next) :
    ∃ i < ctx.next, ctx.allConfigs.element i = some (configElement c (ctx.heap c).key) := by
  obtain ⟨i, hi, he⟩ := Indexed.mem_live.mp ((h.live _).mpr ⟨c, hc, rfl⟩)
  exact ⟨i, by rw [← h.used]; exact hi, he⟩

/-- The elements after an else block `c` that was at `ndx` ended. -/
theorem CondElse.element {ndx : ℕ} (hwf : Wf ctx) (h : CondElse ctx ctx' b c key)
    (hget : (arrayGetIndex ctx.allConfigs (ctx.heap c).key).1 = some ndx) :
    ∀ i < ctx.next, ctx'.allConfigs.element i =
      if i = ctx.next - 1 then some (configElement c key)
      else if i = ndx then ctx.allConfigs.element (ctx.next - 1) else ctx.allConfigs.element i := by
  obtain ⟨all, hx, hnone, hins⟩ := h.reinserted.extracted
  obtain ⟨hused, helem⟩ := hwf.indexed.element_of_extract hget hx
  obtain ⟨hall, -, -⟩ := mem_live_of_extract hwf.indexed hx
  obtain ⟨-, -, helem'⟩ := arrayInsertUnique_config hall hnone hins
  have hu := hwf.used
  intro i hi
  rw [helem' i (by omega)]
  by_cases hlast : i = ctx.next - 1
  · rw [if_pos (by omega), if_pos hlast]
  · rw [if_neg (by omega), if_neg hlast, helem i (by omega), hu]

theorem CondElse.inOrder_iff (hwf : Wf ctx) (h : CondElse ctx ctx' b c key) (hc : c < ctx.next)
    (hlast : (arrayGetIndex ctx.allConfigs (ctx.heap c).key).1 = some (ctx.allConfigs.used - 1)) :
    InOrder ctx' ↔ InOrder ctx := by
  obtain ⟨ndx, hndx, hat⟩ := hwf.exists_element hc
  have hget := hwf.arrayGetIndex_eq hndx hat
  rw [hlast, hwf.used] at hget
  obtain rfl := Option.some.inj hget
  have helem := h.element hwf (hwf.used ▸ hlast)
  unfold InOrder
  rw [h.next]
  constructor
  · intro hall i hi
    have hi' := hall i hi
    rw [helem i hi] at hi'
    by_cases hin : i = ctx.next - 1
    · rw [if_pos hin] at hi'
      have hci : c = i := congrArg DataUnset.value (Option.some.inj hi')
      rw [hin, hat, hci, hin]
    · rw [if_neg hin, if_neg hin] at hi'
      have hnext := hall (ctx.next - 1) hndx
      rw [helem _ hndx, if_pos rfl] at hnext
      have hcn : c = ctx.next - 1 := congrArg DataUnset.value (Option.some.inj hnext)
      rw [hi', (h.kept i (by omega)).key]
  · intro hall i hi
    have hcn : c = ctx.next - 1 :=
      congrArg DataUnset.value (Option.some.inj (hat.symm.trans (hall _ hndx)))
    rw [helem i hi]
    by_cases hin : i = ctx.next - 1
    · rw [if_pos hin, hin, ← hcn, h.key]
    · rw [if_neg hin, if_neg hin, hall i hi, (h.kept i (by omega)).key]

/-- An else block in which a block was made is not in order when it ends. -/
theorem Branch.not_inOrder {ctx₃ : ConfigCtx V} (hwf : Wf ctx)
    (hopen : parseContextElse ctx = some ctx₀) (h : Branch inner ctx ctx₀ ctx₁ ctx₂)
    (helse : CondElse ctx₂ ctx₃ b ctx₀.current key)
    (hlast : (arrayGetIndex ctx₂.allConfigs (ctx₂.heap ctx₀.current).key).1 ≠
      some (ctx₂.allConfigs.used - 1)) : ¬ InOrder ctx₃ := by
  obtain ⟨hopens, hcur, hnext, -⟩ := parseContextElse_spec hwf hopen
  intro hall
  have hlt := h.current_lt
  obtain ⟨ndx, hndx, hat⟩ := h.wf.exists_element hlt
  have hpos := hall (ctx₂.next - 1) (by rw [helse.next]; omega)
  rw [helse.element h.wf (h.wf.arrayGetIndex_eq hndx hat) _ (by omega), if_pos rfl] at hpos
  have hc : ctx₀.current = ctx₂.next - 1 := congrArg DataUnset.value (Option.some.inj hpos)
  -- nothing was made in the else block, so that it is still where it was put
  have hsame : ctx₁.next = ctx₀.next := by
    have hnext₁ : ctx₂.next = ctx₁.next := by rw [h.closed]; rfl
    have hle : ctx₀.next ≤ ctx₁.next := h.ran.keeps.next_le
    omega
  have hkey : (ctx₂.heap ctx₀.current).key = (ctx₀.heap ctx₀.current).key := h.key
  have helem : ctx₂.allConfigs.element ctx₀.current =
      some (configElement ctx₀.current (ctx₂.heap ctx₀.current).key) := by
    rw [hkey]
    calc ctx₂.allConfigs.element ctx₀.current = ctx₁.allConfigs.element ctx₀.current := by
          rw [h.closed]
          rfl
      _ = ctx₀.allConfigs.element ctx₀.current :=
          h.ran.elements hsame _ hopens.keeps.wf.current
      _ = some (configElement ctx₀.current (ctx₀.heap ctx₀.current).key) := by
          rw [hopens.elements _ hopens.keeps.wf.current, if_neg (by omega)]
  refine hlast ?_
  rw [h.wf.arrayGetIndex_eq hlt helem, h.wf.used, hc]

/-! ## Runs -/

/-- Blocks are in order exactly when every else block that ended was the last one. -/
structure Ordered (ctx : ConfigCtx V) : Prop where
  iff : InOrder ctx ↔ ∀ last, .elseEnd last ∈ ctx.log → last = true
  parent : ∀ h < ctx.next, ∀ p, (ctx.heap h).parent = some p → p < h

namespace Ordered

variable {ctx ctx' : ConfigCtx V}

/-- Nothing changed in `all_configs`. -/
theorem frame (h : Ordered ctx) (hnext : ctx'.next = ctx.next)
    (helem : ∀ i < ctx.next, ctx'.allConfigs.element i = ctx.allConfigs.element i)
    (hkept : ∀ a < ctx.next, Kept (ctx.heap a) (ctx'.heap a))
    (hlog : ∀ last, .elseEnd last ∈ ctx'.log ↔ .elseEnd last ∈ ctx.log) : Ordered ctx' := by
  refine ⟨?_, fun a ha p hp => ?_⟩
  · have horder : InOrder ctx' ↔ InOrder ctx := by
      unfold InOrder
      rw [hnext]
      refine forall_congr' fun i => imp_congr_right fun hi => ?_
      rw [helem i hi, (hkept i hi).key]
    rw [horder, h.iff]
    exact forall_congr' fun last => imp_congr_left (hlog last).symm
  · rw [hnext] at ha
    rw [(hkept a ha).parent] at hp
    exact h.parent a ha p hp

theorem addLog (h : Ordered ctx) (place : Place) (dc : ℕ) : Ordered (ctx.addLog (.stands place dc)) :=
  h.frame rfl (fun _ _ => rfl) (fun _ _ => .refl _) fun last => by
    simp [ConfigCtx.addLog]

theorem opens (h : Ordered ctx) (hwf : Wf ctx) (hopens : Opens ctx ctx')
    (hnew : ∀ a, ctx.next ≤ a → a < ctx'.next → (ctx'.heap a).parent = some ctx.current) :
    Ordered ctx' := by
  have hle := hopens.keeps.next_le
  refine ⟨?_, fun a ha p hp => ?_⟩
  · have horder : InOrder ctx' ↔ InOrder ctx := by
      constructor
      · intro hall i hi
        have hi' := hall i (by omega)
        rw [hopens.elements i (by omega), if_pos hi, (hopens.keeps.kept i hi).key] at hi'
        exact hi'
      · intro hall i hi
        rw [hopens.elements i hi]
        by_cases hold : i < ctx.next
        · rw [if_pos hold, hall i hold, (hopens.keeps.kept i hold).key]
        · rw [if_neg hold]
    rw [horder, h.iff, hopens.log]
  · by_cases hold : a < ctx.next
    · rw [(hopens.keeps.kept a hold).parent] at hp
      exact h.parent a hold p hp
    · rw [hnew a (by omega) ha] at hp
      cases hp
      exact hwf.current.trans_le (by omega)

theorem context {lib : ParserLib} {c : TextCond} (h : Ordered ctx) (hwf : Wf ctx)
    (hopen : parseContext lib c ctx = some ctx') : Ordered ctx' := by
  obtain ⟨hopens, cond, hopened, -⟩ := parseContext_spec hwf hopen
  refine h.opens hwf hopens fun a hle hlt => ?_
  cases hopened with
  | found hf hkey hheap hnext => omega
  | new hcur hnext hfresh hblock =>
    obtain rfl : a = ctx.next := by omega
    rw [hblock]

theorem contextElse (h : Ordered ctx) (hwf : Wf ctx) (hopen : parseContextElse ctx = some ctx') :
    Ordered ctx' := by
  obtain ⟨hopens, -, hnext, hblock⟩ := parseContextElse_spec hwf hopen
  refine h.opens hwf hopens fun a hle hlt => ?_
  obtain rfl : a = ctx.next := by omega
  rw [hblock]

theorem globalstart (h : Ordered ctx) (hwf : Wf ctx) (hopen : parseGlobalstart ctx = some ctx') :
    Ordered ctx' := by
  obtain ⟨hopens, -, -, hnext⟩ := parseGlobalstart_spec hwf hopen
  exact h.opens hwf hopens fun a hle hlt => by omega

theorem varline [Inhabited V] {op : AssignOp} {value : V} (h : Ordered ctx) (hwf : Wf ctx)
    (hvar : parseVarline ctx op key value = some ctx') : Ordered ctx' := by
  have hkept := (Ran.varline hwf hvar).keeps.kept
  obtain ⟨-, vars, rfl⟩ := parseVarline_spec hwf hvar
  exact h.frame rfl (fun _ _ => rfl) hkept fun _ => .rfl

theorem closed (h : Ordered ctx₁) (hbranch : Branch inner ctx ctx₀ ctx₁ ctx') : Ordered ctx' := by
  rw [hbranch.closed]
  exact h.frame rfl (fun _ _ => rfl) (fun _ _ => .refl _) fun _ => .rfl

theorem elseCondline (h : Ordered ctx) (hwf : Wf ctx) (hb : b < ctx.next) (hc : c < ctx.next)
    (hend : parseElseCondline ctx b c = some ctx') : Ordered ctx' := by
  obtain ⟨hkeeps, -, hnext, -, -, hlog, hall⟩ := parseElseCondline_spec hwf hb hc hend
  exact h.frame hnext (fun _ _ => by rw [hall]) hkeeps.kept fun _ => by rw [hlog]

theorem condElse (h : Ordered ctx₂) (hwf : Wf ctx) (hopen : parseContextElse ctx = some ctx₀)
    (hbranch : Branch inner ctx ctx₀ ctx₁ ctx₂) (helse : CondElse ctx₂ ctx' b ctx₀.current key) :
    Ordered ctx' := by
  refine ⟨?_, fun a ha p hp => ?_⟩
  · by_cases hlast : (arrayGetIndex ctx₂.allConfigs (ctx₂.heap ctx₀.current).key).1 =
        some (ctx₂.allConfigs.used - 1)
    · rw [helse.inOrder_iff hbranch.wf hbranch.current_lt hlast, h.iff, helse.log]
      simp [hlast]
    · refine iff_of_false (hbranch.not_inOrder hwf hopen helse hlast) fun hall => ?_
      have hfalse := hall false (by rw [helse.log]; simp [hlast])
      cases hfalse
  · rw [helse.next] at ha
    refine h.parent a ha p ?_
    by_cases hac : a = ctx₀.current
    · subst hac
      rw [← helse.parent]
      exact hp
    · rw [← (helse.kept a hac).parent]
      exact hp

end Ordered

section Text

variable [Inhabited V] (lib : ParserLib)

mutual

theorem parseMetalines_ordered : ∀ (place : Place) (text : ConfigText V) (ctx ctx' : ConfigCtx V),
    Wf ctx → parseMetalines lib place text ctx = some ctx' → Ordered ctx → Ordered ctx'
  | place, .nil, ctx, ctx', _, h, hord => by
    rw [parseMetalines] at h
    obtain rfl := Option.some.inj h
    exact hord
  | place, .varline op key value rest, ctx, ctx', hwf, h, hord => by
    simp only [parseMetalines, Option.bind_eq_some_iff] at h
    obtain ⟨ctx₁, hvar, hrest⟩ := h
    have hran := Ran.varline hwf hvar
    have hwf₁ := (Ran.addLog hran.keeps.wf (.stands place ctx₁.current)).keeps.wf
    exact parseMetalines_ordered place rest _ _ hwf₁ hrest ((hord.varline hwf hvar).addLog _ _)
  | place, .global body rest, ctx, ctx', hwf, h, hord => by
    simp only [parseMetalines, Option.bind_eq_some_iff] at h
    obtain ⟨ctx₀, hopen, ctx₁, hbody, r, hpop, hrest⟩ := h
    have hopens := (parseGlobalstart_spec hwf hopen).1
    have hran := parseMetalines_ran lib [] body _ _ (hopens.wf_addLog _) hbody
    obtain ⟨-, hbranch⟩ := branch_of_pop hopens hran hpop
    have hin := parseMetalines_ordered [] body _ _ (hopens.wf_addLog _) hbody
      ((hord.globalstart hwf hopen).addLog _ _)
    exact parseMetalines_ordered place rest _ _ hbranch.wf hrest (hin.closed hbranch)
  | place, .condlines c body more rest, ctx, ctx', hwf, h, hord => by
    simp only [parseMetalines, Option.bind_eq_some_iff] at h
    obtain ⟨ctx₀, hopen, ctx₁, hbody, r, hpop, ctx₂, hmore, hrest⟩ := h
    have hopens := (parseContext_spec hwf hopen).1
    have hran := parseMetalines_ran lib _ body _ _ (hopens.wf_addLog _) hbody
    obtain ⟨hr, hbranch⟩ := branch_of_pop hopens hran hpop
    rw [hr] at hmore
    have hc0 := current_ne_zero_of_parseContext hwf hopen
    have helse := parseElse_ran lib place _ more _ _ _ hbranch.wf hbranch.current_lt hc0 hmore
    have hin := parseMetalines_ordered _ body _ _ (hopens.wf_addLog _) hbody
      ((hord.context hwf hopen).addLog _ _)
    have hafter := parseElse_ordered place _ more _ _ _ hbranch.wf hbranch.current_lt hc0 hmore
      (hin.closed hbranch)
    exact parseMetalines_ordered place rest _ _ helse.keeps.wf hrest hafter

theorem parseElse_ordered : ∀ (place : Place) (earlier : List BranchCond) (more : ElseText V) (b : ℕ)
    (ctx ctx' : ConfigCtx V), Wf ctx → b < ctx.next → b ≠ 0 →
      parseElse lib place earlier more b ctx = some ctx' → Ordered ctx → Ordered ctx'
  | place, earlier, .done, b, ctx, ctx', _, _, _, h, hord => by
    rw [parseElse] at h
    obtain rfl := Option.some.inj h
    exact hord
  | place, earlier, .condline c body more, b, ctx, ctx', hwf, hb, _, h, hord => by
    simp only [parseElse, Option.bind_eq_some_iff] at h
    obtain ⟨ctx₀, hopen, ctx₁, hbody, r, hpop, ctx₂, hend, hmore⟩ := h
    have hopens := (parseContext_spec hwf hopen).1
    have hran := parseMetalines_ran lib _ body _ _ (hopens.wf_addLog _) hbody
    obtain ⟨hr, hbranch⟩ := branch_of_pop hopens hran hpop
    rw [hr] at hend hmore
    have hblt := lt_of_lt_of_le hb hbranch.closed_ran.keeps.next_le
    have hlink := Ran.elseCondline hbranch.wf hblt hbranch.current_lt hend
    have hin := parseMetalines_ordered _ body _ _ (hopens.wf_addLog _) hbody
      ((hord.context hwf hopen).addLog _ _)
    have hafter := (hin.closed hbranch).elseCondline hbranch.wf hblt hbranch.current_lt hend
    exact parseElse_ordered place _ more _ _ _ hlink.keeps.wf
      (lt_of_lt_of_le hbranch.current_lt hlink.keeps.next_le)
      (current_ne_zero_of_parseContext hwf hopen) hmore hafter
  | place, earlier, .condElse body more, b, ctx, ctx', hwf, hb, hb0, h, hord => by
    simp only [parseElse, Option.bind_eq_some_iff] at h
    obtain ⟨ctx₀, hopen, ctx₁, hbody, r, hpop, ctx₂, hend, hmore⟩ := h
    obtain ⟨hopens, hcur, -⟩ := parseContextElse_spec hwf hopen
    have hran := parseMetalines_ran lib _ body _ _ (hopens.wf_addLog _) hbody
    obtain ⟨hr, hbranch⟩ := branch_of_pop hopens hran hpop
    rw [hr] at hend hmore
    obtain ⟨key, helse⟩ := hbranch.condElse hwf hb hb0 hopen hend
    have hlt : ctx₀.current < ctx₂.next := by
      rw [helse.next]
      exact hbranch.current_lt
    have hin := parseMetalines_ordered _ body _ _ (hopens.wf_addLog _) hbody
      ((hord.contextElse hwf hopen).addLog _ _)
    have hafter := (hin.closed hbranch).condElse hwf hopen hbranch helse
    exact parseElse_ordered place _ more _ _ _ helse.wf hlt (by rw [hcur]; exact hwf.next_pos.ne')
      hmore hafter

end

end Text

theorem ordered_configInit (vars : DataArray V) : Ordered (configInit vars) := by
  have hkey : ((configInit vars).heap 0).key = str "global" := (wf_configInit vars).root
  refine ⟨iff_of_true (fun i hi => ?_) fun last hlast => ?_, fun h hh p hp => ?_⟩
  · obtain rfl := Nat.lt_one_iff.mp hi
    rw [hkey]
    change (arrayInsertAt arrayInit (configElement 0 (str "global")) 0).element 0 = _
    decide
  · simp [configInit] at hlast
  · obtain rfl := Nat.lt_one_iff.mp hh
    simp [configInit, dataConfigInit] at hp

/-- A condition inside an else block, with a setting of its own. -/
def nestedElseText : ConfigText ℕ :=
  .condlines ⟨str "HTTP", str "url", .eq, str "/a"⟩ .nil
    (.condElse (.varline .assign (str "x.y") 2
      (.condlines ⟨str "HTTP", str "url", .eq, str "/b"⟩ (.varline .assign (str "x.y") 1 .nil) .done
        .nil)) .done) .nil

end Lighttpd
