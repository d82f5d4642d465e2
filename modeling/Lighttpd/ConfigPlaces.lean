import Lighttpd.ConfigRuns

/-!
# Where settings stand and where they are kept

A block of the configuration says where it stands: it has its own condition, the branches before it
along `prev`, and the blocks around it along `parent`. `SettingsInPlace` says that every block and
setting of the text is kept in a block that stands where the text has it.

Blocks are told apart by their keys only, which are compared without regard to letter case and which
do not say everything about the place. `blockKeys` reads the keys off the text: settings are in
place exactly when no key belongs to two places.
-/

namespace Lighttpd

open CString

variable {V : Type}

/-- The conditions of a branch and of those before it. -/
inductive Earlier (ctx : ConfigCtx V) : Option ℕ → List BranchCond → Prop
  | none : Earlier ctx none []
  | some {b : ℕ} {earlier : List BranchCond} (h : Earlier ctx (ctx.heap b).prev earlier) :
    Earlier ctx (some b) ((ctx.heap b).own :: earlier)

/-- The place of a block by its condition and its links. -/
inductive StandsAt (ctx : ConfigCtx V) : ℕ → Place → Prop
  | global {dc : ℕ} (hparent : (ctx.heap dc).parent = none) (hprev : (ctx.heap dc).prev = none)
      (hcond : (ctx.heap dc).cond = .unset) : StandsAt ctx dc []
  | inside {dc p : ℕ} {earlier : List BranchCond} {place : Place}
      (hparent : (ctx.heap dc).parent = some p) (hprev : Earlier ctx (ctx.heap dc).prev earlier)
      (h : StandsAt ctx p place) : StandsAt ctx dc (((ctx.heap dc).own, earlier) :: place)

/-- Every block and every setting is kept in a block that stands where the text has it. -/
def SettingsInPlace (ctx : ConfigCtx V) : Prop :=
  ∀ place dc, .stands place dc ∈ ctx.log → StandsAt ctx dc place

variable {ctx ctx' ctx₀ : ConfigCtx V} {key key' prevKey : Bytes} {a : Bytes × Place}

theorem Earlier.unique {b : Option ℕ} {es es' : List BranchCond} (h : Earlier ctx b es)
    (h' : Earlier ctx b es') : es = es' := by
  induction h generalizing es' with
  | none =>
    cases h'
    rfl
  | some _ ih =>
    cases h' with
    | some h' => rw [ih h']

theorem StandsAt.unique {dc : ℕ} {place place' : Place} (h : StandsAt ctx dc place)
    (h' : StandsAt ctx dc place') : place = place' := by
  induction h generalizing place' with
  | global hparent =>
    cases h' with
    | global => rfl
    | inside hparent' => simp [hparent] at hparent'
  | inside hparent hprev _ ih =>
    cases h' with
    | global hparent' => simp [hparent'] at hparent
    | inside hparent' hprev' h' =>
      obtain rfl := Option.some.inj (hparent.symm.trans hparent')
      rw [hprev.unique hprev', ih h']

/-! ## The keys of the text -/

/-- The key of an else block when it ends, from the key and the condition of the branch before. -/
def closedElseKey (prevKey : Bytes) : BranchCond → Bytes
  | .cond c => (negatedKey prevKey c.cond c.string).getD prevKey
  | _ => prevKey

mutual

/-- The keys of the blocks in a text inside the block with the key `key`, each with its place. A
global block has no other blocks in it. -/
def blockKeys (lib : ParserLib) (key : Bytes) (place : Place) :
    ConfigText V → List (Bytes × Place)
  | .nil => []
  | .varline _ _ _ rest => blockKeys lib key place rest
  | .global _ rest => blockKeys lib key place rest
  | .condlines c body more rest =>
    let inner := (branchCond lib c, []) :: place
    (condKey key c, inner) :: blockKeys lib (condKey key c) inner body ++
      (elseKeys lib key place (condKey key c) (branchCond lib c) [] more ++
        blockKeys lib key place rest)

/-- The same for the branches behind the branch with the key `prevKey` and the condition `prev`. -/
def elseKeys (lib : ParserLib) (key : Bytes) (place : Place) (prevKey : Bytes) (prev : BranchCond)
    (earlier : List BranchCond) : ElseText V → List (Bytes × Place)
  | .done => []
  | .condline c body more =>
    let inner := (branchCond lib c, prev :: earlier) :: place
    (condKey key c, inner) :: blockKeys lib (condKey key c) inner body ++
      elseKeys lib key place (condKey key c) (branchCond lib c) (prev :: earlier) more
  | .condElse body more =>
    let inner := (BranchCond.otherwise, prev :: earlier) :: place
    (closedElseKey prevKey prev, inner) :: blockKeys lib (elseKey key) inner body ++
      elseKeys lib key place (closedElseKey prevKey prev) .otherwise (prev :: earlier) more

end

/-- No key belongs to two places. -/
def PlacesByKey (lib : ParserLib) (text : ConfigText V) : Prop :=
  ∀ a ∈ blockKeys lib (str "global") [] text, ∀ b ∈ blockKeys lib (str "global") [] text,
    CaseEq a.1 b.1 → a.2 = b.2

theorem length_closedElseKey (key : Bytes) (c : BranchCond) :
    (closedElseKey key c).length = key.length := by
  unfold closedElseKey
  split
  · next cond =>
    cases hneg : negatedKey key cond.cond cond.string with
    | none => rfl
    | some key' => exact length_negatedKey hneg
  · rfl

section Keys

variable (lib : ParserLib)

mutual

theorem length_blockKeys : ∀ (key : Bytes) (place : Place) (text : ConfigText V),
    ∀ a ∈ blockKeys lib key place text, key.length < a.1.length
  | key, place, .nil, a, ha => by
    rw [blockKeys] at ha
    exact absurd ha List.not_mem_nil
  | key, place, .varline _ _ _ rest, a, ha => by
    rw [blockKeys] at ha
    exact length_blockKeys key place rest a ha
  | key, place, .global _ rest, a, ha => by
    rw [blockKeys] at ha
    exact length_blockKeys key place rest a ha
  | key, place, .condlines c body more rest, a, ha => by
    have hcond := length_condKey key c
    rw [blockKeys, List.mem_append, List.mem_cons, List.mem_append] at ha
    rcases ha with (rfl | ha) | ha | ha
    · exact hcond
    · exact hcond.trans (length_blockKeys _ _ body a ha)
    · exact length_elseKeys key place _ _ _ more hcond a ha
    · exact length_blockKeys key place rest a ha

theorem length_elseKeys : ∀ (key : Bytes) (place : Place) (prevKey : Bytes) (prev : BranchCond)
    (earlier : List BranchCond) (more : ElseText V), key.length < prevKey.length →
      ∀ a ∈ elseKeys lib key place prevKey prev earlier more, key.length < a.1.length
  | key, place, prevKey, prev, earlier, .done, _, a, ha => by
    rw [elseKeys] at ha
    exact absurd ha List.not_mem_nil
  | key, place, prevKey, prev, earlier, .condline c body more, _, a, ha => by
    have hcond := length_condKey key c
    rw [elseKeys, List.mem_append, List.mem_cons] at ha
    rcases ha with (rfl | ha) | ha
    · exact hcond
    · exact hcond.trans (length_blockKeys _ _ body a ha)
    · exact length_elseKeys key place _ _ _ more hcond a ha
  | key, place, prevKey, prev, earlier, .condElse body more, hlt, a, ha => by
    have hclosed : key.length < (closedElseKey prevKey prev).length := by
      rw [length_closedElseKey]
      exact hlt
    rw [elseKeys, List.mem_append, List.mem_cons] at ha
    rcases ha with (rfl | ha) | ha
    · exact hclosed
    · exact (length_elseKey key).trans (length_blockKeys _ _ body a ha)
    · exact length_elseKeys key place _ _ _ more hclosed a ha

end

end Keys

theorem condKey_caseEq (h : CaseEq key key') (c : TextCond) :
    CaseEq (condKey key c) (condKey key' c) := by
  unfold condKey CaseEq at *
  simp only [List.map_append, h]

theorem elseKey_caseEq (h : CaseEq key key') : CaseEq (elseKey key) (elseKey key') := by
  unfold elseKey CaseEq at *
  simp only [List.map_append, h]

/-- The key of an else block depends on letter case where the key before it does. -/
theorem closedElseKey_caseEq {c : BlockCond} (hneg : negatedKey key c.cond c.string = some key')
    (h : CaseEq prevKey key) : CaseEq (closedElseKey prevKey (.cond c)) key' := by
  have hlen := h.length_eq
  unfold negatedKey at hneg
  split_ifs at hneg with hlt
  obtain ⟨ch, hch, rfl⟩ := Option.map_eq_some_iff.mp hneg
  have hneg' : negatedKey prevKey c.cond c.string =
      some (prevKey.set (prevKey.length - c.string.length - 2) ch) := by
    rw [negatedKey, if_neg (by omega), hch, Option.map_some]
  rw [closedElseKey, hneg', Option.getD_some]
  unfold CaseEq at *
  rw [List.map_set, List.map_set, h, hlen]

theorem own_of_negated {b : ConfigBlock V} {s : Bytes} (h : negatedKey key b.cond s = some key') :
    b.own = .cond ⟨b.comp, b.compTag, b.cond, b.string.string⟩ := by
  unfold ConfigBlock.own
  rw [if_neg]
  intro helse
  rw [helse] at h
  unfold negatedKey at h
  split_ifs at h
  cases h

/-! ## Blocks in place have different keys -/

/-- The run goes on from `ctx` to `fin`, where the blocks have the conditions that the text has. -/
structure Later (ctx fin : ConfigCtx V) : Prop where
  own : ∀ h < ctx.next, (fin.heap h).own = (ctx.heap h).own
  log : ∀ e ∈ ctx.log, e ∈ fin.log
  conds : ∀ o es place h, .stands ((o, es) :: place) h ∈ fin.log → (fin.heap h).own = o

theorem Ran.later {ctx ctx' fin : ConfigCtx V} (h : Ran ctx ctx') (h' : Later ctx' fin) :
    Later ctx fin :=
  ⟨fun a ha => (h'.own a (lt_of_lt_of_le ha h.keeps.next_le)).trans (h.keeps.kept a ha).own,
    fun e he => h'.log e (h.keeps.log e he), h'.conds⟩

theorem CondElse.later {ctx ctx' fin : ConfigCtx V} {b c : ℕ} {key : Bytes}
    (h : CondElse ctx ctx' b c key) (h' : Later ctx' fin) : Later ctx fin := by
  refine ⟨fun a ha => (h'.own a (by rw [h.next]; exact ha)).trans ?_, fun e he => h'.log e ?_,
    h'.conds⟩
  · by_cases hac : a = c
    · rw [hac]
      exact h.own
    · exact (h.kept a hac).own
  · rw [h.log]
    exact List.mem_cons_of_mem _ he

/-- A block of the text is kept under its key. -/
def KeptUnder (ctx : ConfigCtx V) (a : Bytes × Place) : Prop :=
  ∃ h < ctx.next, .stands a.2 h ∈ ctx.log ∧ CaseEq a.1 (ctx.heap h).key

theorem KeptUnder.ran (h : KeptUnder ctx a) (hran : Ran ctx ctx') : KeptUnder ctx' a := by
  obtain ⟨dc, hlt, hlog, hkey⟩ := h
  refine ⟨dc, lt_of_lt_of_le hlt hran.keeps.next_le, hran.keeps.log _ hlog, ?_⟩
  rw [(hran.keeps.kept dc hlt).key]
  exact hkey

theorem KeptUnder.condElse {b c : ℕ} (h : KeptUnder ctx a) (helse : CondElse ctx ctx' b c key)
    (hlen : (ctx.heap c).key.length < a.1.length) : KeptUnder ctx' a := by
  obtain ⟨dc, hlt, hlog, hkey⟩ := h
  have hne : dc ≠ c := by
    rintro rfl
    exact hlen.ne hkey.length_eq.symm
  refine ⟨dc, by rw [helse.next]; exact hlt, ?_, ?_⟩
  · rw [helse.log]
    exact List.mem_cons_of_mem _ hlog
  · rw [(helse.kept dc hne).key]
    exact hkey

theorem caseEq_parseContext {lib : ParserLib} {c : TextCond} (hwf : Wf ctx)
    (h : parseContext lib c ctx = some ctx₀) : CaseEq (condKey ctx.cur.key c) ctx₀.cur.key := by
  obtain ⟨-, cond, hopened, -⟩ := parseContext_spec hwf h
  unfold ConfigCtx.cur at *
  cases hopened with
  | found hlt hkey hheap =>
    rw [hheap]
    exact hkey
  | new hcur hnext hfresh hblock =>
    rw [hcur, hblock]
    exact .refl _

theorem key_parseContextElse (hwf : Wf ctx) (h : parseContextElse ctx = some ctx₀) :
    ctx₀.cur.key = elseKey ctx.cur.key := by
  obtain ⟨-, hcur, -, hblock⟩ := parseContextElse_spec hwf h
  rw [ConfigCtx.cur, hcur, hblock]

namespace Branch

variable {inner : Place} {ctx ctx₀ ctx₁ ctx₂ : ConfigCtx V}

theorem later {fin : ConfigCtx V} (h : Branch inner ctx ctx₀ ctx₁ ctx₂) (h' : Later ctx₂ fin) :
    Later ctx₁ fin := by
  rw [h.closed] at h'
  exact ⟨h'.own, h'.log, h'.conds⟩

theorem keptUnder (h : Branch inner ctx ctx₀ ctx₁ ctx₂) (hkey : CaseEq key ctx₀.cur.key) :
    KeptUnder ctx₂ (key, inner) :=
  ⟨ctx₀.current, h.current_lt, h.mem_log, by rw [h.key]; exact hkey⟩

theorem keptUnder_body (h : Branch inner ctx ctx₀ ctx₁ ctx₂) (ha : KeptUnder ctx₁ a) :
    KeptUnder ctx₂ a := by
  rw [h.closed]
  exact ha

end Branch

/-- The key of an else block that ended, when the branch before it is the one of the text. -/
theorem CondElse.caseEq {b c : ℕ} {prev : BranchCond} (h : CondElse ctx ctx' b c key)
    (hprev : (ctx.heap b).own = prev) (hkey : CaseEq prevKey (ctx.heap b).key) :
    CaseEq (closedElseKey prevKey prev) (ctx'.heap c).key := by
  rw [h.key, ← hprev, own_of_negated h.negated]
  exact closedElseKey_caseEq h.negated hkey

section KeptUnder

variable [Inhabited V] (lib : ParserLib) {fin : ConfigCtx V}

mutual

/-- Every block of the text is kept under its key in the end, when the blocks have the conditions
that the text has. -/
theorem parseMetalines_keptUnder : ∀ (key : Bytes) (place : Place) (text : ConfigText V)
    (ctx ctx' : ConfigCtx V), Wf ctx → parseMetalines lib place text ctx = some ctx' →
      CaseEq key ctx.cur.key → Later ctx' fin →
      ∀ a ∈ blockKeys lib key place text, KeptUnder ctx' a
  | key, place, .nil, ctx, ctx', _, _, _, _, a, ha => by
    rw [blockKeys] at ha
    exact absurd ha List.not_mem_nil
  | key, place, .varline op name value rest, ctx, ctx', hwf, h, hkey, hfin, a, ha => by
    simp only [parseMetalines, Option.bind_eq_some_iff] at h
    obtain ⟨ctx₁, hvar, hrest⟩ := h
    have hran := Ran.varline hwf hvar
    have hlog := hran.trans (.addLog hran.keeps.wf (.stands place ctx₁.current))
    rw [blockKeys] at ha
    exact parseMetalines_keptUnder key place rest _ _ hlog.keeps.wf hrest
      (by rw [hlog.cur_key hwf]; exact hkey) hfin a ha
  | key, place, .global body rest, ctx, ctx', hwf, h, hkey, hfin, a, ha => by
    simp only [parseMetalines, Option.bind_eq_some_iff] at h
    obtain ⟨ctx₀, hopen, ctx₁, hbody, r, hpop, hrest⟩ := h
    have hopens := (parseGlobalstart_spec hwf hopen).1
    have hran := parseMetalines_ran lib [] body _ _ (hopens.wf_addLog _) hbody
    obtain ⟨-, hbranch⟩ := branch_of_pop hopens hran hpop
    rw [blockKeys] at ha
    exact parseMetalines_keptUnder key place rest _ _ hbranch.wf hrest
      (by rw [hbranch.closed_ran.cur_key hwf]; exact hkey) hfin a ha
  | key, place, .condlines c body more rest, ctx, ctx', hwf, h, hkey, hfin, a, ha => by
    simp only [parseMetalines, Option.bind_eq_some_iff] at h
    obtain ⟨ctx₀, hopen, ctx₁, hbody, r, hpop, ctx₂, hmore, hrest⟩ := h
    have hopens := (parseContext_spec hwf hopen).1
    have hran := parseMetalines_ran lib _ body _ _ (hopens.wf_addLog _) hbody
    obtain ⟨hr, hbranch⟩ := branch_of_pop hopens hran hpop
    rw [hr] at hmore
    have helse := parseElse_ran lib place _ more _ _ _ hbranch.wf hbranch.current_lt
      (current_ne_zero_of_parseContext hwf hopen) hmore
    have hafter := parseMetalines_ran lib place rest _ _ helse.keeps.wf hrest
    have hcond := (condKey_caseEq hkey c).trans (caseEq_parseContext hwf hopen)
    have hcur : CaseEq key r.2.cur.key := by
      rw [hbranch.closed_ran.cur_key hwf]
      exact hkey
    have hlater := hafter.later hfin
    rw [blockKeys, List.mem_append, List.mem_cons, List.mem_append] at ha
    rcases ha with (rfl | ha) | ha | ha
    · exact ((hbranch.keptUnder hcond).ran helse).ran hafter
    · have hin := parseMetalines_keptUnder _ _ body _ _ (hopens.wf_addLog _) hbody hcond
        (hbranch.later (helse.later hlater)) a ha
      exact ((hbranch.keptUnder_body hin).ran helse).ran hafter
    · have hin := parseElse_keptUnder key place _ _ [] more _ _ _ hbranch.wf hbranch.current_lt
        (current_ne_zero_of_parseContext hwf hopen) hmore hcur
        (by rw [hbranch.key]; exact hcond) hbranch.mem_log hlater a ha
      exact hin.ran hafter
    · exact parseMetalines_keptUnder key place rest _ _ helse.keeps.wf hrest
        (by rw [helse.cur_key hbranch.wf]; exact hcur) hfin a ha

theorem parseElse_keptUnder : ∀ (key : Bytes) (place : Place) (prevKey : Bytes) (prev : BranchCond)
    (earlier : List BranchCond) (more : ElseText V) (b : ℕ) (ctx ctx' : ConfigCtx V), Wf ctx →
      b < ctx.next → b ≠ 0 → parseElse lib place (prev :: earlier) more b ctx = some ctx' →
      CaseEq key ctx.cur.key → CaseEq prevKey (ctx.heap b).key →
      .stands ((prev, earlier) :: place) b ∈ ctx.log → Later ctx' fin →
      ∀ a ∈ elseKeys lib key place prevKey prev earlier more, KeptUnder ctx' a
  | key, place, prevKey, prev, earlier, .done, b, ctx, ctx', _, _, _, _, _, _, _, _, a, ha => by
    rw [elseKeys] at ha
    exact absurd ha List.not_mem_nil
  | key, place, prevKey, prev, earlier, .condline c body more, b, ctx, ctx', hwf, hb, _, h, hkey,
      _, _, hfin, a, ha => by
    simp only [parseElse, Option.bind_eq_some_iff] at h
    obtain ⟨ctx₀, hopen, ctx₁, hbody, r, hpop, ctx₂, hend, hmore⟩ := h
    have hopens := (parseContext_spec hwf hopen).1
    have hran := parseMetalines_ran lib _ body _ _ (hopens.wf_addLog _) hbody
    obtain ⟨hr, hbranch⟩ := branch_of_pop hopens hran hpop
    rw [hr] at hend hmore
    have hlink := Ran.elseCondline hbranch.wf
      (lt_of_lt_of_le hb hbranch.closed_ran.keeps.next_le) hbranch.current_lt hend
    have hc0 := current_ne_zero_of_parseContext hwf hopen
    have hlt := lt_of_lt_of_le hbranch.current_lt hlink.keeps.next_le
    have hafter := parseElse_ran lib place _ more _ _ _ hlink.keeps.wf hlt hc0 hmore
    have hcond := (condKey_caseEq hkey c).trans (caseEq_parseContext hwf hopen)
    have hcur : CaseEq key ctx₂.cur.key := by
      rw [(hbranch.closed_ran.trans hlink).cur_key hwf]
      exact hkey
    have hcond' : CaseEq (condKey key c) (ctx₂.heap ctx₀.current).key := by
      rw [(hlink.keeps.kept _ hbranch.current_lt).key, hbranch.key]
      exact hcond
    rw [elseKeys, List.mem_append, List.mem_cons] at ha
    rcases ha with (rfl | ha) | ha
    · exact ((hbranch.keptUnder hcond).ran hlink).ran hafter
    · have hin := parseMetalines_keptUnder _ _ body _ _ (hopens.wf_addLog _) hbody hcond
        (hbranch.later (hlink.later (hafter.later hfin))) a ha
      exact ((hbranch.keptUnder_body hin).ran hlink).ran hafter
    · exact parseElse_keptUnder key place _ _ _ more _ _ _ hlink.keeps.wf hlt hc0 hmore hcur hcond'
        (hlink.keeps.log _ hbranch.mem_log) hfin a ha
  | key, place, prevKey, prev, earlier, .condElse body more, b, ctx, ctx', hwf, hb, hb0, h, hkey,
      hprev, hstands, hfin, a, ha => by
    simp only [parseElse, Option.bind_eq_some_iff] at h
    obtain ⟨ctx₀, hopen, ctx₁, hbody, r, hpop, ctx₂, hend, hmore⟩ := h
    obtain ⟨hopens, hcur, -⟩ := parseContextElse_spec hwf hopen
    have hran := parseMetalines_ran lib _ body _ _ (hopens.wf_addLog _) hbody
    obtain ⟨hr, hbranch⟩ := branch_of_pop hopens hran hpop
    rw [hr] at hend hmore
    obtain ⟨key', helse⟩ := hbranch.condElse hwf hb hb0 hopen hend
    have hwhole := hbranch.condElse_ran hcur helse
    have hlt : ctx₀.current < ctx₂.next := by
      rw [helse.next]
      exact hbranch.current_lt
    have hc0 : ctx₀.current ≠ 0 := by
      rw [hcur]
      exact hwf.next_pos.ne'
    have hafter := parseElse_ran lib place _ more _ _ _ helse.wf hlt hc0 hmore
    have hlater := hafter.later hfin
    have hopenKey := key_parseContextElse hwf hopen
    have hclosed := hbranch.closed_ran
    -- the branch before has the condition that the text has
    have hown' : (r.2.heap b).own = prev := by
      have hlt := lt_of_lt_of_le hb hclosed.keeps.next_le
      rw [← (helse.later hlater).own b hlt]
      exact hfin.conds _ _ _ _ ((helse.later hlater).log _ (hclosed.keeps.log _ hstands))
    have hprev' : CaseEq prevKey (r.2.heap b).key := by
      rw [(hclosed.keeps.kept b hb).key]
      exact hprev
    have hkey' := helse.caseEq hown' hprev'
    have hcurKey : CaseEq key ctx₂.cur.key := by
      rw [hwhole.cur_key hwf]
      exact hkey
    have hmem : .stands ((.otherwise, prev :: earlier) :: place) ctx₀.current ∈ ctx₂.log := by
      rw [helse.log]
      exact List.mem_cons_of_mem _ hbranch.mem_log
    rw [elseKeys, List.mem_append, List.mem_cons] at ha
    rcases ha with (rfl | ha) | ha
    · exact KeptUnder.ran ⟨ctx₀.current, hlt, hmem, hkey'⟩ hafter
    · have hin := parseMetalines_keptUnder (elseKey key) _ body _ _ (hopens.wf_addLog _) hbody
        (by rw [show (ctx₀.addLog _).cur.key = ctx₀.cur.key from rfl, hopenKey]; exact elseKey_caseEq hkey)
        (hbranch.later (helse.later hlater)) a ha
      have hlen := length_blockKeys lib _ _ body a ha
      refine ((hbranch.keptUnder_body hin).condElse helse ?_).ran hafter
      rw [hbranch.key, hopenKey, ← (elseKey_caseEq hkey).length_eq]
      exact hlen
    · exact parseElse_keptUnder key place _ _ _ more _ _ _ helse.wf hlt hc0 hmore hcurKey hkey' hmem
        hfin a ha

end

end KeptUnder

end Lighttpd
