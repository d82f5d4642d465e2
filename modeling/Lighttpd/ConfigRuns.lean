import Lighttpd.ConfigParserSteps

/-!
# Runs of the parser

A part of the text leaves the parser at the block where it took it up. The blocks that were there
keep their key, their condition and the block around them, and when no block was made, `all_configs`
is what it was.
-/

namespace Lighttpd

open CString

variable {V : Type}

/-- The context at the block that is open in `ctx₀`. -/
def ConfigCtx.closedTo (ctx ctx₀ : ConfigCtx V) : ConfigCtx V :=
  { ctx with current := ctx₀.current, configsStack := ctx₀.configsStack }

/-- What a run over a part of the text does in any case. -/
structure Ran (ctx ctx' : ConfigCtx V) : Prop where
  keeps : Keeps ctx.next ctx ctx'
  current : ctx'.current = ctx.current
  stack : ctx'.configsStack = ctx.configsStack
  elements : ctx'.next = ctx.next →
    ∀ i < ctx.next, ctx'.allConfigs.element i = ctx.allConfigs.element i

variable {b : ℕ} {inner : Place} {ctx ctx₀ ctx₁ ctx₂ ctx₃ : ConfigCtx V}

namespace Ran

variable {ctx ctx' ctx'' : ConfigCtx V}

theorem refl (h : Wf ctx) : Ran ctx ctx := ⟨.refl h _, rfl, rfl, fun _ _ _ => rfl⟩

theorem trans (h : Ran ctx ctx') (h' : Ran ctx' ctx'') : Ran ctx ctx'' where
  keeps := h.keeps.trans h'.keeps h.keeps.next_le
  current := h'.current.trans h.current
  stack := h'.stack.trans h.stack
  elements hnext i hi := by
    have hle := h.keeps.next_le
    have hle' := h'.keeps.next_le
    rw [h'.elements (by omega) i (by omega), h.elements (by omega) i hi]

theorem addLog (h : Wf ctx) (e : ParseEvent) : Ran ctx (ctx.addLog e) :=
  ⟨.addLog h e, rfl, rfl, fun _ _ _ => rfl⟩

theorem varline [Inhabited V] {op : AssignOp} {key : Bytes} {value : V} (hwf : Wf ctx)
    (h : parseVarline ctx op key value = some ctx') : Ran ctx ctx' := by
  obtain ⟨hwf', vars, rfl⟩ := parseVarline_spec hwf h
  refine ⟨⟨hwf', le_rfl, fun a _ => ?_, fun _ he => he⟩, rfl, rfl, fun _ _ _ => rfl⟩
  by_cases ha : a = ctx.current
  · subst ha
    simp only [ConfigCtx.setBlock, Function.update_self]
    exact ⟨rfl, rfl, rfl, rfl⟩
  · simp only [ConfigCtx.setBlock, Function.update_of_ne ha]
    exact .refl _

theorem elseCondline {c : ℕ} (hwf : Wf ctx) (hb : b < ctx.next) (hc : c < ctx.next)
    (h : parseElseCondline ctx b c = some ctx') : Ran ctx ctx' := by
  obtain ⟨hkeeps, -, -, hcur, hstack, -, hall⟩ := parseElseCondline_spec hwf hb hc h
  exact ⟨hkeeps, hcur, hstack, fun _ _ _ => by rw [hall]⟩

theorem cur_key (hwf : Wf ctx) (h : Ran ctx ctx') : ctx'.cur.key = ctx.cur.key := by
  rw [ConfigCtx.cur, h.current]
  exact (h.keeps.kept ctx.current hwf.current).key

end Ran

/-! ## One branch -/

/-- A branch from `context` to `configparser_pop`; the block is open in `ctx₀`, its text is read in
`ctx₁`, and the block around it is open again in `ctx₂`. -/
structure Branch (inner : Place) (ctx ctx₀ ctx₁ ctx₂ : ConfigCtx V) : Prop where
  opens : Opens ctx ctx₀
  ran : Ran (ctx₀.addLog (.stands inner ctx₀.current)) ctx₁
  closed : ctx₂ = ctx₁.closedTo ctx
  wf : Wf ctx₂

namespace Branch

variable {inner : Place} {ctx ctx₀ ctx₁ ctx₂ : ConfigCtx V}

theorem current_lt (h : Branch inner ctx ctx₀ ctx₁ ctx₂) : ctx₀.current < ctx₂.next := by
  rw [h.closed]
  exact lt_of_lt_of_le h.opens.keeps.wf.current h.ran.keeps.next_le

theorem closed_ran (h : Branch inner ctx ctx₀ ctx₁ ctx₂) : Ran ctx ctx₂ := by
  have hlog := Keeps.addLog (n := ctx₀.next) h.opens.keeps.wf (.stands inner ctx₀.current)
  have hkeeps := (h.opens.keeps.trans hlog h.opens.keeps.next_le).trans h.ran.keeps
    h.opens.keeps.next_le
  have hwf := h.wf
  obtain rfl := h.closed
  refine ⟨⟨hwf, hkeeps.next_le, hkeeps.kept, hkeeps.log⟩, rfl, rfl, fun hnext i hi => ?_⟩
  have hle := h.opens.keeps.next_le
  have hle' : ctx₀.next ≤ ctx₁.next := h.ran.keeps.next_le
  have heq : ctx₁.next = ctx.next := hnext
  calc ctx₁.allConfigs.element i = ctx₀.allConfigs.element i :=
        h.ran.elements (show ctx₁.next = ctx₀.next by omega) i (show i < ctx₀.next by omega)
    _ = ctx.allConfigs.element i := by
        rw [h.opens.elements i (by omega), if_pos hi]

/-- The block of the branch keeps its key up to the end of the branch. -/
theorem key (h : Branch inner ctx ctx₀ ctx₁ ctx₂) :
    (ctx₂.heap ctx₀.current).key = ctx₀.cur.key := by
  rw [h.closed]
  exact (h.ran.keeps.kept ctx₀.current h.opens.keeps.wf.current).key

theorem mem_log (h : Branch inner ctx ctx₀ ctx₁ ctx₂) :
    .stands inner ctx₀.current ∈ ctx₂.log := by
  rw [h.closed]
  exact h.ran.keeps.log _ List.mem_cons_self

end Branch

theorem branch_of_pop {r : ℕ × ConfigCtx V} (hopens : Opens ctx ctx₀)
    (hran : Ran (ctx₀.addLog (.stands inner ctx₀.current)) ctx₁)
    (hpop : configparserPop ctx₁ = some r) :
    r.1 = ctx₀.current ∧ Branch inner ctx ctx₀ ctx₁ r.2 := by
  have hstack : ctx₁.configsStack = ctx.current :: ctx.configsStack :=
    hran.stack.trans hopens.stack
  obtain ⟨rfl, hwf⟩ := configparserPop_spec hran.keeps.wf hstack hpop
  exact ⟨hran.current, hopens, hran, rfl, hwf⟩

theorem Opens.wf_addLog (h : Opens ctx ctx₀) (e : ParseEvent) : Wf (ctx₀.addLog e) :=
  (Keeps.addLog (n := 0) h.keeps.wf e).wf

theorem current_ne_zero_of_parseContext {lib : ParserLib} {c : TextCond} (hwf : Wf ctx)
    (h : parseContext lib c ctx = some ctx₀) : ctx₀.current ≠ 0 := by
  obtain ⟨-, cond, hopened, -⟩ := parseContext_spec hwf h
  cases hopened with
  | found hlt hkey =>
    intro h0
    have hlen := hkey.length_eq
    rw [h0, hwf.root] at hlen
    have hcond := length_condKey ctx.cur.key c
    have hcur : 6 ≤ ctx.cur.key.length := le_length_key hwf hwf.current
    have hroot : (str "global").length = 6 := by decide
    omega
  | new hcur =>
    rw [hcur]
    exact hwf.next_pos.ne'

theorem Branch.condElse_ran {key : Bytes} (h : Branch inner ctx ctx₀ ctx₁ ctx₂)
    (hcur : ctx₀.current = ctx.next) (helse : CondElse ctx₂ ctx₃ b ctx₀.current key) :
    Ran ctx ctx₃ := by
  have hran := h.closed_ran
  refine ⟨⟨helse.wf, hran.keeps.next_le.trans helse.next.ge, fun a ha => ?_, fun e he => ?_⟩,
    helse.current.trans hran.current, helse.stack.trans hran.stack, fun hnext => ?_⟩
  · exact (hran.keeps.kept a ha).trans (helse.kept a (by omega))
  · rw [helse.log]
    exact List.mem_cons_of_mem _ (hran.keeps.log e he)
  · have hlt := h.current_lt
    have hnext' := helse.next
    omega

theorem Branch.condElse (hwf : Wf ctx) (hb : b < ctx.next) (hb0 : b ≠ 0)
    (hopen : parseContextElse ctx = some ctx₀) (h : Branch inner ctx ctx₀ ctx₁ ctx₂)
    (hend : parseElseCondElse ctx₂ b ctx₀.current = some ctx₃) :
    ∃ key, CondElse ctx₂ ctx₃ b ctx₀.current key := by
  obtain ⟨-, hcur, hnext, hblock⟩ := parseContextElse_spec hwf hopen
  have hlt : ctx₀.current < ctx₀.next := h.opens.keeps.wf.current
  have hown := (h.ran.keeps.kept ctx₀.current hlt).own
  have hblock' : (ctx₀.heap ctx₀.current).own = .otherwise := by
    rw [hcur, hblock]
    rfl
  have hcond : (ctx₂.heap ctx₀.current).own = .otherwise := by
    rw [h.closed]
    exact hown.trans hblock'
  refine parseElseCondElse_spec h.wf (lt_of_lt_of_le hb h.closed_ran.keeps.next_le) h.current_lt hb0
    ?_ hend
  unfold ConfigBlock.own at hcond
  split_ifs at hcond with hc
  exact hc

section Runs

variable [Inhabited V] (lib : ParserLib)

mutual

theorem parseMetalines_ran : ∀ (place : Place) (text : ConfigText V) (ctx ctx' : ConfigCtx V),
    Wf ctx → parseMetalines lib place text ctx = some ctx' → Ran ctx ctx'
  | place, .nil, ctx, ctx', hwf, h => by
    rw [parseMetalines] at h
    obtain rfl := Option.some.inj h
    exact .refl hwf
  | place, .varline op key value rest, ctx, ctx', hwf, h => by
    simp only [parseMetalines, Option.bind_eq_some_iff] at h
    obtain ⟨ctx₁, hvar, hrest⟩ := h
    have hran := Ran.varline hwf hvar
    have hlog := hran.trans (.addLog hran.keeps.wf (.stands place ctx₁.current))
    exact hlog.trans (parseMetalines_ran place rest _ _ hlog.keeps.wf hrest)
  | place, .global body rest, ctx, ctx', hwf, h => by
    simp only [parseMetalines, Option.bind_eq_some_iff] at h
    obtain ⟨ctx₀, hopen, ctx₁, hbody, r, hpop, hrest⟩ := h
    have hopens := (parseGlobalstart_spec hwf hopen).1
    have hran := parseMetalines_ran [] body _ _ (hopens.wf_addLog _) hbody
    obtain ⟨-, hbranch⟩ := branch_of_pop hopens hran hpop
    exact hbranch.closed_ran.trans (parseMetalines_ran place rest _ _ hbranch.wf hrest)
  | place, .condlines c body more rest, ctx, ctx', hwf, h => by
    simp only [parseMetalines, Option.bind_eq_some_iff] at h
    obtain ⟨ctx₀, hopen, ctx₁, hbody, r, hpop, ctx₂, hmore, hrest⟩ := h
    have hopens := (parseContext_spec hwf hopen).1
    have hran := parseMetalines_ran _ body _ _ (hopens.wf_addLog _) hbody
    obtain ⟨hr, hbranch⟩ := branch_of_pop hopens hran hpop
    rw [hr] at hmore
    have helse := parseElse_ran place _ more _ _ _ hbranch.wf hbranch.current_lt
      (current_ne_zero_of_parseContext hwf hopen) hmore
    exact (hbranch.closed_ran.trans helse).trans
      (parseMetalines_ran place rest _ _ helse.keeps.wf hrest)

theorem parseElse_ran : ∀ (place : Place) (earlier : List BranchCond) (more : ElseText V) (b : ℕ)
    (ctx ctx' : ConfigCtx V), Wf ctx → b < ctx.next → b ≠ 0 →
      parseElse lib place earlier more b ctx = some ctx' → Ran ctx ctx'
  | place, earlier, .done, b, ctx, ctx', hwf, _, _, h => by
    rw [parseElse] at h
    obtain rfl := Option.some.inj h
    exact .refl hwf
  | place, earlier, .condline c body more, b, ctx, ctx', hwf, hb, _, h => by
    simp only [parseElse, Option.bind_eq_some_iff] at h
    obtain ⟨ctx₀, hopen, ctx₁, hbody, r, hpop, ctx₂, hend, hmore⟩ := h
    have hopens := (parseContext_spec hwf hopen).1
    have hran := parseMetalines_ran _ body _ _ (hopens.wf_addLog _) hbody
    obtain ⟨hr, hbranch⟩ := branch_of_pop hopens hran hpop
    rw [hr] at hend hmore
    have hlt := lt_of_lt_of_le hb hbranch.closed_ran.keeps.next_le
    have hlink := Ran.elseCondline hbranch.wf hlt hbranch.current_lt hend
    have hmore := parseElse_ran place _ more _ _ _ hlink.keeps.wf
      (lt_of_lt_of_le hbranch.current_lt hlink.keeps.next_le)
      (current_ne_zero_of_parseContext hwf hopen) hmore
    exact (hbranch.closed_ran.trans hlink).trans hmore
  | place, earlier, .condElse body more, b, ctx, ctx', hwf, hb, hb0, h => by
    simp only [parseElse, Option.bind_eq_some_iff] at h
    obtain ⟨ctx₀, hopen, ctx₁, hbody, r, hpop, ctx₂, hend, hmore⟩ := h
    obtain ⟨hopens, hcur, -⟩ := parseContextElse_spec hwf hopen
    have hran := parseMetalines_ran _ body _ _ (hopens.wf_addLog _) hbody
    obtain ⟨hr, hbranch⟩ := branch_of_pop hopens hran hpop
    rw [hr] at hend hmore
    obtain ⟨key, helse⟩ := hbranch.condElse hwf hb hb0 hopen hend
    have hran := hbranch.condElse_ran hcur helse
    have hlt : ctx₀.current < ctx₂.next := by
      rw [helse.next]
      exact hbranch.current_lt
    have hmore := parseElse_ran place _ more _ _ _ hran.keeps.wf hlt
      (by rw [hcur]; exact hwf.next_pos.ne') hmore
    exact hran.trans hmore

end

end Runs

theorem wf_configInit (vars : DataArray V) : Wf (configInit vars) := by
  have hempty : Bisect.Place (fun i => bufferCaselessCompare
      (configElement 0 (str "global")).key.string ((arrayInit : DataArray ℕ).keyAt i))
      (arrayInit : DataArray ℕ).sorted 0 :=
    ⟨le_rfl, fun _ hi => absurd hi List.not_mem_nil, fun _ hi => absurd hi List.not_mem_nil⟩
  have hheap : (configInit vars).heap 0 =
      { (dataConfigInit : ConfigBlock V) with key := str "global", value := vars } := by
    simp [configInit]
  have hzero : ∀ h < (configInit vars).next, h = 0 := fun h hh => Nat.lt_one_iff.mp hh
  have helem : (configInit vars).allConfigs.live = [configElement 0 (str "global")] := by
    change (arrayInsertAt arrayInit (configElement 0 (str "global")) 0).live = _
    decide
  refine ⟨indexed_arrayInit.arrayInsertAt_indexed hempty, fun e => ?_, rfl, fun h hh => ?_,
    fun h hh hne => absurd (hzero h hh) hne, by rw [hheap], Nat.one_pos, fun h hh => ?_⟩
  · rw [helem, List.mem_singleton]
    constructor
    · rintro rfl
      exact ⟨0, Nat.one_pos, by rw [hheap]⟩
    · rintro ⟨h, hh, rfl⟩
      rw [hzero h hh, hheap]
  · rw [hzero h hh, hheap]
    rfl
  · exact absurd hh (List.not_mem_nil)

end Lighttpd
