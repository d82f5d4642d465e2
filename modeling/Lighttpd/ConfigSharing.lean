import Lighttpd.ConfigPlaces

/-!
# Blocks that are taken up again

When no key of the text belongs to two places, a condition whose key is there already stands where
the block stands that has it. Every block is then kept where the text has it, up to the links of the
branches that are still open and the keys of the else blocks that are still open.
-/

namespace Lighttpd

open CString

variable {V : Type}

/-- The blocks are where the text has them; those in `pend` need not have a branch before them
yet. -/
structure Placed (pend : Set ℕ) (ctx : ConfigCtx V) : Prop where
  lt : ∀ place h, .stands place h ∈ ctx.log → h < ctx.next
  unique : ∀ place place' h, .stands place h ∈ ctx.log → .stands place' h ∈ ctx.log →
    place = place'
  root : .stands [] 0 ∈ ctx.log
  global : ∀ h, .stands [] h ∈ ctx.log → (ctx.heap h).parent = none ∧ (ctx.heap h).prev = none ∧
    (ctx.heap h).cond = .unset
  own : ∀ o es place h, .stands ((o, es) :: place) h ∈ ctx.log → (ctx.heap h).own = o
  parent : ∀ o es place h, .stands ((o, es) :: place) h ∈ ctx.log →
    ∃ p, (ctx.heap h).parent = some p ∧ .stands place p ∈ ctx.log
  first : ∀ o place h, .stands ((o, []) :: place) h ∈ ctx.log → (ctx.heap h).prev = none
  linked : ∀ o e es place h, .stands ((o, e :: es) :: place) h ∈ ctx.log → h ∉ pend →
    ∃ q, (ctx.heap h).prev = some q ∧ .stands ((e, es) :: place) q ∈ ctx.log

/-- The blocks are under the keys `keys` of the text, except for those in `pend`. -/
def Keyed (keys : List (Bytes × Place)) (pend : Set ℕ) (ctx : ConfigCtx V) : Prop :=
  ∀ h < ctx.next, h ≠ 0 → h ∉ pend →
    ∃ a ∈ keys, .stands a.2 h ∈ ctx.log ∧ CaseEq a.1 (ctx.heap h).key

/-- The else blocks that are open are around the block that is read. -/
def Around (pend : Set ℕ) (ctx : ConfigCtx V) : Prop :=
  ∀ h ∈ pend, h < ctx.next ∧ (ctx.heap h).key.length ≤ ctx.cur.key.length

theorem cond_unset_of_own {b b' : ConfigBlock V} (hown : b'.own = b.own) (hcond : b.cond = .unset) :
    b'.cond = .unset := by
  unfold ConfigBlock.own at hown
  rw [hcond, if_neg (c := ConfigCond.unset = .elseBranch) (by decide)] at hown
  split_ifs at hown
  injection hown with hown
  exact congrArg BlockCond.cond hown

variable {b c : ℕ} {o e : BranchCond} {es : List BranchCond} {place inner : Place}
  {ctx ctx₀ : ConfigCtx V} {temp : Set ℕ}

namespace Placed

variable {pend pend' : Set ℕ} {ctx ctx' : ConfigCtx V}

/-- The text read so far is the same, and so are the blocks but for the branches before them. -/
theorem relink (h : Placed pend ctx) (hnext : ctx.next ≤ ctx'.next)
    (hlog : ∀ place a, .stands place a ∈ ctx'.log ↔ .stands place a ∈ ctx.log)
    (hkept : ∀ a < ctx.next, (ctx'.heap a).own = (ctx.heap a).own ∧
      (ctx'.heap a).parent = (ctx.heap a).parent)
    (hfirst : ∀ a, (.stands [] a ∈ ctx.log ∨ ∃ o place, .stands ((o, []) :: place) a ∈ ctx.log) →
      (ctx'.heap a).prev = (ctx.heap a).prev)
    (hlinked : ∀ o e es place a, .stands ((o, e :: es) :: place) a ∈ ctx.log → a ∉ pend' →
      ∃ q, (ctx'.heap a).prev = some q ∧ .stands ((e, es) :: place) q ∈ ctx.log) :
    Placed pend' ctx' where
  lt place a ha := (h.lt place a ((hlog _ _).mp ha)).trans_le hnext
  unique place place' a ha ha' := h.unique _ _ a ((hlog _ _).mp ha) ((hlog _ _).mp ha')
  root := (hlog _ _).mpr h.root
  global a ha := by
    have ha := (hlog _ _).mp ha
    have hlt := h.lt _ a ha
    obtain ⟨hparent, hp, hcond⟩ := h.global a ha
    exact ⟨(hkept a hlt).2.trans hparent, (hfirst a (.inl ha)).trans hp,
      cond_unset_of_own (hkept a hlt).1 hcond⟩
  own o es place a ha := by
    have ha := (hlog _ _).mp ha
    rw [(hkept a (h.lt _ a ha)).1]
    exact h.own o es place a ha
  parent o es place a ha := by
    have ha := (hlog _ _).mp ha
    obtain ⟨p, hp, hmem⟩ := h.parent o es place a ha
    exact ⟨p, (hkept a (h.lt _ a ha)).2.trans hp, (hlog _ _).mpr hmem⟩
  first o place a ha := by
    have ha := (hlog _ _).mp ha
    rw [hfirst a (.inr ⟨o, place, ha⟩)]
    exact h.first o place a ha
  linked o e es place a ha hopen := by
    obtain ⟨q, hq, hmem⟩ := hlinked o e es place a ((hlog _ _).mp ha) hopen
    exact ⟨q, hq, (hlog _ _).mpr hmem⟩

theorem frame (h : Placed pend ctx) (hnext : ctx.next ≤ ctx'.next)
    (hlog : ∀ place a, .stands place a ∈ ctx'.log ↔ .stands place a ∈ ctx.log)
    (hkept : ∀ a < ctx.next, Kept (ctx.heap a) (ctx'.heap a))
    (hprev : ∀ a < ctx.next, (ctx'.heap a).prev = (ctx.heap a).prev)
    (hpend : ∀ a ∈ pend, a ∈ pend') : Placed pend' ctx' := by
  refine h.relink hnext hlog (fun a ha => ⟨(hkept a ha).own, (hkept a ha).parent⟩) ?_ ?_
  · rintro a (ha | ⟨o, place, ha⟩)
    · exact hprev a (h.lt _ a ha)
    · exact hprev a (h.lt _ a ha)
  · intro o e es place a ha hopen
    rw [hprev a (h.lt _ a ha)]
    exact h.linked o e es place a ha fun hin => hopen (hpend a hin)

/-- The branch `c` is linked behind the branch `b`. -/
theorem link (h : Placed pend ctx) (hnext : ctx'.next = ctx.next)
    (hlog : ∀ place a, .stands place a ∈ ctx'.log ↔ .stands place a ∈ ctx.log)
    (hkept : ∀ a < ctx.next, (ctx'.heap a).own = (ctx.heap a).own ∧
      (ctx'.heap a).parent = (ctx.heap a).parent)
    (hprev : ∀ a, (ctx'.heap a).prev = if a = c then some b else (ctx.heap a).prev)
    (hc : .stands ((o, e :: es) :: place) c ∈ ctx.log) (hb : .stands ((e, es) :: place) b ∈ ctx.log)
    (hpend : ∀ a ∈ pend, a ≠ c → a ∈ pend') : Placed pend' ctx' := by
  have hne : ∀ place', place' ≠ (o, e :: es) :: place →
      ∀ a, .stands place' a ∈ ctx.log → a ≠ c := by
    rintro place' hne a ha rfl
    exact hne (h.unique _ _ a ha hc)
  refine h.relink hnext.ge hlog hkept ?_ ?_
  · rintro a (ha | ⟨o', place', ha⟩)
    · rw [hprev, if_neg (hne _ (by simp) a ha)]
    · rw [hprev, if_neg (hne _ (by simp) a ha)]
  · intro o' e' es' place' a ha hopen
    rw [hprev]
    by_cases hac : a = c
    · subst hac
      have heq := h.unique _ _ a ha hc
      injection heq with heq hplace
      injection heq with _ heq
      injection heq with he hes
      subst he hes hplace
      exact ⟨b, by rw [if_pos rfl], hb⟩
    · rw [if_neg hac]
      exact h.linked _ _ _ _ a ha fun hin => hopen (hpend a hin hac)

end Placed

theorem Placed.new {pend pend' : Set ℕ} (h : Placed pend ctx) (hopens : Opens ctx ctx₀)
    (hcur : ctx₀.current = ctx.next) (hplace : .stands place ctx.current ∈ ctx.log)
    (hown : (ctx₀.heap ctx.next).own = o) (hparent : (ctx₀.heap ctx.next).parent = some ctx.current)
    (hprev : (ctx₀.heap ctx.next).prev = none) (hpend : ∀ a ∈ pend, a ∈ pend')
    (hopen : es ≠ [] → ctx.next ∈ pend') :
    Placed pend' (ctx₀.addLog (.stands ((o, es) :: place) ctx₀.current)) := by
  have hmem : ∀ place' a, .stands place' a ∈ (ctx₀.addLog (.stands ((o, es) :: place) ctx₀.current)).log →
      (place' = (o, es) :: place ∧ a = ctx.next) ∨ (a < ctx.next ∧ .stands place' a ∈ ctx.log) := by
    intro place' a ha
    rcases List.mem_cons.mp ha with ha | ha
    · injection ha with hp ha
      exact .inl ⟨hp, ha.trans hcur⟩
    · rw [hopens.log] at ha
      exact .inr ⟨h.lt _ a ha, ha⟩
  have hold : ∀ place' a, .stands place' a ∈ ctx.log →
      .stands place' a ∈ (ctx₀.addLog (.stands ((o, es) :: place) ctx₀.current)).log := by
    intro place' a ha
    refine List.mem_cons_of_mem _ ?_
    rw [hopens.log]
    exact ha
  have hlt : ctx.next < ctx₀.next := by
    rw [← hcur]
    exact hopens.keeps.wf.current
  refine ⟨fun place' a ha => ?_, fun place' place'' a ha ha' => ?_, hold _ _ h.root, fun a ha => ?_,
    fun o' es' place' a ha => ?_, fun o' es' place' a ha => ?_, fun o' place' a ha => ?_,
    fun o' e' es' place' a ha hout => ?_⟩
  · rcases hmem _ _ ha with ⟨-, rfl⟩ | ⟨ha, -⟩
    · exact hlt
    · exact ha.trans hlt
  · rcases hmem _ _ ha with ⟨rfl, rfl⟩ | ⟨hlt, ha⟩
    · rcases hmem _ _ ha' with ⟨rfl, -⟩ | ⟨hlt', -⟩
      · rfl
      · exact absurd hlt' (lt_irrefl _)
    · rcases hmem _ _ ha' with ⟨-, rfl⟩ | ⟨-, ha'⟩
      · exact absurd hlt (lt_irrefl _)
      · exact h.unique _ _ a ha ha'
  · rcases hmem _ _ ha with ⟨hp, -⟩ | ⟨hlt, ha⟩
    · cases hp
    · obtain ⟨hparent, hp, hcond⟩ := h.global a ha
      exact ⟨(hopens.keeps.kept a hlt).parent.trans hparent, (hopens.prev a hlt).trans hp,
        cond_unset_of_own (hopens.keeps.kept a hlt).own hcond⟩
  · rcases hmem _ _ ha with ⟨hp, rfl⟩ | ⟨hlt, ha⟩
    · cases hp
      exact hown
    · exact (hopens.keeps.kept a hlt).own.trans (h.own _ _ _ a ha)
  · rcases hmem _ _ ha with ⟨hp, rfl⟩ | ⟨hlt, ha⟩
    · cases hp
      exact ⟨ctx.current, hparent, hold _ _ hplace⟩
    · obtain ⟨p, hp, hin⟩ := h.parent _ _ _ a ha
      exact ⟨p, (hopens.keeps.kept a hlt).parent.trans hp, hold _ _ hin⟩
  · rcases hmem _ _ ha with ⟨-, rfl⟩ | ⟨hlt, ha⟩
    · exact hprev
    · exact (hopens.prev a hlt).trans (h.first _ _ a ha)
  · rcases hmem _ _ ha with ⟨hp, rfl⟩ | ⟨hlt, ha⟩
    · cases hp
      exact absurd (hopen (by simp)) hout
    · obtain ⟨q, hq, hin⟩ := h.linked _ _ _ _ a ha fun hin => hout (hpend a hin)
      exact ⟨q, (hopens.prev a hlt).trans hq, hold _ _ hin⟩

/-! ## One step of the parser -/

/-- Everything that holds while the text is read: `pend` are the open branches, `temp` the open else
blocks. -/
structure InPlace (keys : List (Bytes × Place)) (pend temp : Set ℕ) (ctx : ConfigCtx V) : Prop where
  placed : Placed pend ctx
  keyed : Keyed keys temp ctx
  around : Around temp ctx

theorem Around.ran {ctx' : ConfigCtx V} (h : Around temp ctx) (hwf : Wf ctx) (hran : Ran ctx ctx') :
    Around temp ctx' := by
  intro a ha
  obtain ⟨hlt, hle⟩ := h a ha
  rw [hran.cur_key hwf, (hran.keeps.kept a hlt).key]
  exact ⟨hlt.trans_le hran.keeps.next_le, hle⟩

theorem Around.opens (h : Around temp ctx) (hopens : Opens ctx ctx₀)
    (hlen : ctx.cur.key.length ≤ ctx₀.cur.key.length) : Around temp ctx₀ := by
  intro a ha
  obtain ⟨hlt, hle⟩ := h a ha
  rw [(hopens.keeps.kept a hlt).key]
  exact ⟨hlt.trans_le hopens.keeps.next_le, hle.trans hlen⟩

theorem own_condBlock {lib : ParserLib} {c : TextCond} {cond : BlockCond}
    (h : contextCond lib c = some cond) {b : ConfigBlock V} (hcomp : b.comp = cond.comp)
    (htag : b.compTag = cond.compTag) (hcond : b.cond = cond.cond)
    (hstring : b.string = some cond.string) : b.own = branchCond lib c := by
  have hop : cond.cond = c.op.cond := by
    unfold contextCond at h
    dsimp only at h
    split at h
    · cases h
    · split_ifs at h
      cases h
      rfl
  have hne : b.cond ≠ .elseBranch := by
    rw [hcond, hop]
    cases c.op <;> decide
  rw [ConfigBlock.own, if_neg hne, branchCond, h, hcomp, htag, hcond, hstring]
  rfl

/-- The blocks from before are under their keys when a new one is there. -/
theorem Keyed.new {keys : List (Bytes × Place)} {temp' : Set ℕ} (h : Keyed keys temp ctx)
    (hopens : Opens ctx ctx₀) (hnext : ctx₀.next = ctx.next + 1) (htemp : ∀ a ∈ temp, a ∈ temp')
    (hnew : ctx.next ∉ temp' → ∃ key, (key, inner) ∈ keys ∧ CaseEq key (ctx₀.heap ctx.next).key)
    (hcur : ctx₀.current = ctx.next) :
    Keyed keys temp' (ctx₀.addLog (.stands inner ctx₀.current)) := by
  intro a ha h0 hout
  have ha : a < ctx.next + 1 := by
    rw [← hnext]
    exact ha
  rcases Nat.lt_succ_iff_lt_or_eq.mp ha with ha | rfl
  · obtain ⟨b, hb, hstands, hkey⟩ := h a ha h0 fun hin => hout (htemp a hin)
    refine ⟨b, hb, List.mem_cons_of_mem _ (by rw [hopens.log]; exact hstands), ?_⟩
    rw [show (ctx₀.addLog _).heap = ctx₀.heap from rfl, (hopens.keeps.kept a ha).key]
    exact hkey
  · obtain ⟨key, hmem, hkey⟩ := hnew hout
    exact ⟨_, hmem, by rw [hcur]; exact List.mem_cons_self, hkey⟩

section Steps

variable {lib : ParserLib} {keys : List (Bytes × Place)} {pend temp : Set ℕ} {ctx ctx₀ : ConfigCtx V}

variable {key : Bytes} {ctx₁ ctx₂ ctx₃ : ConfigCtx V}

/-- `context`. A key belongs to one place, so that a block that is taken up is where it should be. -/
theorem InPlace.context (hkeys : ∀ a ∈ keys, ∀ b ∈ keys, CaseEq a.1 b.1 → a.2 = b.2) {c : TextCond}
    {q : Set ℕ} (h : InPlace keys pend temp ctx) (hwf : Wf ctx)
    (hopen : parseContext lib c ctx = some ctx₀) (hplace : .stands place ctx.current ∈ ctx.log)
    (hkey : CaseEq key ctx.cur.key) (hmem : (condKey key c, (branchCond lib c, es) :: place) ∈ keys)
    (hpend : ∀ a ∈ pend, a ∈ q) (hes : es ≠ [] → ctx₀.current ∈ q) :
    InPlace keys q temp (ctx₀.addLog (.stands ((branchCond lib c, es) :: place) ctx₀.current)) := by
  have hcond := (condKey_caseEq hkey c).trans (caseEq_parseContext hwf hopen)
  obtain ⟨hopens, cond, hopened, hnew⟩ := parseContext_spec hwf hopen
  have hlen : ctx.cur.key.length < ctx₀.cur.key.length := by
    rw [← hcond.length_eq, (condKey_caseEq hkey c).length_eq]
    exact length_condKey _ _
  have haround : Around temp ctx₀ := h.around.opens hopens hlen.le
  cases hopened with
  | found hlt hfound hheap hnext =>
    -- the block that has the key has it from a branch at the same place
    have htemp : ctx₀.current ∉ temp := by
      intro hin
      have hle := (h.around _ hin).2
      rw [← hfound.length_eq] at hle
      have := length_condKey ctx.cur.key c
      omega
    obtain ⟨a, ha, hstands, hakey⟩ :=
      h.keyed _ hlt (current_ne_zero_of_parseContext hwf hopen) htemp
    have hsame := hkeys _ hmem _ ha ((hcond.trans (by rw [ConfigCtx.cur, hheap]; exact .refl _)).trans
      hakey.symm)
    rw [← hsame] at hstands
    have hlog : ∀ place' b, .stands place' b ∈
        (ctx₀.addLog (.stands ((branchCond lib c, es) :: place) ctx₀.current)).log ↔
          .stands place' b ∈ ctx.log := by
      intro place' b
      rw [← hopens.log]
      refine ⟨fun hb => ?_, fun hb => List.mem_cons_of_mem _ hb⟩
      rcases List.mem_cons.mp hb with hb | hb
      · injection hb with hp hb
        rw [hp, hb, hopens.log]
        exact hstands
      · exact hb
    refine ⟨h.placed.frame hopens.keeps.next_le hlog hopens.keeps.kept hopens.prev hpend,
      fun b hb h0 hout => ?_, haround⟩
    obtain ⟨a, ha, hstands, hakey⟩ := h.keyed b (by rw [← hnext]; exact hb) h0 hout
    exact ⟨a, ha, (hlog _ _).mpr hstands, by rw [show (ctx₀.addLog _).heap = ctx.heap from hheap]; exact hakey⟩
  | new hcur hnext hfresh hblock =>
    have hlib := hnew hcur
    have hown : (ctx₀.heap ctx.next).own = branchCond lib c := by
      rw [hblock]
      exact own_condBlock hlib rfl rfl rfl rfl
    refine ⟨h.placed.new hopens hcur hplace hown (by rw [hblock]) (by rw [hblock]; rfl) hpend
      (fun hne => hcur ▸ hes hne), h.keyed.new hopens hnext (fun _ ha => ha) (fun _ => ?_) hcur, haround⟩
    exact ⟨_, hmem, by rw [ConfigCtx.cur, hcur] at hcond; exact hcond⟩

/-- `context_else`. -/
theorem InPlace.contextElse (h : InPlace keys pend temp ctx) (hwf : Wf ctx)
    (hopen : parseContextElse ctx = some ctx₀) (hplace : .stands place ctx.current ∈ ctx.log) :
    InPlace keys (insert ctx₀.current pend) (insert ctx₀.current temp)
      (ctx₀.addLog (.stands ((.otherwise, es) :: place) ctx₀.current)) := by
  obtain ⟨hopens, hcur, hnext, hblock⟩ := parseContextElse_spec hwf hopen
  have hlen : ctx.cur.key.length ≤ ctx₀.cur.key.length := by
    rw [key_parseContextElse hwf hopen]
    exact (length_elseKey _).le
  refine ⟨h.placed.new hopens hcur hplace (by rw [hblock]; rfl) (by rw [hblock]) (by rw [hblock]; rfl)
    (fun _ ha => Set.mem_insert_of_mem _ ha) (fun _ => by rw [hcur]; exact Set.mem_insert _ _),
    h.keyed.new hopens hnext (fun _ ha => Set.mem_insert_of_mem _ ha)
      (fun hout => absurd (by rw [hcur]; exact Set.mem_insert _ _) hout) hcur, ?_⟩
  intro a ha
  rcases Set.mem_insert_iff.mp ha with rfl | ha
  · exact ⟨hopens.keeps.wf.current, le_rfl⟩
  · exact h.around.opens hopens hlen a ha

theorem Placed.closed (h : Placed pend ctx₁) (hbranch : Branch inner ctx ctx₀ ctx₁ ctx₂) :
    Placed pend ctx₂ := by
  rw [hbranch.closed]
  exact h.frame le_rfl (fun _ _ => .rfl) (fun _ _ => .refl _) (fun _ _ => rfl) (fun _ ha => ha)

theorem Keyed.closed (h : Keyed keys temp ctx₁) (hbranch : Branch inner ctx ctx₀ ctx₁ ctx₂) :
    Keyed keys temp ctx₂ := by
  rw [hbranch.closed]
  exact h

theorem Placed.elseCondline (hwf : Wf ctx₂) (h : Placed (insert c pend) ctx₂) (hb : b < ctx₂.next)
    (hc : c < ctx₂.next) (hend : parseElseCondline ctx₂ b c = some ctx₃)
    (hcs : .stands ((o, e :: es) :: place) c ∈ ctx₂.log)
    (hbs : .stands ((e, es) :: place) b ∈ ctx₂.log) : Placed pend ctx₃ := by
  obtain ⟨-, hlinked, hnext, -, -, hlog, -⟩ := parseElseCondline_spec hwf hb hc hend
  exact h.link hnext (fun _ _ => by rw [hlog])
    (fun a _ => ⟨(hlinked.kept a).own, (hlinked.kept a).parent⟩) hlinked.prev hcs hbs
    fun a ha hne => (Set.mem_insert_iff.mp ha).resolve_left hne

theorem Keyed.elseCondline (hwf : Wf ctx₂) (h : Keyed keys temp ctx₂) (hb : b < ctx₂.next)
    (hc : c < ctx₂.next) (hend : parseElseCondline ctx₂ b c = some ctx₃) :
    Keyed keys temp ctx₃ := by
  obtain ⟨-, hlinked, hnext, -, -, hlog, -⟩ := parseElseCondline_spec hwf hb hc hend
  intro a ha h0 hout
  rw [hnext] at ha
  rw [hlog, (hlinked.kept a).key]
  exact h a ha h0 hout

theorem mem_log_condElse (h : CondElse ctx₂ ctx₃ b c key) (place : Place) (a : ℕ) :
    .stands place a ∈ ctx₃.log ↔ .stands place a ∈ ctx₂.log := by
  rw [h.log]
  simp

theorem Placed.condElse (h : Placed (insert c pend) ctx₂) (hend : CondElse ctx₂ ctx₃ b c key)
    (hcs : .stands ((o, e :: es) :: place) c ∈ ctx₂.log)
    (hbs : .stands ((e, es) :: place) b ∈ ctx₂.log) : Placed pend ctx₃ := by
  refine h.link hend.next (mem_log_condElse hend) (fun a _ => ?_) hend.prev hcs hbs
    fun a ha hne => (Set.mem_insert_iff.mp ha).resolve_left hne
  by_cases hac : a = c
  · rw [hac]
    exact ⟨hend.own, hend.parent⟩
  · exact ⟨(hend.kept a hac).own, (hend.kept a hac).parent⟩

theorem Keyed.condElse {key' : Bytes} (h : Keyed keys (insert c temp) ctx₂)
    (hend : CondElse ctx₂ ctx₃ b c key) (hmem : (key', inner) ∈ keys)
    (hstands : .stands inner c ∈ ctx₂.log) (hkey : CaseEq key' (ctx₃.heap c).key) :
    Keyed keys temp ctx₃ := by
  intro a ha h0 hout
  by_cases hac : a = c
  · exact ⟨_, hmem, (mem_log_condElse hend _ _).mpr (hac ▸ hstands), hac ▸ hkey⟩
  · rw [hend.next] at ha
    obtain ⟨x, hx, hxs, hxkey⟩ := h a ha h0 fun hin =>
      (Set.mem_insert_iff.mp hin).elim hac hout
    refine ⟨x, hx, (mem_log_condElse hend _ _).mpr hxs, ?_⟩
    rw [(hend.kept a hac).key]
    exact hxkey

theorem Placed.varline [Inhabited V] {op : AssignOp} {name : Bytes} {value : V}
    (h : Placed pend ctx) (hkeyed : Keyed keys temp ctx) (hwf : Wf ctx)
    (hvar : parseVarline ctx op name value = some ctx₁)
    (hplace : .stands place ctx.current ∈ ctx.log) :
    Placed pend (ctx₁.addLog (.stands place ctx₁.current)) ∧
      Keyed keys temp (ctx₁.addLog (.stands place ctx₁.current)) := by
  have hran := Ran.varline hwf hvar
  have hran := hran.trans (.addLog hran.keeps.wf (.stands place ctx₁.current))
  obtain ⟨-, vars, rfl⟩ := parseVarline_spec hwf hvar
  have hlog : ∀ place' a, .stands place' a ∈ ((ctx.setBlock ctx.current
      { ctx.cur with value := vars }).addLog (.stands place ctx.current)).log ↔
        .stands place' a ∈ ctx.log := by
    intro place' a
    refine ⟨fun ha => ?_, fun ha => List.mem_cons_of_mem _ ha⟩
    rcases List.mem_cons.mp ha with ha | ha
    · injection ha with hp ha
      rw [hp, ha]
      exact hplace
    · exact ha
  refine ⟨h.frame le_rfl hlog hran.keeps.kept (fun a _ => ?_) (fun _ ha => ha),
    fun a ha h0 hout => ?_⟩
  · by_cases hac : a = ctx.current
    · subst hac
      simp [ConfigCtx.setBlock, ConfigCtx.addLog, ConfigCtx.cur]
    · simp [ConfigCtx.setBlock, ConfigCtx.addLog, Function.update_of_ne hac]
  · obtain ⟨x, hx, hxs, hxkey⟩ := hkeyed a ha h0 hout
    exact ⟨x, hx, (hlog _ _).mpr hxs, by rw [(hran.keeps.kept a ha).key]; exact hxkey⟩

/-- `globalstart`. -/
theorem InPlace.globalstart (h : InPlace keys pend temp ctx) (hwf : Wf ctx)
    (hopen : parseGlobalstart ctx = some ctx₀) :
    Placed pend (ctx₀.addLog (.stands [] ctx₀.current)) ∧
      Keyed keys temp (ctx₀.addLog (.stands [] ctx₀.current)) := by
  obtain ⟨hopens, hcur, hheap, hnext⟩ := parseGlobalstart_spec hwf hopen
  have hlog : ∀ place' a, .stands place' a ∈ (ctx₀.addLog (.stands [] ctx₀.current)).log ↔
      .stands place' a ∈ ctx.log := by
    intro place' a
    rw [← hopens.log]
    refine ⟨fun ha => ?_, fun ha => List.mem_cons_of_mem _ ha⟩
    rcases List.mem_cons.mp ha with ha | ha
    · injection ha with hp ha
      rw [hp, ha, hcur, hopens.log]
      exact h.placed.root
    · exact ha
  refine ⟨h.placed.frame hopens.keeps.next_le hlog hopens.keeps.kept hopens.prev (fun _ ha => ha),
    fun a ha h0 hout => ?_⟩
  have ha : a < ctx.next := by
    rw [← hnext]
    exact ha
  obtain ⟨x, hx, hxs, hxkey⟩ := h.keyed a ha h0 hout
  exact ⟨x, hx, (hlog _ _).mpr hxs,
    by rw [show (ctx₀.addLog _).heap = ctx.heap from hheap]; exact hxkey⟩

end Steps

section Text

variable [Inhabited V] (lib : ParserLib) {keys : List (Bytes × Place)}

theorem parseMetalines_globalBody {pend : Set ℕ} : ∀ (body : ConfigText V)
    (ctx ctx' : ConfigCtx V), Wf ctx → ctx.configsStack ≠ [] → ctx.current = 0 →
      .stands [] ctx.current ∈ ctx.log → parseMetalines lib [] body ctx = some ctx' →
      Placed pend ctx → Keyed keys temp ctx → Placed pend ctx' ∧ Keyed keys temp ctx'
  | .nil, ctx, ctx', _, _, _, _, h, hplaced, hkeyed => by
    rw [parseMetalines] at h
    obtain rfl := Option.some.inj h
    exact ⟨hplaced, hkeyed⟩
  | .varline op name value rest, ctx, ctx', hwf, hstack, hcur, hplace, h, hplaced, hkeyed => by
    simp only [parseMetalines, Option.bind_eq_some_iff] at h
    obtain ⟨ctx₁, hvar, hrest⟩ := h
    have hran := Ran.varline hwf hvar
    have hran := hran.trans (.addLog hran.keeps.wf (.stands [] ctx₁.current))
    obtain ⟨hplaced', hkeyed'⟩ := hplaced.varline hkeyed hwf hvar hplace
    exact parseMetalines_globalBody rest _ _ hran.keeps.wf (by rw [hran.stack]; exact hstack)
      (hran.current.trans hcur) List.mem_cons_self hrest hplaced' hkeyed'
  | .global body rest, ctx, ctx', hwf, hstack, hcur, _, h, _, _ => by
    simp only [parseMetalines, Option.bind_eq_some_iff] at h
    obtain ⟨ctx₀, hopen, -⟩ := h
    exact absurd hcur ((parseGlobalstart_spec hwf hopen).1.allowed hstack)
  | .condlines c body more rest, ctx, ctx', hwf, hstack, hcur, _, h, _, _ => by
    simp only [parseMetalines, Option.bind_eq_some_iff] at h
    obtain ⟨ctx₀, hopen, -⟩ := h
    exact absurd hcur ((parseContext_spec hwf hopen).1.allowed hstack)

mutual

theorem parseMetalines_reading : ∀ (key : Bytes) (place : Place) (text : ConfigText V)
    (pend temp : Set ℕ) (ctx ctx' : ConfigCtx V),
    (∀ a ∈ keys, ∀ b ∈ keys, CaseEq a.1 b.1 → a.2 = b.2) → Wf ctx →
      parseMetalines lib place text ctx = some ctx' → CaseEq key ctx.cur.key →
      .stands place ctx.current ∈ ctx.log → (∀ a ∈ blockKeys lib key place text, a ∈ keys) →
      InPlace keys pend temp ctx → InPlace keys pend temp ctx'
  | key, place, .nil, pend, temp, ctx, ctx', _, _, h, _, _, _, hread => by
    rw [parseMetalines] at h
    obtain rfl := Option.some.inj h
    exact hread
  | key, place, .varline op name value rest, pend, temp, ctx, ctx', hkeys, hwf, h, hkey, hplace,
      hmem, hread => by
    simp only [parseMetalines, Option.bind_eq_some_iff] at h
    obtain ⟨ctx₁, hvar, hrest⟩ := h
    have hran := Ran.varline hwf hvar
    have hran := hran.trans (.addLog hran.keeps.wf (.stands place ctx₁.current))
    obtain ⟨hplaced, hkeyed⟩ := hread.placed.varline hread.keyed hwf hvar hplace
    rw [blockKeys] at hmem
    exact parseMetalines_reading key place rest pend temp _ _ hkeys hran.keeps.wf hrest
      (by rw [hran.cur_key hwf]; exact hkey) List.mem_cons_self hmem
      ⟨hplaced, hkeyed, hread.around.ran hwf hran⟩
  | key, place, .global body rest, pend, temp, ctx, ctx', hkeys, hwf, h, hkey, hplace, hmem,
      hread => by
    simp only [parseMetalines, Option.bind_eq_some_iff] at h
    obtain ⟨ctx₀, hopen, ctx₁, hbody, r, hpop, hrest⟩ := h
    obtain ⟨hopens, hcur, -⟩ := parseGlobalstart_spec hwf hopen
    have hran := parseMetalines_ran lib [] body _ _ (hopens.wf_addLog _) hbody
    obtain ⟨-, hbranch⟩ := branch_of_pop hopens hran hpop
    have hclosed := hbranch.closed_ran
    obtain ⟨hplaced, hkeyed⟩ := hread.globalstart hwf hopen
    obtain ⟨hplaced, hkeyed⟩ := parseMetalines_globalBody lib body _ _ (hopens.wf_addLog _)
      (by rw [show (ctx₀.addLog _).configsStack = ctx₀.configsStack from rfl, hopens.stack]; simp)
      hcur List.mem_cons_self hbody hplaced hkeyed
    rw [blockKeys] at hmem
    refine parseMetalines_reading key place rest pend temp _ _ hkeys hbranch.wf hrest
      (by rw [hclosed.cur_key hwf]; exact hkey) ?_ hmem ?_
    · rw [hclosed.current]
      exact hclosed.keeps.log _ hplace
    · exact ⟨hplaced.closed hbranch, hkeyed.closed hbranch, hread.around.ran hwf hclosed⟩
  | key, place, .condlines c body more rest, pend, temp, ctx, ctx', hkeys, hwf, h, hkey, hplace, hmem,
      hread => by
    simp only [parseMetalines, Option.bind_eq_some_iff] at h
    obtain ⟨ctx₀, hopen, ctx₁, hbody, r, hpop, ctx₂, hmore, hrest⟩ := h
    have hopens := (parseContext_spec hwf hopen).1
    have hran := parseMetalines_ran lib _ body _ _ (hopens.wf_addLog _) hbody
    obtain ⟨hr, hbranch⟩ := branch_of_pop hopens hran hpop
    rw [hr] at hmore
    have hc0 := current_ne_zero_of_parseContext hwf hopen
    have helse := parseElse_ran lib place _ more _ _ _ hbranch.wf hbranch.current_lt hc0 hmore
    have hclosed := hbranch.closed_ran
    have hwhole := hclosed.trans helse
    have hcond := (condKey_caseEq hkey c).trans (caseEq_parseContext hwf hopen)
    rw [blockKeys] at hmem
    have hbodyMem : ∀ a ∈ blockKeys lib (condKey key c) ((branchCond lib c, []) :: place) body,
        a ∈ keys := fun a ha =>
      hmem a (List.mem_append_left _ (List.mem_cons_of_mem _ ha))
    have hmoreMem : ∀ a ∈ elseKeys lib key place (condKey key c) (branchCond lib c) [] more,
        a ∈ keys := fun a ha => hmem a (List.mem_append_right _ (List.mem_append_left _ ha))
    have hrestMem : ∀ a ∈ blockKeys lib key place rest, a ∈ keys := fun a ha =>
      hmem a (List.mem_append_right _ (List.mem_append_right _ ha))
    have hin := hread.context hkeys (q := pend) hwf hopen hplace hkey
      (hmem _ (List.mem_append_left _ List.mem_cons_self)) (fun _ ha => ha) (fun hne => absurd rfl hne)
    have hin := parseMetalines_reading _ _ body pend temp _ _ hkeys (hopens.wf_addLog _) hbody hcond
      List.mem_cons_self hbodyMem hin
    have hafter : InPlace keys pend temp r.2 :=
      ⟨hin.placed.closed hbranch, hin.keyed.closed hbranch, hread.around.ran hwf hclosed⟩
    have hafter := parseElse_reading key place _ _ [] more _ pend temp _ _ hkeys hbranch.wf
      hbranch.current_lt hc0 hmore (by rw [hclosed.cur_key hwf]; exact hkey)
      (by rw [hbranch.key]; exact hcond) hbranch.mem_log
      (by rw [hclosed.current]; exact hclosed.keeps.log _ hplace) hmoreMem hafter
    exact parseMetalines_reading key place rest pend temp _ _ hkeys helse.keeps.wf hrest
      (by rw [hwhole.cur_key hwf]; exact hkey)
      (by rw [hwhole.current]; exact hwhole.keeps.log _ hplace) hrestMem hafter

theorem parseElse_reading : ∀ (key : Bytes) (place : Place) (prevKey : Bytes) (prev : BranchCond)
    (earlier : List BranchCond) (more : ElseText V) (b : ℕ) (pend temp : Set ℕ)
    (ctx ctx' : ConfigCtx V), (∀ a ∈ keys, ∀ b ∈ keys, CaseEq a.1 b.1 → a.2 = b.2) → Wf ctx →
      b < ctx.next → b ≠ 0 → parseElse lib place (prev :: earlier) more b ctx = some ctx' →
      CaseEq key ctx.cur.key → CaseEq prevKey (ctx.heap b).key →
      .stands ((prev, earlier) :: place) b ∈ ctx.log → .stands place ctx.current ∈ ctx.log →
      (∀ a ∈ elseKeys lib key place prevKey prev earlier more, a ∈ keys) →
      InPlace keys pend temp ctx → InPlace keys pend temp ctx'
  | key, place, prevKey, prev, earlier, .done, b, pend, temp, ctx, ctx', _, _, _, _, h, _, _, _, _, _,
      hread => by
    rw [parseElse] at h
    obtain rfl := Option.some.inj h
    exact hread
  | key, place, prevKey, prev, earlier, .condline c body more, b, pend, temp, ctx, ctx', hkeys, hwf,
      hb, _, h, hkey, _, hstands, hplace, hmem, hread => by
    simp only [parseElse, Option.bind_eq_some_iff] at h
    obtain ⟨ctx₀, hopen, ctx₁, hbody, r, hpop, ctx₂, hend, hmore⟩ := h
    have hopens := (parseContext_spec hwf hopen).1
    have hran := parseMetalines_ran lib _ body _ _ (hopens.wf_addLog _) hbody
    obtain ⟨hr, hbranch⟩ := branch_of_pop hopens hran hpop
    rw [hr] at hend hmore
    have hc0 := current_ne_zero_of_parseContext hwf hopen
    have hclosed := hbranch.closed_ran
    have hblt := lt_of_lt_of_le hb hclosed.keeps.next_le
    have hlink := Ran.elseCondline hbranch.wf hblt hbranch.current_lt hend
    have hlt := lt_of_lt_of_le hbranch.current_lt hlink.keeps.next_le
    have hwhole := hclosed.trans hlink
    have hcond := (condKey_caseEq hkey c).trans (caseEq_parseContext hwf hopen)
    have hcond' : CaseEq (condKey key c) (ctx₂.heap ctx₀.current).key := by
      rw [(hlink.keeps.kept _ hbranch.current_lt).key, hbranch.key]
      exact hcond
    rw [elseKeys] at hmem
    have hbodyMem : ∀ a ∈ blockKeys lib (condKey key c)
        ((branchCond lib c, prev :: earlier) :: place) body, a ∈ keys := fun a ha =>
      hmem a (List.mem_append_left _ (List.mem_cons_of_mem _ ha))
    have hin := hread.context hkeys (q := insert ctx₀.current pend) hwf hopen hplace hkey
      (hmem _ (List.mem_append_left _ List.mem_cons_self))
      (fun _ ha => Set.mem_insert_of_mem _ ha) (fun _ => Set.mem_insert _ _)
    have hin := parseMetalines_reading _ _ body _ temp _ _ hkeys (hopens.wf_addLog _) hbody hcond
      List.mem_cons_self hbodyMem hin
    have hplaced := (hin.placed.closed hbranch).elseCondline hbranch.wf hblt hbranch.current_lt hend
      hbranch.mem_log (hclosed.keeps.log _ hstands)
    have hkeyed := (hin.keyed.closed hbranch).elseCondline hbranch.wf hblt hbranch.current_lt hend
    exact parseElse_reading key place _ _ _ more _ pend temp _ _ hkeys hlink.keeps.wf hlt hc0 hmore
      (by rw [hwhole.cur_key hwf]; exact hkey) hcond' (hlink.keeps.log _ hbranch.mem_log)
      (by rw [hwhole.current]; exact hwhole.keeps.log _ hplace)
      (fun a ha => hmem a (List.mem_append_right _ ha))
      ⟨hplaced, hkeyed, hread.around.ran hwf hwhole⟩
  | key, place, prevKey, prev, earlier, .condElse body more, b, pend, temp, ctx, ctx', hkeys, hwf,
      hb, hb0, h, hkey, hprev, hstands, hplace, hmem, hread => by
    simp only [parseElse, Option.bind_eq_some_iff] at h
    obtain ⟨ctx₀, hopen, ctx₁, hbody, r, hpop, ctx₂, hend, hmore⟩ := h
    obtain ⟨hopens, hcur, -⟩ := parseContextElse_spec hwf hopen
    have hran := parseMetalines_ran lib _ body _ _ (hopens.wf_addLog _) hbody
    obtain ⟨hr, hbranch⟩ := branch_of_pop hopens hran hpop
    rw [hr] at hend hmore
    obtain ⟨key', helse⟩ := hbranch.condElse hwf hb hb0 hopen hend
    have hwhole := hbranch.condElse_ran hcur helse
    have hlt : ctx₀.current < ctx₂.next := by
      rw [helse.next]
      exact hbranch.current_lt
    have hc0 : ctx₀.current ≠ 0 := by
      rw [hcur]
      exact hwf.next_pos.ne'
    have hopenKey := key_parseContextElse hwf hopen
    have hclosed := hbranch.closed_ran
    rw [elseKeys] at hmem
    have hbodyMem : ∀ a ∈ blockKeys lib (elseKey key)
        ((BranchCond.otherwise, prev :: earlier) :: place) body, a ∈ keys := fun a ha =>
      hmem a (List.mem_append_left _ (List.mem_cons_of_mem _ ha))
    have hin := parseMetalines_reading (elseKey key) _ body _ _ _ _ hkeys (hopens.wf_addLog _) hbody
      (by rw [show (ctx₀.addLog _).cur.key = ctx₀.cur.key from rfl, hopenKey]; exact elseKey_caseEq hkey)
      List.mem_cons_self hbodyMem (hread.contextElse hwf hopen hplace)
    have hplaced := hin.placed.closed hbranch
    have hbstands : .stands ((prev, earlier) :: place) b ∈ r.2.log := hclosed.keeps.log _ hstands
    have hprev' : CaseEq prevKey (r.2.heap b).key := by
      rw [(hclosed.keeps.kept b hb).key]
      exact hprev
    have hkey' := helse.caseEq (hplaced.own _ _ _ _ hbstands) hprev'
    have hkeyed := (hin.keyed.closed hbranch).condElse helse
      (hmem _ (List.mem_append_left _ List.mem_cons_self)) hbranch.mem_log hkey'
    have hcmem : .stands ((.otherwise, prev :: earlier) :: place) ctx₀.current ∈ ctx₂.log :=
      (mem_log_condElse helse _ _).mpr hbranch.mem_log
    exact parseElse_reading key place _ _ _ more _ pend temp _ _ hkeys helse.wf hlt hc0 hmore
      (by rw [hwhole.cur_key hwf]; exact hkey) hkey' hcmem
      (by rw [hwhole.current]; exact hwhole.keeps.log _ hplace)
      (fun a ha => hmem a (List.mem_append_right _ ha))
      ⟨hplaced.condElse helse hbranch.mem_log hbstands, hkeyed, hread.around.ran hwf hwhole⟩

end

end Text

/-! ## Settings in place -/

/-- When no branch is open, the links of a block are those of its place. -/
theorem Placed.earlier (h : Placed ∅ ctx) :
    ∀ (es : List BranchCond) (o : BranchCond) (dc : ℕ),
      .stands ((o, es) :: place) dc ∈ ctx.log → Earlier ctx (ctx.heap dc).prev es
  | [], o, dc, hdc => by
    rw [h.first o place dc hdc]
    exact .none
  | e :: es, o, dc, hdc => by
    obtain ⟨q, hq, hmem⟩ := h.linked o e es place dc hdc (Set.notMem_empty dc)
    rw [hq, ← h.own e es place q hmem]
    exact .some (h.earlier es e q hmem)

theorem Placed.settingsInPlace (h : Placed ∅ ctx) : SettingsInPlace ctx := by
  intro place
  induction place with
  | nil =>
    intro dc hdc
    obtain ⟨hparent, hprev, hcond⟩ := h.global dc hdc
    exact .global hparent hprev hcond
  | cons level place ih =>
    obtain ⟨o, es⟩ := level
    intro dc hdc
    obtain ⟨p, hparent, hp⟩ := h.parent o es place dc hdc
    rw [← h.own o es place dc hdc]
    exact .inside hparent (h.earlier es o dc hdc) (ih p hp)

theorem reading_configInit (keys : List (Bytes × Place)) (vars : DataArray V) :
    InPlace keys ∅ ∅ (configInit vars) := by
  have hmem : ∀ place a, .stands place a ∈ (configInit vars).log → place = [] ∧ a = 0 := by
    intro place a ha
    rcases List.mem_cons.mp ha with ha | ha
    · injection ha with hp ha
      exact ⟨hp, ha⟩
    · exact absurd ha List.not_mem_nil
  have hnil : ∀ o es place a, .stands ((o, es) :: place) a ∉ (configInit vars).log :=
    fun o es place a ha => absurd (hmem _ _ ha).1 (List.cons_ne_nil _ _)
  refine ⟨⟨fun place a ha => ?_, fun place place' a ha ha' => ?_, List.mem_cons_self, fun a ha => ?_,
    fun o es place a ha => absurd ha (hnil o es place a),
    fun o es place a ha => absurd ha (hnil o es place a),
    fun o place a ha => absurd ha (hnil o [] place a),
    fun o e es place a ha _ => absurd ha (hnil o _ place a)⟩, fun a ha h0 => ?_,
    fun a ha => absurd ha (Set.notMem_empty a)⟩
  · rw [(hmem place a ha).2]
    exact Nat.one_pos
  · rw [(hmem place a ha).1, (hmem place' a ha').1]
  · rw [(hmem [] a ha).2]
    simp [configInit, dataConfigInit]
  · exact absurd (Nat.lt_one_iff.mp ha) h0

/-- Settings are in place in the blocks of an accepted text exactly when no key of the text belongs
to two places. -/
theorem configParse_settingsInPlace_iff [Inhabited V] (lib : ParserLib) (vars : DataArray V)
    (text : ConfigText V) (ctx : ConfigCtx V) (h : configParse lib vars text = some ctx) :
    SettingsInPlace ctx ↔ PlacesByKey lib text := by
  obtain ⟨hrun, -⟩ := Option.filter_eq_some_iff.mp h
  have hwf := wf_configInit vars
  have hran := parseMetalines_ran lib [] text _ _ hwf hrun
  have hkey : CaseEq (str "global") (configInit vars).cur.key := by
    rw [show (configInit vars).cur.key = str "global" from hwf.root]
    exact .refl _
  constructor
  · intro hplace
    have hlater : Later ctx ctx := by
      refine ⟨fun _ _ => rfl, fun _ he => he, fun o es place dc hdc => ?_⟩
      cases hplace _ _ hdc
      rfl
    have hkept := parseMetalines_keptUnder lib (str "global") [] text _ _ hwf hrun hkey hlater
    intro a ha b hb hab
    obtain ⟨x, hx, hxs, hxkey⟩ := hkept a ha
    obtain ⟨y, hy, hys, hykey⟩ := hkept b hb
    -- the two keys have the same block, which stands at one place
    obtain rfl := hran.keeps.wf.eq_of_caseEq hx hy ((hxkey.symm.trans hab).trans hykey)
    exact (hplace _ _ hxs).unique (hplace _ _ hys)
  · intro hkeys
    have hread := parseMetalines_reading lib (str "global") [] text ∅ ∅ _ _ hkeys hwf hrun hkey
      List.mem_cons_self (fun _ ha => ha) (reading_configInit _ vars)
    exact hread.placed.settingsInPlace

/-- Address functions that know no address, and a `pcre_compile` that takes everything. -/
def plainLib : ParserLib := ⟨AddrLib.noAddress, fun _ => true⟩

/-- Two branches with different conditions. -/
def branchesText : ConfigText ℕ :=
  .condlines ⟨str "HTTP", str "url", .eq, str "/a"⟩ (.varline .assign (str "x.y") 1 .nil)
    (.condElse (.varline .assign (str "x.y") 2 .nil) .done) .nil

theorem configParse_branchesText : ∃ ctx, configParse plainLib arrayInit branchesText = some ctx ∧
    (SettingsInPlace ctx ↔ PlacesByKey plainLib branchesText) := by
  have hsome : (configParse plainLib arrayInit branchesText).isSome := by decide +kernel
  obtain ⟨ctx, hctx⟩ := Option.isSome_iff_exists.mp hsome
  exact ⟨ctx, hctx, configParse_settingsInPlace_iff plainLib arrayInit branchesText ctx hctx⟩

/-- Two conditions that differ in letter case only. -/
def caseText : ConfigText ℕ :=
  .condlines ⟨str "HTTP", str "url", .regexMatch, str "/a"⟩ .nil .done
    (.condlines ⟨str "HTTP", str "url", .regexMatch, str "/A"⟩
      (.varline .assign (str "x.y") 3 .nil) .done .nil)

/-- The setting under the second condition is kept in the block of the first one. -/
theorem configParse_caseText : ¬ ∀ (vars : DataArray ℕ) (text : ConfigText ℕ) (ctx : ConfigCtx ℕ),
    configParse plainLib vars text = some ctx → SettingsInPlace ctx := by
  intro hall
  have hlog : (configParse plainLib arrayInit caseText).map ConfigCtx.log = some
      [.stands [(.cond ⟨.httpUrl, str "url", .regexMatch, str "/A"⟩, [])] 1,
        .stands [(.cond ⟨.httpUrl, str "url", .regexMatch, str "/A"⟩, [])] 1,
        .stands [(.cond ⟨.httpUrl, str "url", .regexMatch, str "/a"⟩, [])] 1,
        .stands [] 0] := by decide +kernel
  obtain ⟨ctx, hctx, hlog⟩ := Option.map_eq_some_iff.mp hlog
  have hplace := hall arrayInit caseText ctx hctx
  have hsame := (hplace _ 1 (by rw [hlog]; exact List.mem_cons_self)).unique
    (hplace [(.cond ⟨.httpUrl, str "url", .regexMatch, str "/a"⟩, [])] 1 (by rw [hlog]; simp))
  revert hsame
  decide

end Lighttpd
