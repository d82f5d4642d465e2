import Lighttpd.ConfigCache

/-!
# Which blocks are active

A block is `Active` when its own comparison is true, the block it is nested in is active,
and every earlier branch of its chain is false. `config_check_cond_nocache` evaluates a
block in a parent that failed as if the parent were true: the branch sets `result` and
falls through, where the comment above it says that the block cannot be true either. So
a block is checked as its chain alone says (`chainValue`), once all blocks around it are
decided (`condValue_eq_true_iff`).
-/

namespace Lighttpd

open CString Relation

variable {n : ℕ}

section

variable (env : CondEnv) (a : ConAttrs) (t : ConfigContext n)

/-- `q` is an earlier branch of the chain of `dc`. -/
def EarlierBranch (q dc : Fin n) : Prop := TransGen (fun q dc => (t.data dc).prev = some q) q dc

/-- `p` is a block around `dc`. -/
def Encloses (p dc : Fin n) : Prop := TransGen (fun p dc => t.enclosing dc = some p) p dc

/-- The guards of a block allow it and its own comparison is true. -/
inductive Active : Fin n → Prop
  | intro (dc : Fin n) (hown : ownValue env a t dc = .true)
    (hparent : ∀ p, t.enclosing dc = some p → Active p)
    (hearlier : ∀ q, EarlierBranch t q dc → ownValue env a t q = .false) : Active dc

/-- The value of a block from the chain it is in, whatever is around the chain. -/
def chainValue (dc : Fin n) : CondResult :=
  match h : (t.data dc).prev with
  | none => ownValue env a t dc
  | some q =>
    have : q.val < dc.val := t.prev_lt h
    afterPrev (chainValue q) (ownValue env a t dc)
termination_by dc.val

end

section

variable {env : CondEnv} {a : ConAttrs} {t : ConfigContext n} {dc p q : Fin n}

theorem chainValue_of_none (h : (t.data dc).prev = none) :
    chainValue env a t dc = ownValue env a t dc := by
  rw [chainValue]
  split
  · rfl
  · next q h' => simp [h] at h'

theorem chainValue_of_some (h : (t.data dc).prev = some q) :
    chainValue env a t dc = afterPrev (chainValue env a t q) (ownValue env a t dc) := by
  rw [chainValue]
  split
  · next h' => simp [h] at h'
  · next q' h' =>
    rw [h, Option.some.injEq] at h'
    rw [h']

theorem not_earlierBranch (h : (t.data dc).prev = none) : ¬ EarlierBranch t q dc := fun hq => by
  obtain ⟨q', -, hq'⟩ := TransGen.tail'_iff.mp hq
  simp [h] at hq'

theorem earlierBranch_iff {q' : Fin n} (h : (t.data dc).prev = some q) :
    EarlierBranch t q' dc ↔ q' = q ∨ EarlierBranch t q' q := by
  rw [EarlierBranch, TransGen.tail'_iff]
  refine ⟨?_, ?_⟩
  · intro ⟨q'', hq', hq''⟩
    rw [h, Option.some.injEq] at hq''
    subst hq''
    exact reflTransGen_iff_eq_or_transGen.mp hq' |>.imp Eq.symm id
  · intro hq'
    refine ⟨q, ?_, h⟩
    exact reflTransGen_iff_eq_or_transGen.mpr (hq'.imp Eq.symm id)

theorem not_encloses (h : t.enclosing dc = none) : ¬ Encloses t p dc := fun hp => by
  obtain ⟨p', -, hp'⟩ := TransGen.tail'_iff.mp hp
  simp [h] at hp'

theorem encloses_iff {p' : Fin n} (h : t.enclosing dc = some p) :
    Encloses t p' dc ↔ p' = p ∨ Encloses t p' p := by
  rw [Encloses, TransGen.tail'_iff]
  refine ⟨?_, ?_⟩
  · intro ⟨p'', hp', hp''⟩
    rw [h, Option.some.injEq] at hp''
    subst hp''
    exact reflTransGen_iff_eq_or_transGen.mp hp' |>.imp Eq.symm id
  · intro hp'
    refine ⟨p, ?_, h⟩
    exact reflTransGen_iff_eq_or_transGen.mpr (hp'.imp Eq.symm id)

/-- A chain comes out true or false as the own comparison does, behind false branches. -/
theorem chainValue_eq_iff {r : CondResult} (hr : r = .true ∨ r = .false) (dc : Fin n) :
    chainValue env a t dc = r ↔
      ownValue env a t dc = r ∧ ∀ q, EarlierBranch t q dc → ownValue env a t q = .false := by
  cases hprev : (t.data dc).prev with
  | none =>
    rw [chainValue_of_none hprev]
    exact ⟨fun h => ⟨h, fun q hq => absurd hq (not_earlierBranch hprev)⟩, fun h => h.1⟩
  | some q =>
    have : q.val < dc.val := t.prev_lt hprev
    have ih := chainValue_eq_iff (r := .false) (.inr rfl) q
    rw [chainValue_of_some hprev]
    simp only [earlierBranch_iff hprev, forall_eq_or_imp]
    rw [← ih]
    cases hq : chainValue env a t q with
    | false => simp [afterPrev]
    | _ =>
      simp only [afterPrev, reduceCtorEq, and_false, iff_false]
      rcases hr with rfl | rfl <;> exact CondResult.noConfusion
termination_by dc.val

theorem active_iff (dc : Fin n) :
    Active env a t dc ↔
      chainValue env a t dc = .true ∧ ∀ p, Encloses t p dc → chainValue env a t p = .true := by
  have hunfold : Active env a t dc ↔ chainValue env a t dc = .true ∧
      ∀ p, t.enclosing dc = some p → Active env a t p := by
    rw [chainValue_eq_iff (.inl rfl)]
    refine ⟨fun ⟨_, hown, hparent, hearlier⟩ => ⟨⟨hown, hearlier⟩, hparent⟩, ?_⟩
    exact fun ⟨⟨hown, hearlier⟩, hparent⟩ => ⟨dc, hown, hparent, hearlier⟩
  rw [hunfold]
  refine and_congr_right fun _ => ?_
  cases henc : t.enclosing dc with
  | none => simp [not_encloses henc]
  | some p =>
    have : p.val < dc.val := ConfigContext.enclosing_lt henc
    simp only [Option.some.injEq, forall_eq', encloses_iff henc, forall_eq_or_imp]
    exact active_iff p
termination_by dc.val

end

/-! ## What the code evaluates -/

section

variable {env : CondEnv} {a : ConAttrs} {t : ConfigTree n}

theorem enclosing_prev {dc q : Fin n} (h : (t.data dc).prev = some q) :
    t.enclosing q = t.enclosing dc := by
  rw [ConfigContext.enclosing, ConfigContext.enclosing, t.prev_parent h]

theorem encloses_prev {dc p q : Fin n} (h : (t.data dc).prev = some q) :
    Encloses t.toConfigContext p q ↔ Encloses t.toConfigContext p dc := by
  simp only [Encloses, TransGen.tail'_iff, enclosing_prev h]

/-- With the blocks around it decided, a block has the value of its chain. -/
theorem condValue_eq_chainValue (dc : Fin n)
    (h : ∀ p, Encloses t.toConfigContext p dc → chainValue env a t.toConfigContext p ≠ .unset) :
    condValue env a t.toConfigContext dc = chainValue env a t.toConfigContext dc := by
  have henc : ∀ p, t.enclosing dc = some p → condValue env a t.toConfigContext p ≠ .unset := by
    intro p hp
    have : p.val < dc.val := ConfigContext.enclosing_lt hp
    rw [condValue_eq_chainValue p fun p' hp' => h p' ((encloses_iff hp).mpr (.inr hp'))]
    exact h p ((encloses_iff hp).mpr (.inl rfl))
  rw [condValue_of_enclosing_ne henc]
  cases hprev : (t.data dc).prev with
  | none => exact (chainValue_of_none hprev).symm
  | some q =>
    have : q.val < dc.val := t.prev_lt hprev
    rw [chainValue_of_some hprev]
    simp only
    rw [condValue_eq_chainValue q fun p hp => h p ((encloses_prev hprev).mp hp)]
termination_by dc.val

/-- A block around it that is undecided leaves a block undecided. -/
theorem condValue_of_encloses_unset (dc : Fin n)
    (h : ∃ p, Encloses t.toConfigContext p dc ∧ chainValue env a t.toConfigContext p = .unset) :
    condValue env a t.toConfigContext dc = .unset := by
  cases henc : t.enclosing dc with
  | none =>
    obtain ⟨p, hp, -⟩ := h
    exact absurd hp (not_encloses henc)
  | some p =>
    have : p.val < dc.val := ConfigContext.enclosing_lt henc
    refine condValue_of_enclosing_unset henc ?_
    by_cases habove : ∃ p', Encloses t.toConfigContext p' p ∧
        chainValue env a t.toConfigContext p' = .unset
    · exact condValue_of_encloses_unset p habove
    · obtain ⟨p', hp', hv⟩ := h
      rcases (encloses_iff henc).mp hp' with rfl | hp'
      · rwa [condValue_eq_chainValue p' fun q hq hqv => habove ⟨q, hq, hqv⟩]
      · exact absurd ⟨p', hp', hv⟩ habove
termination_by dc.val

theorem condValue_eq_true_iff (dc : Fin n) :
    condValue env a t.toConfigContext dc = .true ↔
      chainValue env a t.toConfigContext dc = .true ∧
        ∀ p, Encloses t.toConfigContext p dc → chainValue env a t.toConfigContext p ≠ .unset := by
  by_cases h : ∀ p, Encloses t.toConfigContext p dc →
      chainValue env a t.toConfigContext p ≠ .unset
  · rw [condValue_eq_chainValue dc h]
    exact ⟨fun hdc => ⟨hdc, h⟩, And.left⟩
  · push Not at h
    rw [condValue_of_encloses_unset dc h]
    obtain ⟨p, hp, hv⟩ := h
    exact ⟨fun hdc => absurd hdc (by simp), fun hdc => absurd hv (hdc.2 p hp)⟩

end

theorem sameAt_requestAttrs_cons (K : CompKey) (host path : Bytes) (valid : List CompKey) :
    ∀ K' ≠ K, ConAttrs.SameAt K' (requestAttrs host path valid)
      (requestAttrs host path (K :: valid)) := by
  intro K' hK
  refine ⟨by simp [requestAttrs, hK], ?_⟩
  cases K' <;> simp [requestAttrs]

/-- A request for `/admin`, before any check. -/
theorem reachable_admin (host : Bytes) :
    Reachable plainEnv nestedTree (requestAttrs host (str "/admin") [.httpUrl, .httpHost])
      (configCondCacheReset (emptyState 3)) ∅ true := by
  have h₀ : Reachable plainEnv nestedTree (requestAttrs host (str "/admin") [])
      (configCondCacheReset (emptyState 3)) ∅ true :=
    .start (requestAttrs host (str "/admin") []) (emptyState 3)
  have h₁ := h₀.change .httpHost _ (sameAt_requestAttrs_cons .httpHost _ _ _)
  exact h₁.change .httpUrl _ (sameAt_requestAttrs_cons .httpUrl _ _ _)

end Lighttpd
