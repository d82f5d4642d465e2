import Mathlib.Data.List.Basic

/-!
# Runs of a partial step

A step takes an event and may be stuck. `run` is the state behind a list of events;
`Throughout p` says that `p` holds at every event of the run, in the state in front of it. An
invariant that every step with `p` keeps holds in all states that a run with `Throughout p` reaches.
-/

namespace PartialRuns

variable {σ ε : Type*} (step : σ → ε → Option σ)

/-- The state behind a list of events. -/
def run : List ε → σ → Option σ
  | [], s => some s
  | e :: es, s => (step s e).bind (run es)

/-- `p` holds at every event of the run. -/
def Throughout (p : σ → ε → Prop) : List ε → σ → Prop
  | [], _ => True
  | e :: es, s => p s e ∧ ∀ s', step s e = some s' → Throughout p es s'

variable {step}

@[simp] theorem run_nil (s : σ) : run step [] s = some s := rfl

variable {es : List ε} {s s' : σ} {p : σ → ε → Prop}

theorem run_cons {e : ε} :
    run step (e :: es) s = some s' ↔ ∃ s₁, step s e = some s₁ ∧ run step es s₁ = some s' := by
  rw [run, Option.bind_eq_some_iff]

theorem run_append {es' : List ε} :
    run step (es ++ es') s = some s' ↔
      ∃ s₁, run step es s = some s₁ ∧ run step es' s₁ = some s' := by
  induction es generalizing s with
  | nil => simp
  | cons e es ih =>
    rw [List.cons_append, run_cons]
    constructor
    · rintro ⟨s₁, h₁, h⟩
      obtain ⟨s₂, h₂, h⟩ := ih.mp h
      exact ⟨s₂, run_cons.mpr ⟨s₁, h₁, h₂⟩, h⟩
    · rintro ⟨s₂, h₂, h⟩
      obtain ⟨s₁, h₁, h₂⟩ := run_cons.mp h₂
      exact ⟨s₁, h₁, ih.mpr ⟨s₂, h₂, h⟩⟩

/-- `Throughout` in terms of the states that the run reaches. -/
theorem throughout_iff :
    Throughout step p es s ↔
      ∀ pre e post, es = pre ++ e :: post → ∀ s', run step pre s = some s' → p s' e := by
  induction es generalizing s with
  | nil => simp [Throughout]
  | cons e es ih =>
    rw [Throughout]
    constructor
    · rintro ⟨hp, h⟩ pre e' post hsplit s' hrun
      cases pre with
      | nil =>
        obtain ⟨rfl, -⟩ := List.cons.inj hsplit
        obtain rfl := Option.some.inj hrun
        exact hp
      | cons e₁ pre =>
        obtain ⟨rfl, hes⟩ := List.cons.inj hsplit
        obtain ⟨s₁, h₁, hrun⟩ := run_cons.mp hrun
        exact ih.mp (h s₁ h₁) pre e' post hes s' hrun
    · intro h
      refine ⟨h [] e es rfl s rfl, fun s₁ h₁ => ih.mpr fun pre e' post hsplit s' hrun => ?_⟩
      exact h (e :: pre) e' post (by rw [hsplit]; rfl) s' (run_cons.mpr ⟨s₁, h₁, hrun⟩)

theorem throughout_congr {q : σ → ε → Prop} (h : ∀ s e, p s e ↔ q s e) (es : List ε) (s : σ) :
    Throughout step p es s ↔ Throughout step q es s := by
  rw [throughout_iff, throughout_iff]
  simp only [h]

theorem Throughout.left {es' : List ε} (h : Throughout step p (es ++ es') s) :
    Throughout step p es s := by
  rw [throughout_iff] at h ⊢
  rintro pre e post rfl s' hrun
  exact h pre e (post ++ es') (by simp) s' hrun

/-- An invariant that every step with `p` keeps. -/
theorem Throughout.invariant {p : σ → ε → Prop} {inv : σ → Prop}
    (hstep : ∀ s e s', inv s → p s e → step s e = some s' → inv s') {es : List ε} {s s' : σ}
    (h : Throughout step p es s) (hs : inv s) (hrun : run step es s = some s') : inv s' := by
  induction es generalizing s with
  | nil =>
    obtain rfl := Option.some.inj hrun
    exact hs
  | cons e es ih =>
    obtain ⟨s₁, h₁, hrun⟩ := run_cons.mp hrun
    exact ih (h.2 s₁ h₁) (hstep s e s₁ hs h.1 h₁) hrun

end PartialRuns
