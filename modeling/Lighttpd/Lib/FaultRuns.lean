import Mathlib.Init

/-!
# Runs that can fault

`Ends x p q` says how a run `x` ends: with a result that satisfies `p`, or with a fault that
satisfies `q`. `Gives x p` leaves no fault. A bind is taken apart by `Ends.bind` and `Gives.bind`.
-/

namespace FaultRuns

universe u

variable {ε : Type*} {α β : Type u}

/-- `x` gives a result with `p` or a fault with `q`. -/
def Ends (x : Except ε α) (p : α → Prop) (q : ε → Prop) : Prop :=
  match x with
  | .ok a => p a
  | .error e => q e

/-- `x` gives a result with `p`. -/
def Gives (x : Except ε α) (p : α → Prop) : Prop := Ends x p fun _ => False

theorem ok_bind (a : α) (f : α → Except ε β) : (Except.ok a >>= f) = f a := rfl

variable {p : α → Prop} {q : ε → Prop} {x : Except ε α} {f : α → Except ε β} {p' : β → Prop}

theorem ends_pure {a : α} (h : p a) : Ends (pure a : Except ε α) p q := h

theorem gives_pure {a : α} (h : p a) : Gives (pure a : Except ε α) p := h

theorem gives_iff : Gives x p ↔ ∃ a, x = .ok a ∧ p a := by
  cases x with
  | error e =>
    refine iff_of_false id ?_
    rintro ⟨a, h, -⟩
    cases h
  | ok a =>
    refine ⟨fun h => ⟨a, rfl, h⟩, ?_⟩
    rintro ⟨a', h, ha⟩
    cases h
    exact ha

theorem Ends.mono {p' : α → Prop} {q' : ε → Prop} (h : Ends x p q) (hp : ∀ a, p a → p' a)
    (hq : ∀ e, q e → q' e) : Ends x p' q' := by
  cases x with
  | error e => exact hq e h
  | ok a => exact hp a h

theorem Gives.mono {p' : α → Prop} (h : Gives x p) (hp : ∀ a, p a → p' a) : Gives x p' :=
  Ends.mono h hp fun _ => id

theorem Ends.bind (hx : Ends x p q) (hf : ∀ a, p a → Ends (f a) p' q) : Ends (x >>= f) p' q := by
  cases x with
  | error e => exact hx
  | ok a => exact hf a hx

/-- A step without faults in front of a run that may have some. -/
theorem Gives.then (hx : Gives x p) (hf : ∀ a, p a → Ends (f a) p' q) : Ends (x >>= f) p' q :=
  Ends.bind (Ends.mono hx (fun _ => id) fun _ => False.elim) hf

theorem Gives.bind (hx : Gives x p) (hf : ∀ a, p a → Gives (f a) p') : Gives (x >>= f) p' :=
  Ends.bind hx hf

end FaultRuns
