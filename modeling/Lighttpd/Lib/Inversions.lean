import Mathlib.Data.List.Basic
import Mathlib.Data.List.Chain
import Mathlib.Data.List.Perm.Basic
import Mathlib.Tactic.Ring

/-!
# Inversions of a list

The pairs of positions whose elements stand in the wrong order. Exchanging two neighbours in the
wrong order takes at least one of them away (`inversions_swap`), so a sort that only makes such
exchanges makes at most as many as the list has inversions; a list none of whose neighbours are
in the wrong order is sorted (`pairwise_of_neighbours`).
-/

namespace Inversions

variable {α : Type*} (gt : α → α → Bool)

/-- The pairs of positions whose first element is the greater one. -/
def inversions : List α → ℕ
  | [] => 0
  | a :: l => l.countP (gt a) + inversions l

variable {gt}

theorem inversions_swap {a b : α} (hab : gt a b = true) (hba : gt b a = false) :
    ∀ pre post : List α,
      inversions gt (pre ++ b :: a :: post) < inversions gt (pre ++ a :: b :: post)
  | [], post => by
    simp only [List.nil_append, inversions, List.countP_cons, hab, hba]
    simp
    omega
  | c :: pre, post => by
    have hcount : (pre ++ b :: a :: post).countP (gt c) = (pre ++ a :: b :: post).countP (gt c) :=
      ((List.Perm.swap a b post).append_left pre).countP_eq _
    have ih := inversions_swap hab hba pre post
    simp only [List.cons_append, inversions, hcount]
    omega

theorem inversions_le : ∀ l : List α, inversions gt l ≤ l.length * l.length
  | [] => le_rfl
  | a :: l => by
    have hcount : l.countP (gt a) ≤ l.length := List.countP_le_length
    have ih := inversions_le l
    have hsquare : (l.length + 1) * (l.length + 1) = l.length * l.length + 2 * l.length + 1 := by
      ring
    simp only [inversions, List.length_cons, hsquare]
    omega

theorem exchange_perm {l : List α} {i j : ℕ} {a b : α} (ha : l[i]? = some a)
    (hb : l[j]? = some b) : ((l.set i b).set j a).Perm l := by
  obtain ⟨hi, rfl⟩ := List.getElem?_eq_some_iff.mp ha
  obtain ⟨hj, rfl⟩ := List.getElem?_eq_some_iff.mp hb
  exact List.set_set_perm hi hj

/-- Exchanging the neighbours at `i`. -/
theorem exchange_neighbours {a b : α} :
    ∀ {l : List α} {i : ℕ}, l[i]? = some a → l[i + 1]? = some b →
      ∃ pre post, l = pre ++ a :: b :: post ∧
        (l.set i b).set (i + 1) a = pre ++ b :: a :: post
  | [], i, ha, _ => by simp at ha
  | c :: l, 0, ha, hb => by
    obtain rfl : c = a := by simpa using ha
    obtain ⟨l, rfl⟩ : ∃ l', l = b :: l' := by
      cases l with
      | nil => simp at hb
      | cons d l => exact ⟨l, by simpa using hb⟩
    exact ⟨[], l, rfl, rfl⟩
  | c :: l, i + 1, ha, hb => by
    obtain ⟨pre, post, hl, hset⟩ :=
      exchange_neighbours (l := l) (i := i) (by simpa using ha) (by simpa using hb)
    refine ⟨c :: pre, post, by rw [hl, List.cons_append], ?_⟩
    simpa using hset

theorem pairwise_of_neighbours {l : List α}
    (htrans : ∀ a b c, gt a b = false → gt b c = false → gt a c = false)
    (h : ∀ i a b, l[i]? = some a → l[i + 1]? = some b → gt a b = false) :
    l.Pairwise fun a b => gt a b = false := by
  have : IsTrans α fun a b => gt a b = false := ⟨htrans⟩
  rw [← List.isChain_iff_pairwise, List.isChain_iff_getElem]
  intro i hi
  exact h i _ _ (List.getElem?_eq_getElem _) (List.getElem?_eq_getElem _)

end Inversions
