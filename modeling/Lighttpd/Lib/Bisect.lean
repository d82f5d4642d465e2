import Mathlib.Data.List.Pairwise
import Mathlib.Data.List.TakeDrop
import Mathlib.Tactic.Linarith

/-!
# Binary search in an index

`cmp` compares what is searched with an element: positive on the elements before its place,
zero on the element itself and negative on those behind. `Ordered` says that a list has its
elements in this order. `bisect` then finds the element, or the place where it belongs
(`bisect_spec`).
-/

namespace Bisect

variable {α : Type*} {cmp : α → ℤ} {s : List α}

/-- An element that is not behind the place has only elements before the place in front of it. -/
def Ordered (cmp : α → ℤ) (s : List α) : Prop := s.Pairwise fun x y => 0 ≤ cmp y → 0 < cmp x

/-- The place `p` in a list that does not have the element. -/
structure Place (cmp : α → ℤ) (s : List α) (p : ℕ) : Prop where
  le : p ≤ s.length
  before : ∀ x ∈ s.take p, 0 < cmp x
  behind : ∀ x ∈ s.drop p, cmp x < 0

/-- The binary search between `lower` and `upper`: whether the element was found, and where it
is or belongs. Every turn makes the range smaller, so that its length bounds them. -/
def bisect (cmp : α → ℤ) (s : List α) : ℕ → ℕ → ℕ → Bool × ℕ
  | 0, lower, _ => (false, lower)
  | turns + 1, lower, upper =>
    if lower = upper then (false, lower)
    else
      let probe := (lower + upper) / 2
      match s[probe]? with
      | none => (false, lower)
      | some x =>
        if cmp x = 0 then (true, probe)
        else if cmp x < 0 then bisect cmp s turns lower probe
        else bisect cmp s turns (probe + 1) upper

theorem Ordered.behind {p : ℕ} {x : α} (h : Ordered cmp s) (hp : s[p]? = some x)
    (hx : cmp x < 0) : ∀ y ∈ s.drop p, cmp y < 0 := by
  obtain ⟨hlt, rfl⟩ := List.getElem?_eq_some_iff.mp hp
  have hd : (s.drop p).Pairwise fun x y => 0 ≤ cmp y → 0 < cmp x := h.sublist (List.drop_sublist p s)
  rw [List.drop_eq_getElem_cons hlt, List.pairwise_cons] at hd
  rw [List.drop_eq_getElem_cons hlt]
  intro y hy
  rcases List.mem_cons.mp hy with rfl | hy
  · exact hx
  · by_contra hneg
    have := hd.1 y hy (by omega)
    omega

theorem Ordered.before {p : ℕ} {x : α} (h : Ordered cmp s) (hp : s[p]? = some x)
    (hx : 0 < cmp x) : ∀ y ∈ s.take (p + 1), 0 < cmp y := by
  obtain ⟨hlt, rfl⟩ := List.getElem?_eq_some_iff.mp hp
  have ht : (s.take (p + 1)).Pairwise fun x y => 0 ≤ cmp y → 0 < cmp x :=
    h.sublist (List.take_sublist _ s)
  rw [List.take_succ_eq_append_getElem hlt, List.pairwise_append] at ht
  rw [List.take_succ_eq_append_getElem hlt]
  intro y hy
  rcases List.mem_append.mp hy with hy | hy
  · exact ht.2.2 y hy _ (List.mem_singleton_self _) hx.le
  · rw [List.mem_singleton.mp hy]
    exact hx

theorem bisect_spec (h : Ordered cmp s) :
    ∀ (turns lower upper : ℕ), lower ≤ upper → upper ≤ s.length → upper - lower ≤ turns →
      (∀ x ∈ s.take lower, 0 < cmp x) → (∀ x ∈ s.drop upper, cmp x < 0) →
      (∃ p x, bisect cmp s turns lower upper = (true, p) ∧ s[p]? = some x ∧ cmp x = 0) ∨
        ∃ p, bisect cmp s turns lower upper = (false, p) ∧ Place cmp s p
  | 0, lower, upper, hle, hlen, hturns, hbefore, hbehind => by
    obtain rfl : lower = upper := by omega
    exact .inr ⟨lower, rfl, hlen, hbefore, hbehind⟩
  | turns + 1, lower, upper, hle, hlen, hturns, hbefore, hbehind => by
    rw [bisect]
    split_ifs with heq
    · subst heq
      exact .inr ⟨lower, rfl, hlen, hbefore, hbehind⟩
    · have hprobe : (lower + upper) / 2 < s.length := by omega
      have hx : s[(lower + upper) / 2]? = some s[(lower + upper) / 2] :=
        List.getElem?_eq_getElem hprobe
      simp only [hx]
      split_ifs with hzero hneg
      · exact .inl ⟨_, _, rfl, hx, hzero⟩
      · exact bisect_spec h turns lower _ (by omega) (by omega) (by omega) hbefore
          (h.behind hx hneg)
      · exact bisect_spec h turns _ upper (by omega) hlen (by omega)
          (h.before hx (by omega)) hbehind

theorem Place.ne_zero {p : ℕ} (h : Place cmp s p) : ∀ x ∈ s, cmp x ≠ 0 := by
  intro x hx
  rw [← List.take_append_drop p s] at hx
  rcases List.mem_append.mp hx with hx | hx
  · have := h.before x hx
    omega
  · have := h.behind x hx
    omega

end Bisect
