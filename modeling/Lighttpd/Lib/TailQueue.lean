import Mathlib.Data.List.Nodup
import Mathlib.Data.List.Perm.Subperm
import Mathlib.Logic.Function.Basic

/-!
# Singly linked queues

The cells of a memory are linked by a map `next`. `Chain next p l` says that the pointer `p` leads
to the cells `l`, and `Queue next first last l` that `last` points to the final one of them too. A
chain has no cell twice (`Chain.nodup`). The first cell is taken off (`Queue.pop`), and the cell
behind another one is taken out (`Queue.unlink`), by writes to one pointer and to `last`.
-/

namespace TailQueue

open Function

variable {α : Type*} {next next' : α → Option α} {first last p : Option α} {a b : α}
  {l s t : List α}

/-- The cells `l` reached from `p`. -/
def Chain (next : α → Option α) : Option α → List α → Prop
  | p, [] => p = none
  | p, a :: l => p = some a ∧ Chain next (next a) l

/-- The cells `l` from `first` on, with `last` at their end. -/
structure Queue (next : α → Option α) (first last : Option α) (l : List α) : Prop where
  chain : Chain next first l
  last_eq : last = l.getLast?

theorem Chain.head? : ∀ {p : Option α} {l : List α}, Chain next p l → p = l.head?
  | _, [], h => h
  | _, _ :: _, h => h.1

/-- A chain does not change with cells that it does not have. -/
theorem Chain.congr : ∀ {p : Option α} {l : List α}, Chain next p l →
    (∀ b ∈ l, next' b = next b) → Chain next' p l
  | _, [], h, _ => h
  | _, a :: l, ⟨hp, h⟩, hn => by
    refine ⟨hp, ?_⟩
    rw [hn a List.mem_cons_self]
    exact h.congr fun b hb => hn b (List.mem_cons_of_mem a hb)

theorem Chain.unique : ∀ {p : Option α} {l s : List α}, Chain next p l → Chain next p s → l = s
  | _, [], [], _, _ => rfl
  | _, [], _ :: _, h, h' => absurd (h.symm.trans h'.1) (Option.some_ne_none _).symm
  | _, _ :: _, [], h, h' => absurd (h'.symm.trans h.1) (Option.some_ne_none _).symm
  | _, a :: l, b :: s, ⟨hp, h⟩, ⟨hp', h'⟩ => by
    obtain rfl : a = b := Option.some.inj (hp.symm.trans hp')
    rw [h.unique h']

theorem Chain.drop : ∀ {s : List α} {p : Option α}, Chain next p (s ++ a :: t) →
    Chain next (next a) t
  | [], _, h => h.2
  | _ :: s, _, h => Chain.drop (s := s) h.2

theorem Chain.nodup : ∀ {l : List α} {p : Option α}, Chain next p l → l.Nodup
  | [], _, _ => List.nodup_nil
  | a :: l, p, h => by
    refine List.nodup_cons.mpr ⟨fun ha => ?_, h.2.nodup⟩
    -- the chain behind `a` would be the chain from `a`, which is longer
    obtain ⟨s, t, rfl⟩ := List.append_of_mem ha
    have hlen := congrArg List.length (h.2.unique h.2.drop)
    rw [List.length_append, List.length_cons] at hlen
    omega

variable [DecidableEq α]

theorem Chain.update (h : Chain next p l) (hb : b ∉ l) (q : Option α) :
    Chain (update next b q) p l :=
  h.congr fun c hc => update_of_ne (fun hcb : c = b => hb (hcb ▸ hc)) ..

/-- The cell behind `a` is taken out. -/
theorem Chain.unlink : ∀ {s : List α} {p : Option α}, Chain next p (s ++ a :: b :: t) →
    Chain (Function.update next a (next b)) p (s ++ a :: t)
  | [], _, h => by
    refine ⟨h.1, ?_⟩
    rw [update_self]
    exact h.2.2.update (fun ha => (List.nodup_cons.mp h.nodup).1 (List.mem_cons_of_mem b ha)) _
  | c :: s, _, h => by
    refine ⟨h.1, ?_⟩
    have hca : c ≠ a := by
      rintro rfl
      exact (List.nodup_cons.mp h.nodup).1 (by simp)
    rw [update_of_ne hca]
    exact Chain.unlink h.2

theorem Queue.update (h : Queue next first last l) (hb : b ∉ l) (q : Option α) :
    Queue (Function.update next b q) first last l :=
  ⟨h.chain.update hb q, h.last_eq⟩

theorem Queue.pop (h : Queue next first last (a :: l)) :
    Queue next (next a) (if last = some a then none else last) l := by
  refine ⟨h.chain.2, ?_⟩
  have hlast := h.last_eq
  cases l with
  | nil => simp [hlast]
  | cons b l =>
    rw [List.getLast?_cons_cons] at hlast
    have hne : last ≠ some a := by
      intro ha
      have hmem := List.mem_of_getLast? (hlast.symm.trans ha)
      exact (List.nodup_cons.mp h.chain.nodup).1 hmem
    rw [if_neg hne, hlast]

/-- The cell behind `a` is taken out, and `last` goes back to `a` if it was at that cell. -/
theorem Queue.unlink (h : Queue next first last (s ++ a :: b :: t)) :
    Queue (Function.update next a (next b)) first (if last = some b then some a else last)
      (s ++ a :: t) := by
  refine ⟨h.chain.unlink, ?_⟩
  have hlast := h.last_eq
  cases t with
  | nil => simp [hlast]
  | cons c t =>
    have hsplit : s ++ a :: b :: c :: t = (s ++ [a, b]) ++ c :: t := by simp
    have hsplit' : s ++ a :: c :: t = (s ++ [a]) ++ c :: t := by simp
    rw [hsplit, List.getLast?_append_cons] at hlast
    have hne : last ≠ some b := by
      intro hb
      have hmem := List.mem_of_getLast? (hlast.symm.trans hb)
      have hnodup := h.chain.nodup
      rw [hsplit] at hnodup
      exact (List.nodup_append.mp hnodup).2.2 b (by simp) b hmem rfl
    rw [if_neg hne, hlast, hsplit', List.getLast?_append_cons]

end TailQueue
