import Mathlib.Data.List.AList
import Mathlib.Data.List.Induction
import Mathlib.Order.Lattice

/-!
# File trees

A tree of files and directories is a table of paths: the root is a directory, and what is in the
table lies in a directory (`rooted`). A file is written where no directory is, and what has
entries is not removed, so that the tree stays rooted.
-/

namespace FileTree

variable {N C : Type*} [DecidableEq N]

/-- A file with its content, or a directory. -/
inductive Node (C : Type*)
  | file (content : C)
  | dir
  deriving DecidableEq, Repr

instance (x : Option (Node C)) : Decidable (x = some .dir) :=
  match x with
  | none => isFalse (by simp)
  | some (.file _) => isFalse (by simp)
  | some .dir => isTrue rfl

/-- The nodes of a table of paths. -/
def getNode (nodes : AList fun _ : List N => Node C) (p : List N) : Option (Node C) :=
  if p = [] then some .dir else nodes.lookup p

/-- A table of paths in which every node lies in a directory. -/
structure Tree (N C : Type*) [DecidableEq N] where
  nodes : AList fun _ : List N => Node C
  rooted : ∀ p n, getNode nodes (p ++ [n]) ≠ none → getNode nodes p = some .dir

namespace Tree

/-- The tree of a root without entries. -/
def empty : Tree N C :=
  ⟨∅, fun p n h => absurd (by simp [getNode]) h⟩

/-- The node at a path. -/
def get (t : Tree N C) (p : List N) : Option (Node C) := getNode t.nodes p

/-- The names in a directory. -/
def entries (t : Tree N C) (p : List N) : List N :=
  t.nodes.keys.filterMap fun q => if q.dropLast = p then q.getLast? else none

/-- The length of the longest path. -/
def depth (t : Tree N C) : ℕ := (t.nodes.keys.map List.length).foldr max 0

@[simp] theorem get_nil (t : Tree N C) : t.get [] = some .dir := rfl

variable {p q : List N} {t : Tree N C}

theorem get_of_ne_nil (t : Tree N C) (h : p ≠ []) : t.get p = t.nodes.lookup p :=
  if_neg h

theorem get_parent {n : N} (h : t.get (p ++ [n]) ≠ none) : t.get p = some .dir :=
  t.rooted p n h

theorem get_append (h : t.get p ≠ some .dir) : ∀ {r : List N}, r ≠ [] → t.get (p ++ r) = none := by
  intro r
  induction r using List.reverseRecOn with
  | nil => exact fun hr => absurd rfl hr
  | append_singleton r n ih =>
    intro _
    by_contra hne
    rw [← List.append_assoc] at hne
    have hdir := get_parent hne
    rcases eq_or_ne r [] with rfl | hr
    · rw [List.append_nil] at hdir
      exact h hdir
    · rw [ih hr] at hdir
      cases hdir

theorem mem_entries {n : N} : n ∈ t.entries p ↔ t.get (p ++ [n]) ≠ none := by
  rw [get_of_ne_nil t (List.append_ne_nil_of_right_ne_nil p (List.cons_ne_nil n [])), ne_eq,
    AList.lookup_eq_none, not_not, AList.mem_keys, entries, List.mem_filterMap]
  constructor
  · rintro ⟨q, hq, hn⟩
    split_ifs at hn with hp
    obtain ⟨a, rfl⟩ := List.getLast?_eq_some_iff.mp hn
    rw [List.dropLast_concat] at hp
    exact hp ▸ hq
  · intro h
    exact ⟨p ++ [n], h, by simp⟩

theorem length_le_depth (h : t.get p ≠ none) : p.length ≤ t.depth := by
  have key : ∀ (l : List (List N)), p ∈ l → p.length ≤ (l.map List.length).foldr max 0 := by
    intro l
    induction l with
    | nil => exact fun h => absurd h List.not_mem_nil
    | cons q l ih =>
      intro hp
      rw [List.map_cons, List.foldr_cons]
      rcases List.mem_cons.mp hp with rfl | hp
      · exact le_max_left _ _
      · exact le_trans (ih hp) (le_max_right _ _)
  rcases eq_or_ne p [] with rfl | hp
  · exact Nat.zero_le _
  · rw [get_of_ne_nil t hp, ne_eq, AList.lookup_eq_none, not_not] at h
    exact key _ (AList.mem_keys.mp h)

/-- A node is put at a path, in place of a file or of nothing. -/
def set (t : Tree N C) (p : List N) (x : Node C) : Tree N C :=
  if h : p ≠ [] ∧ t.get p.dropLast = some .dir ∧ t.get p ≠ some .dir then
    ⟨t.nodes.insert p x, by
      intro q n hq
      have hqn : q ++ [n] ≠ [] := List.append_ne_nil_of_right_ne_nil q (List.cons_ne_nil n [])
      have hne : q ≠ p := by
        rintro rfl
        rw [getNode, if_neg hqn, AList.lookup_insert_ne (by simp), ← get_of_ne_nil t hqn] at hq
        exact h.2.2 (get_parent hq)
      have hold : t.get q = some .dir := by
        by_cases hp : q ++ [n] = p
        · rw [← hp, List.dropLast_concat] at h
          exact h.2.1
        · rw [getNode, if_neg hqn, AList.lookup_insert_ne hp, ← get_of_ne_nil t hqn] at hq
          exact get_parent hq
      rcases eq_or_ne q [] with rfl | hq'
      · rfl
      · rw [getNode, if_neg hq', AList.lookup_insert_ne hne, ← get_of_ne_nil t hq', hold]⟩
  else t

/-- A node without entries is removed. -/
def remove (t : Tree N C) (p : List N) : Tree N C :=
  if h : t.entries p = [] then
    ⟨t.nodes.erase p, by
      intro q n hq
      have hqn : q ++ [n] ≠ [] := List.append_ne_nil_of_right_ne_nil q (List.cons_ne_nil n [])
      have hp : q ++ [n] ≠ p := by
        rintro rfl
        rw [getNode, if_neg hqn, AList.lookup_erase] at hq
        exact hq rfl
      rw [getNode, if_neg hqn, AList.lookup_erase_ne hp, ← get_of_ne_nil t hqn] at hq
      have hne : q ≠ p := by
        rintro rfl
        have hmem := mem_entries.mpr hq
        rw [h] at hmem
        cases hmem
      rcases eq_or_ne q [] with rfl | hq'
      · rfl
      · rw [getNode, if_neg hq', AList.lookup_erase_ne hne, ← get_of_ne_nil t hq', get_parent hq]⟩
  else t

theorem get_set_of_ne (t : Tree N C) (x : Node C) (h : q ≠ p) : (t.set p x).get q = t.get q := by
  unfold set
  split_ifs
  · unfold get getNode
    split_ifs
    · rfl
    · exact AList.lookup_insert_ne h
  · rfl

theorem get_set_self (x : Node C) (hp : p ≠ []) (hdir : t.get p.dropLast = some .dir)
    (hold : t.get p ≠ some .dir) : (t.set p x).get p = some x := by
  rw [set, dif_pos ⟨hp, hdir, hold⟩, get_of_ne_nil _ hp]
  exact AList.lookup_insert _

theorem get_remove_of_ne (t : Tree N C) (h : q ≠ p) : (t.remove p).get q = t.get q := by
  unfold remove
  split_ifs
  · unfold get getNode
    split_ifs
    · rfl
    · exact AList.lookup_erase_ne h
  · rfl

theorem get_of_get_remove (h : (t.remove p).get q ≠ none) : t.get q ≠ none := by
  rcases eq_or_ne q p with rfl | hq
  · rcases eq_or_ne q [] with rfl | hne
    · simp
    · unfold remove at h
      split_ifs at h
      · rw [get_of_ne_nil _ hne] at h
        exact absurd (AList.lookup_erase q t.nodes) h
      · exact h
  · rwa [get_remove_of_ne t hq] at h

end Tree

end FileTree
