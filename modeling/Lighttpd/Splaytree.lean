import Mathlib.Order.Fin.Basic
import Mathlib.Logic.Function.Basic
import Mathlib.Tactic.Ring

/-!
# Splay trees

`stat_cache.c` keeps its entries in trees whose nodes have the sizes of their subtrees, and it
asserts what a call does to the size. Whatever is looked up, stored, removed and cleaned up, the
tree is a map, no assertion fails, and the keys of a clean-up fit their array (`treeRun_refines`).
-/

namespace Lighttpd

variable {α : Type}

/-! ## The trees -/

/-- A key. `hashme` clears the highest bit, so the difference of two keys is an `int`. -/
abbrev SplayKey := Fin (2 ^ 31)

/-- `compare` -/
def splayCompare (i j : SplayKey) : ℤ := i.val - j.val

/-- `splay_tree` -/
inductive SplayTree (α : Type)
  | null
  | node (left : SplayTree α) (key : SplayKey) (size : ℤ) (data : α) (right : SplayTree α)

/-- `node_size` -/
def nodeSize : SplayTree α → ℤ
  | .null => 0
  | .node _ _ size _ _ => size

/-- A node on the way down that was linked to the left or the right tree, with the child that it keeps. -/
structure SplayLink (α : Type) where
  key : SplayKey
  data : α
  child : SplayTree α

/-- The left tree, `l_size` in all, with `a` in the last place. -/
def leftTree (lSize : ℤ) (l : List (SplayLink α)) (a : SplayTree α) : SplayTree α :=
  match l with
  | [] => a
  | y :: l => .node y.child y.key lSize y.data (leftTree (lSize - (1 + nodeSize y.child)) l a)

/-- The right tree, `r_size` in all, with `b` in the last place. -/
def rightTree (rSize : ℤ) (r : List (SplayLink α)) (b : SplayTree α) : SplayTree α :=
  match r with
  | [] => b
  | y :: r => .node (rightTree (rSize - (1 + nodeSize y.child)) r b) y.key rSize y.data y.child

/-- The end of `splaytree_splay`. -/
def splayAssemble (l r : List (SplayLink α)) (lSize rSize : ℤ) (a : SplayTree α) (key : SplayKey)
    (data : α) (b : SplayTree α) : SplayTree α :=
  let lSize := lSize + nodeSize a
  let rSize := rSize + nodeSize b
  .node (leftTree lSize l a) key (lSize + rSize + 1) data (rightTree rSize r b)

/-- The loop of `splaytree_splay`, which starts with a tree that is not `NULL`. -/
def splayLoop (i : SplayKey) : SplayTree α → List (SplayLink α) → List (SplayLink α) → ℤ → ℤ →
    SplayTree α
  | .null, _, _, _, _ => .null
  | .node a k _ d b, l, r, lSize, rSize =>
    if splayCompare i k < 0 then
      match a with
      | .null => splayAssemble l r lSize rSize .null k d b
      | .node aa ak as ad ab =>
        if splayCompare i ak < 0 then
          let t := .node ab k (nodeSize ab + nodeSize b + 1) d b
          match aa with
          | .null => splayAssemble l r lSize rSize .null ak ad t
          | .node c ck cs cd e =>
            splayLoop i (.node c ck cs cd e) l (r ++ [⟨ak, ad, t⟩]) lSize (rSize + (1 + nodeSize t))
        else
          splayLoop i (.node aa ak as ad ab) l (r ++ [⟨k, d, b⟩]) lSize (rSize + (1 + nodeSize b))
    else if 0 < splayCompare i k then
      match b with
      | .null => splayAssemble l r lSize rSize a k d .null
      | .node ba bk bs bd bb =>
        if 0 < splayCompare i bk then
          let t := .node a k (nodeSize a + nodeSize ba + 1) d ba
          match bb with
          | .null => splayAssemble l r lSize rSize t bk bd .null
          | .node c ck cs cd e =>
            splayLoop i (.node c ck cs cd e) (l ++ [⟨bk, bd, t⟩]) r (lSize + (1 + nodeSize t)) rSize
        else
          splayLoop i (.node ba bk bs bd bb) (l ++ [⟨k, d, a⟩]) r (lSize + (1 + nodeSize a)) rSize
    else splayAssemble l r lSize rSize a k d b

/-- `splaytree_splay` -/
def splaytreeSplay (t : SplayTree α) (i : SplayKey) : SplayTree α := splayLoop i t [] [] 0 0

/-- `splaytree_insert` -/
def splaytreeInsert (t : SplayTree α) (i : SplayKey) (data : α) : SplayTree α :=
  match splaytreeSplay t i with
  | .null => .node .null i 1 data .null
  | .node a k s d b =>
    if splayCompare i k = 0 then .node a k s d b
    else if splayCompare i k < 0 then
      .node a i (1 + nodeSize a + (1 + nodeSize b)) data (.node .null k (1 + nodeSize b) d b)
    else
      .node (.node a k (1 + nodeSize a) d .null) i (1 + (1 + nodeSize a) + nodeSize b) data b

/-- `x->size = n`, where `x` is not `NULL` -/
def SplayTree.setSize (n : ℤ) : SplayTree α → SplayTree α
  | .null => .null
  | .node a k _ d b => .node a k n d b

/-- `x->right = b`, where `x` is not `NULL` -/
def SplayTree.setRight (x b : SplayTree α) : SplayTree α :=
  match x with
  | .null => .null
  | .node a k s d _ => .node a k s d b

/-- `splaytree_delete` -/
def splaytreeDelete (t : SplayTree α) (i : SplayKey) : SplayTree α :=
  match splaytreeSplay t i with
  | .null => .null
  | .node a k s d b =>
    if splayCompare i k = 0 then
      SplayTree.setSize (nodeSize t - 1) <|
        match a with
        | .null => b
        | .node aa ak as ad ab => (splaytreeSplay (.node aa ak as ad ab) i).setRight b
    else .node a k s d b

/-! ## What the stat cache does with a tree -/

/-- What is at the root, where the key is `i`. -/
def rootData (t : SplayTree α) (i : SplayKey) : Option α :=
  match t with
  | .null => none
  | .node _ k _ d _ => if k = i then some d else none

/-- `t->data = data`, where `t` is not `NULL` -/
def SplayTree.setData (data : α) : SplayTree α → SplayTree α
  | .null => .null
  | .node a k s _ b => .node a k s data b

/-- `stat_cache_tag_old_entries` -/
def statCacheTagOldEntries (old : α → Bool) : SplayTree α → List SplayKey
  | .null => []
  | .node a k _ d b =>
    statCacheTagOldEntries old a ++ statCacheTagOldEntries old b ++ if old d then [k] else []

/-- A key is looked up, an entry is stored, the entry of a directory that is gone is removed, and
`stat_cache_trigger_cleanup`. -/
inductive TreeCall (α : Type)
  | look (i : SplayKey)
  | put (i : SplayKey) (data : α)
  | remove (i : SplayKey)
  | cleanup (old : α → Bool)

/-- A turn of the loop of `stat_cache_trigger_cleanup`. -/
def cleanupTurn (t : SplayTree α) (i : SplayKey) : SplayTree α :=
  let t := splaytreeSplay t i
  if (rootData t i).isSome then splaytreeDelete t i else t

/-- A call, and what it finds: `none` where an assertion fails, or where there are more keys than the
array that is allocated has room for. -/
def treeCall (t : SplayTree α) : TreeCall α → Option (SplayTree α × Option α)
  | .look i =>
    let t := splaytreeSplay t i
    some (t, rootData t i)
  | .put i data =>
    let t := splaytreeSplay t i
    if (rootData t i).isSome then some (t.setData data, none)
    else
      let t' := splaytreeInsert t i data
      if nodeSize t + 1 = nodeSize t' then some (t', none) else none
  | .remove i =>
    let t := splaytreeSplay t i
    if (rootData t i).isSome then
      let t' := splaytreeDelete t i
      if nodeSize t - 1 = nodeSize t' then some (t', none) else none
    else some (t, none)
  | .cleanup old =>
    let keys := statCacheTagOldEntries old t
    if keys.length ≤ nodeSize t then some (keys.foldl cleanupTurn t, none) else none

/-- The calls, one after the other, and what they find. -/
def treeRun (t : SplayTree α) : List (TreeCall α) → Option (SplayTree α × List (Option α))
  | [] => some (t, [])
  | c :: cs => do
    let r ← treeCall t c
    let rest ← treeRun r.1 cs
    pure (rest.1, r.2 :: rest.2)

/-- A call as it is meant: the tree is a map. -/
def mapCall (m : SplayKey → Option α) : TreeCall α → (SplayKey → Option α) × Option α
  | .look i => (m, m i)
  | .put i data => (Function.update m i (some data), none)
  | .remove i => (Function.update m i none, none)
  | .cleanup old => (fun i => (m i).filter fun d => !old d, none)

/-- The calls, as they are meant. -/
def mapRun (m : SplayKey → Option α) : List (TreeCall α) → (SplayKey → Option α) × List (Option α)
  | [] => (m, [])
  | c :: cs => ((mapRun (mapCall m c).1 cs).1, (mapCall m c).2 :: (mapRun (mapCall m c).1 cs).2)

/-! ## What is in a tree -/

namespace SplayTree

/-- The nodes, from left to right. -/
def items : SplayTree α → List (SplayKey × α)
  | null => []
  | node a k _ d b => a.items ++ (k, d) :: b.items

/-- Every node has the size of the tree under it. -/
def Sized : SplayTree α → Prop
  | null => True
  | node a _ s _ b => a.Sized ∧ b.Sized ∧ s = a.items.length + b.items.length + 1

/-- A search tree with its sizes. -/
structure Ok (t : SplayTree α) : Prop where
  sorted : t.items.Pairwise (·.1 < ·.1)
  sized : t.Sized

/-- The data of a key. -/
def contents (t : SplayTree α) (k : SplayKey) : Option α := t.items.lookup k

theorem nodeSize_eq {t : SplayTree α} (h : t.Sized) : nodeSize t = t.items.length := by
  cases t with
  | null => rfl
  | node a k s d b =>
    rw [nodeSize, h.2.2]
    simp [items, add_assoc]

end SplayTree

open SplayTree

variable {t a b : SplayTree α} {i k : SplayKey} {s lSize rSize : ℤ} {d : α}
  {l r : List (SplayLink α)}

/-! ## Splaying -/

theorem splayCompare_neg : splayCompare i k < 0 ↔ i < k := by
  rw [splayCompare, Fin.lt_def]
  omega

theorem splayCompare_pos : 0 < splayCompare i k ↔ k < i := by
  rw [splayCompare, Fin.lt_def]
  omega

theorem splayCompare_eq_zero : splayCompare i k = 0 ↔ i = k := by
  rw [splayCompare, Fin.ext_iff]
  omega

/-- What is to the left of the place in the left tree where the next node comes. -/
def leftItems (l : List (SplayLink α)) : List (SplayKey × α) :=
  l.flatMap fun y => y.child.items ++ [(y.key, y.data)]

/-- What is to the right of the place in the right tree where the next node comes. -/
def rightItems (r : List (SplayLink α)) : List (SplayKey × α) :=
  r.reverse.flatMap fun y => (y.key, y.data) :: y.child.items

theorem leftItems_push (l : List (SplayLink α)) (y : SplayLink α) :
    leftItems (l ++ [y]) = leftItems l ++ (y.child.items ++ [(y.key, y.data)]) := by
  simp [leftItems]

theorem rightItems_push (r : List (SplayLink α)) (y : SplayLink α) :
    rightItems (r ++ [y]) = (y.key, y.data) :: (y.child.items ++ rightItems r) := by
  simp [rightItems]

theorem items_leftTree : (leftTree lSize l a).items = leftItems l ++ a.items := by
  induction l generalizing lSize with
  | nil => rfl
  | cons y l ih => simp [leftTree, items, ih, leftItems]

theorem items_rightTree : (rightTree rSize r b).items = b.items ++ rightItems r := by
  induction r generalizing rSize with
  | nil => simp [rightTree, rightItems]
  | cons y r ih => simp [rightTree, items, ih, rightItems]

theorem sized_leftTree (hl : ∀ y ∈ l, y.child.Sized) (ha : a.Sized)
    (hsize : lSize = (leftItems l).length + a.items.length) : (leftTree lSize l a).Sized := by
  induction l generalizing lSize with
  | nil => exact ha
  | cons y l ih =>
    obtain ⟨hy, hl⟩ := List.forall_mem_cons.mp hl
    have hlen : (leftItems (y :: l)).length = y.child.items.length + 1 + (leftItems l).length := by
      rw [leftItems, List.flatMap_cons, List.length_append, List.length_append]
      rfl
    refine ⟨hy, ih hl ?_, ?_⟩
    · rw [nodeSize_eq hy]
      omega
    · rw [items_leftTree, List.length_append]
      push_cast
      omega

theorem sized_rightTree (hr : ∀ y ∈ r, y.child.Sized) (hb : b.Sized)
    (hsize : rSize = (rightItems r).length + b.items.length) : (rightTree rSize r b).Sized := by
  induction r generalizing rSize with
  | nil => exact hb
  | cons y r ih =>
    obtain ⟨hy, hr⟩ := List.forall_mem_cons.mp hr
    have hlen : (rightItems (y :: r)).length =
        (rightItems r).length + (y.child.items.length + 1) := by
      rw [rightItems, List.reverse_cons, List.flatMap_append, List.length_append,
        List.flatMap_singleton]
      rfl
    refine ⟨ih hr ?_, hy, ?_⟩
    · rw [nodeSize_eq hy]
      omega
    · rw [items_rightTree, List.length_append]
      push_cast
      omega

/-- The children have their sizes. -/
def SplayTree.ChildrenSized : SplayTree α → Prop
  | null => True
  | node a _ _ _ b => a.Sized ∧ b.Sized

theorem SplayTree.Sized.children (h : t.Sized) : t.ChildrenSized := by
  cases t with
  | null => trivial
  | node a k s d b => exact ⟨h.1, h.2.1⟩

/-- What holds at the head of the loop. -/
structure Splaying (i : SplayKey) (t : SplayTree α) (l r : List (SplayLink α)) (lSize rSize : ℤ) :
    Prop where
  sorted : t.items.Pairwise (·.1 < ·.1)
  children : t.ChildrenSized
  below : ∀ x ∈ leftItems l, x.1 < i
  above : ∀ x ∈ rightItems r, i < x.1
  left : ∀ y ∈ l, y.child.Sized
  right : ∀ y ∈ r, y.child.Sized
  lSize_eq : lSize = (leftItems l).length
  rSize_eq : rSize = (rightItems r).length

/-- The tree of `all`, splayed at `i`. -/
structure Splayed (i : SplayKey) (all : List (SplayKey × α)) (a : SplayTree α) (k : SplayKey) (s : ℤ)
    (d : α) (b : SplayTree α) : Prop where
  items : a.items ++ (k, d) :: b.items = all
  below : ∀ x ∈ a.items, x.1 < i
  above : ∀ x ∈ b.items, i < x.1
  sized : (node a k s d b).Sized

/-- The tree `t` is that of `all`, splayed at `i`. -/
def SplaysTo (i : SplayKey) (all : List (SplayKey × α)) (t : SplayTree α) : Prop :=
  ∃ a k s d b, t = .node a k s d b ∧ Splayed i all a k s d b

namespace Splaying

variable (h : Splaying i (.node a k s d b) l r lSize rSize)

include h

theorem keys : (∀ x ∈ a.items, x.1 < k) ∧ ∀ x ∈ b.items, k < x.1 := by
  obtain ⟨-, hcons, hall⟩ := List.pairwise_append.mp h.sorted
  exact ⟨fun x hx => hall x hx _ List.mem_cons_self, (List.pairwise_cons.mp hcons).1⟩

theorem linkRight (hlt : i < k) :
    Splaying i a l (r ++ [⟨k, d, b⟩]) lSize (rSize + (1 + nodeSize b)) :=
  { h with
    sorted := (List.pairwise_append.mp h.sorted).1
    children := h.children.1.children
    above := by
      rw [rightItems_push]
      exact List.forall_mem_cons.mpr ⟨hlt, List.forall_mem_append.mpr
        ⟨fun x hx => hlt.trans (h.keys.2 x hx), h.above⟩⟩
    right := List.forall_mem_append.mpr ⟨h.right, List.forall_mem_singleton.mpr h.children.2⟩
    rSize_eq := by
      rw [h.rSize_eq, nodeSize_eq h.children.2, rightItems_push, List.length_cons,
        List.length_append]
      push_cast
      ring }

theorem linkLeft (hlt : k < i) :
    Splaying i b (l ++ [⟨k, d, a⟩]) r (lSize + (1 + nodeSize a)) rSize :=
  { h with
    sorted := (List.pairwise_cons.mp (List.pairwise_append.mp h.sorted).2.1).2
    children := h.children.2.children
    below := by
      rw [leftItems_push]
      exact List.forall_mem_append.mpr ⟨h.below, List.forall_mem_append.mpr
        ⟨fun x hx => (h.keys.1 x hx).trans hlt, List.forall_mem_singleton.mpr hlt⟩⟩
    left := List.forall_mem_append.mpr ⟨h.left, List.forall_mem_singleton.mpr h.children.1⟩
    lSize_eq := by
      rw [h.lSize_eq, nodeSize_eq h.children.1, leftItems_push, List.length_append,
        List.length_append]
      push_cast [List.length_singleton]
      ring }

theorem assemble (ha : ∀ x ∈ a.items, x.1 < i) (hb : ∀ x ∈ b.items, i < x.1) :
    SplaysTo i (leftItems l ++ (SplayTree.node a k s d b).items ++ rightItems r)
      (splayAssemble l r lSize rSize a k d b) := by
  have hsizeA := nodeSize_eq h.children.1
  have hsizeB := nodeSize_eq h.children.2
  have hleft := h.lSize_eq
  have hright := h.rSize_eq
  refine ⟨_, k, _, d, _, rfl, ?_, ?_, ?_, sized_leftTree h.left h.children.1 (by omega),
    sized_rightTree h.right h.children.2 (by omega), ?_⟩
  · simp [items_leftTree, items_rightTree, items]
  · rw [items_leftTree]
    exact List.forall_mem_append.mpr ⟨h.below, ha⟩
  · rw [items_rightTree]
    exact List.forall_mem_append.mpr ⟨hb, h.above⟩
  · rw [items_leftTree, items_rightTree, List.length_append, List.length_append]
    push_cast
    omega

end Splaying

/-- A rotation to the right. -/
theorem Splaying.rotateRight {aa ab : SplayTree α} {ak : SplayKey} {as : ℤ} {ad : α}
    (h : Splaying i (.node (.node aa ak as ad ab) k s d b) l r lSize rSize) :
    Splaying i (.node aa ak as ad (.node ab k (nodeSize ab + nodeSize b + 1) d b)) l r lSize rSize :=
  { h with
    sorted := by simpa [items] using h.sorted
    children := ⟨h.children.1.1, h.children.1.2.1, h.children.2, by
      rw [nodeSize_eq h.children.1.2.1, nodeSize_eq h.children.2]⟩ }

/-- A rotation to the left. -/
theorem Splaying.rotateLeft {ba bb : SplayTree α} {bk : SplayKey} {bs : ℤ} {bd : α}
    (h : Splaying i (.node a k s d (.node ba bk bs bd bb)) l r lSize rSize) :
    Splaying i (.node (.node a k (nodeSize a + nodeSize ba + 1) d ba) bk bs bd bb) l r lSize rSize :=
  { h with
    sorted := by simpa [items] using h.sorted
    children := ⟨⟨h.children.1, h.children.2.1, by
      rw [nodeSize_eq h.children.1, nodeSize_eq h.children.2.1]⟩, h.children.2.2.1⟩ }

theorem splayLoop_spec (h : Splaying i t l r lSize rSize) (hne : t ≠ .null) :
    SplaysTo i (leftItems l ++ t.items ++ rightItems r) (splayLoop i t l r lSize rSize) := by
  fun_induction splayLoop i t l r lSize rSize with
  | case1 => exact absurd rfl hne
  | case2 k s d b l r lSize rSize hlt =>
    rw [splayCompare_neg] at hlt
    exact h.assemble (by simp [items]) fun x hx => hlt.trans (h.keys.2 x hx)
  | case3 k s d b l r lSize rSize hlt ak as ad ab hlt' t =>
    rw [splayCompare_neg] at hlt'
    have := h.rotateRight.assemble (by simp [items]) fun x hx => hlt'.trans (h.rotateRight.keys.2 x hx)
    simpa [items, t] using this
  | case4 k s d b l r lSize rSize hlt ak as ad ab hlt' t c ck cs cd e ih =>
    rw [splayCompare_neg] at hlt'
    have := ih (h.rotateRight.linkRight hlt') (by simp)
    simpa [items, rightItems_push, t] using this
  | case5 k s d b l r lSize rSize hlt aa ak as ad ab hlt' ih =>
    rw [splayCompare_neg] at hlt
    have := ih (h.linkRight hlt) (by simp)
    simpa [items, rightItems_push] using this
  | case6 a k s d l r lSize rSize hlt hgt =>
    rw [splayCompare_pos] at hgt
    exact h.assemble (fun x hx => (h.keys.1 x hx).trans hgt) (by simp [items])
  | case7 a k s d l r lSize rSize hlt hgt ba bk bs bd hgt' t =>
    rw [splayCompare_pos] at hgt'
    have := h.rotateLeft.assemble (fun x hx => (h.rotateLeft.keys.1 x hx).trans hgt') (by simp [items])
    simpa [items, t] using this
  | case8 a k s d l r lSize rSize hlt hgt ba bk bs bd hgt' t c ck cs cd e ih =>
    rw [splayCompare_pos] at hgt'
    have := ih (h.rotateLeft.linkLeft hgt') (by simp)
    simpa [items, leftItems_push, t] using this
  | case9 a k s d l r lSize rSize hlt hgt ba bk bs bd bb hgt' ih =>
    rw [splayCompare_pos] at hgt
    have := ih (h.linkLeft hgt) (by simp)
    simpa [items, leftItems_push] using this
  | case10 a k s d b l r lSize rSize hlt hgt =>
    obtain rfl : i = k := splayCompare_eq_zero.mp (by omega)
    exact h.assemble h.keys.1 h.keys.2

/-! ## The operations on the map -/

theorem lookup_eq_none {x : List (SplayKey × α)} (hx : ∀ p ∈ x, p.1 ≠ i) : x.lookup i = none :=
  List.lookup_eq_none_iff.mpr fun p hp => by simpa using (hx p hp).symm

theorem lookup_middle {x y : List (SplayKey × α)} (hx : ∀ p ∈ x, p.1 ≠ i) (j : SplayKey) :
    (x ++ (i, d) :: y).lookup j = Function.update (fun j => (x ++ y).lookup j) i (some d) j := by
  rw [List.lookup_append]
  by_cases hj : j = i
  · rw [hj, Function.update_self, lookup_eq_none hx, List.lookup_cons_self]
    rfl
  · rw [Function.update_of_ne hj, List.lookup_append, List.lookup_cons, beq_eq_false_iff_ne.mpr hj]

/-- One item more, where it belongs. -/
def OneMore (i : SplayKey) (d : α) (l l' : List (SplayKey × α)) : Prop :=
  ∃ x y, l = x ++ y ∧ l' = x ++ (i, d) :: y ∧ (∀ p ∈ x, p.1 < i) ∧ ∀ p ∈ y, i < p.1

namespace OneMore

variable {z z' : List (SplayKey × α)} (h : OneMore i d z z')

include h

theorem lookup : (fun j => z'.lookup j) = Function.update (fun j => z.lookup j) i (some d) := by
  obtain ⟨x, y, rfl, rfl, hx, -⟩ := h
  exact funext (lookup_middle fun p hp => (hx p hp).ne)

theorem lookup_self : z.lookup i = none := by
  obtain ⟨x, y, rfl, rfl, hx, hy⟩ := h
  exact lookup_eq_none fun p hp => (List.mem_append.mp hp).elim (fun hp => (hx p hp).ne)
    fun hp => (hy p hp).ne'

theorem sorted : z'.Pairwise (·.1 < ·.1) ↔ z.Pairwise (·.1 < ·.1) := by
  obtain ⟨x, y, rfl, rfl, hx, hy⟩ := h
  rw [List.pairwise_append, List.pairwise_append, List.pairwise_cons]
  constructor
  · rintro ⟨hxx, ⟨-, hyy⟩, hxy⟩
    exact ⟨hxx, hyy, fun p hp q hq => hxy p hp q (List.mem_cons_of_mem _ hq)⟩
  · rintro ⟨hxx, hyy, hxy⟩
    refine ⟨hxx, ⟨hy, hyy⟩, fun p hp q hq => ?_⟩
    rcases List.mem_cons.mp hq with rfl | hq
    · exact hx p hp
    · exact hxy p hp q hq

theorem length : (z'.length : ℤ) = z.length + 1 := by
  obtain ⟨x, y, rfl, rfl, -⟩ := h
  rw [List.length_append, List.length_append]
  rfl

end OneMore

theorem lookup_eq_some {x : List (SplayKey × α)} (hx : x.Pairwise (·.1 < ·.1)) :
    x.lookup i = some d ↔ (i, d) ∈ x := by
  constructor
  · intro h
    obtain ⟨u, v, rfl, -⟩ := List.lookup_eq_some_iff.mp h
    exact List.mem_append_right _ List.mem_cons_self
  · intro h
    obtain ⟨u, v, rfl⟩ := List.append_of_mem h
    have hu := (List.pairwise_append.mp hx).2.2
    rw [lookup_middle fun p hp => (hu p hp _ List.mem_cons_self).ne, Function.update_self]

theorem splaytreeSplay_spec (h : t.Ok) (i : SplayKey) (hne : t ≠ .null) :
    SplaysTo i t.items (splaytreeSplay t i) := by
  have hstart : Splaying i t [] [] 0 0 := ⟨h.sorted, h.sized.children, by simp [leftItems],
    by simp [rightItems], by simp, by simp, by simp [leftItems], by simp [rightItems]⟩
  simpa [leftItems, rightItems, splaytreeSplay] using splayLoop_spec hstart hne

theorem SplayTree.Ok.splay (h : t.Ok) (i : SplayKey) : (splaytreeSplay t i).Ok ∧
    (splaytreeSplay t i).items = t.items ∧ rootData (splaytreeSplay t i) i = t.contents i := by
  by_cases hnull : t = .null
  · subst hnull
    exact ⟨h, rfl, rfl⟩
  obtain ⟨a, k, s, d, b, heq, hs⟩ := splaytreeSplay_spec h i hnull
  rw [heq]
  refine ⟨⟨by rw [items, hs.items]; exact h.sorted, hs.sized⟩, hs.items, ?_⟩
  rw [contents, ← hs.items, rootData]
  by_cases hk : k = i
  · subst hk
    rw [if_pos rfl, lookup_middle fun p hp => (hs.below p hp).ne, Function.update_self]
  · rw [if_neg hk, lookup_eq_none]
    simp only [List.mem_append, List.mem_cons]
    rintro p (hp | rfl | hp)
    · exact (hs.below p hp).ne
    · exact hk
    · exact (hs.above p hp).ne'

theorem splaytreeInsert_spec (h : t.Ok) (data : α) (hnone : t.contents i = none) :
    OneMore i data t.items (splaytreeInsert t i data).items ∧ (splaytreeInsert t i data).Sized := by
  by_cases hnull : t = .null
  · subst hnull
    exact ⟨⟨[], [], rfl, rfl, by simp, by simp⟩, trivial, trivial, rfl⟩
  obtain ⟨-, -, hroot⟩ := h.splay i
  obtain ⟨a, k, s, d, b, heq, hs⟩ := splaytreeSplay_spec h i hnull
  obtain ⟨ha, hb, -⟩ := hs.sized
  have hsizeA := nodeSize_eq ha
  have hsizeB := nodeSize_eq hb
  have hk : i ≠ k := by
    rintro rfl
    rw [heq, rootData, if_pos rfl, hnone] at hroot
    cases hroot
  rw [splaytreeInsert, heq]
  dsimp only
  rw [if_neg (mt splayCompare_eq_zero.mp hk)]
  by_cases hlt : i < k
  · rw [if_pos (splayCompare_neg.mpr hlt)]
    refine ⟨⟨a.items, (k, d) :: b.items, hs.items.symm, rfl, hs.below, ?_⟩, ha, ⟨trivial, hb, ?_⟩, ?_⟩
    · exact List.forall_mem_cons.mpr ⟨hlt, hs.above⟩
    · simp [items, hsizeB, add_comm]
    · simp [items]
      omega
  · rw [if_neg (mt splayCompare_neg.mp hlt)]
    refine ⟨⟨a.items ++ [(k, d)], b.items, by simp [← hs.items], rfl, ?_, hs.above⟩, ⟨ha, trivial, ?_⟩,
      hb, ?_⟩
    · simp only [List.mem_append, List.mem_singleton]
      rintro p (hp | rfl)
      · exact hs.below p hp
      · exact lt_of_le_of_ne (not_lt.mp hlt) hk.symm
    · simp [items, hsizeA, add_comm]
    · simp [items]
      omega

theorem SplayTree.Sized.setSize {n : ℤ} (h : t.ChildrenSized) (hn : n = t.items.length) :
    (t.setSize n).Sized ∧ (t.setSize n).items = t.items := by
  cases t with
  | null => exact ⟨trivial, rfl⟩
  | node a k s d b =>
    refine ⟨⟨h.1, h.2, ?_⟩, rfl⟩
    rw [hn]
    simp [items, add_assoc]

theorem splaytreeDelete_spec (h : t.Ok) (hsome : (t.contents i).isSome) :
    ∃ d, OneMore i d (splaytreeDelete t i).items t.items ∧ (splaytreeDelete t i).Sized := by
  by_cases hnull : t = .null
  · subst hnull
    cases hsome
  obtain ⟨hok, -, hroot⟩ := h.splay i
  obtain ⟨a, k, s, d, b, heq, hs⟩ := splaytreeSplay_spec h i hnull
  obtain ⟨ha, hb, -⟩ := hs.sized
  obtain rfl : k = i := by
    by_contra hk
    rw [heq, rootData, if_neg hk] at hroot
    rw [← hroot] at hsome
    cases hsome
  have hlen : nodeSize t - 1 = (a.items ++ b.items).length := by
    rw [nodeSize_eq h.sized, ← hs.items, List.length_append, List.length_append, List.length_cons]
    push_cast
    ring
  -- what is under the root is joined
  have hjoin : ∀ x : SplayTree α, x.items = a.items ++ b.items → x.ChildrenSized →
      OneMore k d (x.setSize (nodeSize t - 1)).items t.items ∧ (x.setSize (nodeSize t - 1)).Sized := by
    intro x hx hchildren
    obtain ⟨hsized, hitems⟩ := SplayTree.Sized.setSize hchildren (hlen.trans (by rw [hx]))
    exact ⟨⟨a.items, b.items, hitems.trans hx, hs.items.symm, hs.below, hs.above⟩, hsized⟩
  refine ⟨d, ?_⟩
  rw [splaytreeDelete, heq]
  dsimp only
  rw [if_pos (splayCompare_eq_zero.mpr rfl)]
  cases ha' : a with
  | null => exact hjoin b (by rw [ha']; rfl) hb.children
  | node aa ak as ad ab =>
    rw [heq] at hok
    have hok' : a.Ok := ⟨(List.pairwise_append.mp hok.sorted).1, ha⟩
    obtain ⟨xa, xk, xs, xd, xb, hx, hsx⟩ := splaytreeSplay_spec hok' k (by rw [ha']; exact nofun)
    -- the key is greater than all of the left tree, so nothing is to the right of the new root
    have hnil : xb.items = [] := by
      refine List.eq_nil_iff_forall_not_mem.mpr fun p hp => ?_
      have hmem : p ∈ a.items := by
        rw [← hsx.items]
        exact List.mem_append_right _ (List.mem_cons_of_mem _ hp)
      exact absurd (hsx.above p hp) (hs.below p hmem).asymm
    dsimp only
    rw [← ha', hx]
    refine hjoin _ ?_ ⟨hsx.sized.1, hb⟩
    rw [← hsx.items, hnil]
    simp [setRight, items]

/-! ## The calls -/

theorem SplayTree.Ok.insert (h : t.Ok) (data : α) (hnone : t.contents i = none) :
    (splaytreeInsert t i data).Ok ∧
      (splaytreeInsert t i data).contents = Function.update t.contents i (some data) ∧
      nodeSize t + 1 = nodeSize (splaytreeInsert t i data) := by
  obtain ⟨hmore, hsized⟩ := splaytreeInsert_spec h data hnone
  refine ⟨⟨hmore.sorted.mpr h.sorted, hsized⟩, hmore.lookup, ?_⟩
  rw [nodeSize_eq h.sized, nodeSize_eq hsized, hmore.length]

theorem SplayTree.Ok.delete (h : t.Ok) (hsome : (t.contents i).isSome) :
    (splaytreeDelete t i).Ok ∧
      (splaytreeDelete t i).contents = Function.update t.contents i none ∧
      nodeSize t - 1 = nodeSize (splaytreeDelete t i) := by
  obtain ⟨d, hmore, hsized⟩ := splaytreeDelete_spec h hsome
  refine ⟨⟨hmore.sorted.mp h.sorted, hsized⟩, ?_, ?_⟩
  · have hmap : t.contents = Function.update (splaytreeDelete t i).contents i (some d) := hmore.lookup
    have hself : (splaytreeDelete t i).contents i = none := hmore.lookup_self
    rw [hmap, Function.update_idem, ← hself, Function.update_eq_self]
  · rw [nodeSize_eq h.sized, nodeSize_eq hsized, hmore.length, add_sub_cancel_right]

theorem SplayTree.Ok.setData (h : t.Ok) (data : α) (hroot : (rootData t i).isSome) :
    (t.setData data).Ok ∧ (t.setData data).contents = Function.update t.contents i (some data) := by
  cases t with
  | null => cases hroot
  | node a k s d b =>
    obtain rfl : k = i := by
      by_contra hk
      rw [rootData, if_neg hk] at hroot
      cases hroot
    obtain ⟨-, hcons, hall⟩ := List.pairwise_append.mp h.sorted
    have hmore (d : α) : OneMore k d (a.items ++ b.items) (SplayTree.node a k s d b).items :=
      ⟨_, _, rfl, rfl, fun p hp => hall p hp _ List.mem_cons_self, (List.pairwise_cons.mp hcons).1⟩
    refine ⟨⟨(hmore data).sorted.mpr ((hmore d).sorted.mp h.sorted), h.sized⟩, ?_⟩
    have hmap (d : α) : (SplayTree.node a k s d b).contents = _ := (hmore d).lookup
    rw [hmap d, Function.update_idem]
    exact hmap data

theorem SplayTree.Ok.cleanupTurn (h : t.Ok) (i : SplayKey) : (cleanupTurn t i).Ok ∧
    (cleanupTurn t i).contents = Function.update t.contents i none := by
  obtain ⟨hok, hitems, hroot⟩ := h.splay i
  have hcontents : (splaytreeSplay t i).contents = t.contents := by
    unfold SplayTree.contents
    rw [hitems]
  unfold Lighttpd.cleanupTurn
  dsimp only
  split_ifs with hsome
  · obtain ⟨hdel, hmap, -⟩ := hok.delete (i := i) (by rw [hcontents, ← hroot]; exact hsome)
    exact ⟨hdel, by rw [hmap, hcontents]⟩
  · rw [hroot, Option.not_isSome_iff_eq_none] at hsome
    exact ⟨hok, by rw [hcontents, ← hsome, Function.update_eq_self]⟩

theorem cleanup_contents (h : t.Ok) (keys : List SplayKey) : (keys.foldl cleanupTurn t).Ok ∧
    (keys.foldl cleanupTurn t).contents = fun j => if j ∈ keys then none else t.contents j := by
  induction keys generalizing t with
  | nil => exact ⟨h, by simp⟩
  | cons i keys ih =>
    obtain ⟨hok, hmap⟩ := h.cleanupTurn i
    obtain ⟨hok', hmap'⟩ := ih hok
    refine ⟨hok', hmap'.trans (funext fun j => ?_)⟩
    rw [hmap]
    by_cases hj : j = i
    · simp [hj]
    · simp [hj]

theorem perm_tagOldEntries (old : α → Bool) (t : SplayTree α) :
    (statCacheTagOldEntries old t).Perm ((t.items.filter (old ·.2)).map (·.1)) := by
  induction t with
  | null => exact .nil
  | node a k s d b iha ihb =>
    rw [statCacheTagOldEntries, items, List.filter_append, List.map_append, List.append_assoc,
      List.filter_cons]
    refine iha.append ((List.perm_append_comm).trans ?_)
    split_ifs <;> simpa using ihb

theorem SplayTree.Ok.cleanup (h : t.Ok) (old : α → Bool) :
    ((statCacheTagOldEntries old t).length : ℤ) ≤ nodeSize t ∧
      ((statCacheTagOldEntries old t).foldl Lighttpd.cleanupTurn t).Ok ∧
      ((statCacheTagOldEntries old t).foldl Lighttpd.cleanupTurn t).contents =
        fun i => (t.contents i).filter fun d => !old d := by
  have hperm := perm_tagOldEntries old t
  obtain ⟨hok, hmap⟩ := cleanup_contents h (statCacheTagOldEntries old t)
  refine ⟨?_, hok, hmap.trans (funext fun i => ?_)⟩
  · rw [hperm.length_eq, List.length_map, nodeSize_eq h.sized]
    exact_mod_cast List.length_filter_le _ _
  · have hmem : i ∈ statCacheTagOldEntries old t ↔ ∃ d, t.contents i = some d ∧ old d := by
      simp [hperm.mem_iff, contents, lookup_eq_some h.sorted]
    cases hi : t.contents i with
    | none => simp
    | some d => cases hd : old d <;> simp [Option.filter_some, hmem, hi, hd]

/-- A call of the stat cache does what it is meant to do. -/
theorem treeCall_spec (h : t.Ok) (c : TreeCall α) : ∃ t', t'.Ok ∧
    t'.contents = (mapCall t.contents c).1 ∧ treeCall t c = some (t', (mapCall t.contents c).2) := by
  have hsplay (i : SplayKey) : (splaytreeSplay t i).Ok ∧
      (splaytreeSplay t i).contents = t.contents ∧ rootData (splaytreeSplay t i) i = t.contents i := by
    obtain ⟨hok, hitems, hroot⟩ := h.splay i
    exact ⟨hok, by unfold contents; rw [hitems], hroot⟩
  cases c with
  | look i =>
    obtain ⟨hok, hmap, hroot⟩ := hsplay i
    exact ⟨_, hok, hmap, by rw [treeCall, hroot]; rfl⟩
  | put i data =>
    obtain ⟨hok, hmap, hroot⟩ := hsplay i
    rw [treeCall]
    by_cases hsome : (rootData (splaytreeSplay t i) i).isSome
    · obtain ⟨hset, hset'⟩ := hok.setData data hsome
      exact ⟨_, hset, by rw [hset', hmap]; rfl, if_pos hsome⟩
    · have hnone := Option.not_isSome_iff_eq_none.mp hsome
      obtain ⟨hins, hins', hsize⟩ := hok.insert data (by rw [hmap, ← hroot, hnone])
      exact ⟨_, hins, by rw [hins', hmap]; rfl, by rw [if_neg hsome, if_pos hsize]; rfl⟩
  | remove i =>
    obtain ⟨hok, hmap, hroot⟩ := hsplay i
    rw [treeCall]
    by_cases hsome : (rootData (splaytreeSplay t i) i).isSome
    · obtain ⟨hdel, hdel', hsize⟩ := hok.delete (i := i) (by rw [hmap, ← hroot, hsome])
      exact ⟨_, hdel, by rw [hdel', hmap]; rfl, by rw [if_pos hsome, if_pos hsize]; rfl⟩
    · refine ⟨_, hok, ?_, if_neg hsome⟩
      rw [hmap, mapCall, ← Option.not_isSome_iff_eq_none.mp hsome, hroot, Function.update_eq_self]
  | cleanup old =>
    obtain ⟨hlen, hok, hmap⟩ := h.cleanup old
    exact ⟨_, hok, hmap, if_pos hlen⟩

theorem treeRun_spec (h : t.Ok) (cs : List (TreeCall α)) : ∃ t', t'.Ok ∧
    t'.contents = (mapRun t.contents cs).1 ∧ treeRun t cs = some (t', (mapRun t.contents cs).2) := by
  induction cs generalizing t with
  | nil => exact ⟨t, h, rfl, rfl⟩
  | cons c cs ih =>
    obtain ⟨t₁, h₁, hmap₁, hcall⟩ := treeCall_spec h c
    obtain ⟨t', h', hmap', hrun⟩ := ih h₁
    rw [hmap₁] at hmap' hrun
    exact ⟨t', h', hmap', by rw [treeRun, hcall]; simp [hrun, mapRun]⟩

/-- Whatever calls there are, the tree is a search tree with its sizes, it has what the map has, what
is found is what the map says, no assertion fails, and the array of keys has room for the old ones. -/
theorem treeRun_refines (cs : List (TreeCall α)) : ∃ t : SplayTree α, t.Ok ∧
    t.contents = (mapRun (fun _ => none) cs).1 ∧
    treeRun .null cs = some (t, (mapRun (fun _ => none) cs).2) :=
  treeRun_spec (t := .null) ⟨List.Pairwise.nil, trivial⟩ cs

end Lighttpd
