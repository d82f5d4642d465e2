import Mathlib.Data.List.Basic

/-!
# File trees with symbolic links

A path is resolved step by step. A link that has steps behind it is always followed, and one at the
end of the path only if that is asked for: `stat` follows it and `lstat` does not. What `lstat`
finds is what `stat` finds, unless it is a link (`stat_of_lstat`). A path with one step more goes on
from where the path leads, with the links that are left (`resolveLeft_concat`). In a tree with fewer
nodes a path leads to where it leads in the whole tree, or nowhere (`Sub.resolveLeft`).
-/

namespace LinkTree

/-- A step of a path: to the same directory, to the one above it, or to a name in it. -/
inductive Step (N : Type*)
  | here
  | up
  | name (n : N)
  deriving DecidableEq, Repr

/-- A path, from the root or from where it is met. -/
structure Path (N : Type*) where
  absolute : Bool
  steps : List (Step N)
  deriving DecidableEq, Repr

/-- What a name stands for. -/
inductive Node (N C : Type*)
  | file (content : C)
  | dir
  | link (target : Path N)
  | other
  deriving DecidableEq, Repr

/-- A file tree: what is at each list of names from the root, and the working directory. -/
structure Tree (N C : Type*) where
  node : List N → Option (Node N C)
  cwd : List N

/-- How far a path leads without following a link: to a list of names, nowhere, or to a link in the
directory `cur` that is to be followed, with the steps behind it. -/
inductive Walk (N : Type*)
  | arrived (p : List N)
  | missing
  | link (cur : List N) (target : Path N) (rest : List (Step N))

variable {N C : Type*} (t : Tree N C)

/-- The steps `ss` from the directory `cur`, with a link at the end followed or not. -/
def walk (follow : Bool) : List N → List (Step N) → Walk N
  | cur, [] => .arrived cur
  | cur, s :: ss =>
    match t.node cur with
    | some .dir =>
      match s with
      | .here => walk follow cur ss
      | .up => walk follow cur.dropLast ss
      | .name n =>
        match t.node (cur ++ [n]) with
        | none => .missing
        | some (.link target) =>
          if ss.isEmpty && !follow then .arrived (cur ++ [n]) else .link cur target ss
        | some _ => walk follow (cur ++ [n]) ss
    | _ => .missing

/-- The steps `ss` from the directory `cur`, along at most `links` links. -/
def resolve (follow : Bool) : ℕ → List N → List (Step N) → Option (List N)
  | links, cur, ss =>
    match walk t follow cur ss with
    | .arrived p => some p
    | .missing => none
    | .link cur target rest =>
      match links with
      | 0 => none
      | links + 1 =>
        resolve follow links (if target.absolute then [] else cur) (target.steps ++ rest)

/-- How many links are followed in one path. -/
def maxLinks : ℕ := 40

/-- The node that a path leads to. -/
def lookup (follow : Bool) (p : Path N) : Option (Node N C) :=
  (resolve t follow maxLinks (if p.absolute then [] else t.cwd) p.steps).bind t.node

/-- `stat` -/
def stat (p : Path N) : Option (Node N C) := lookup t true p

/-- `lstat` -/
def lstat (p : Path N) : Option (Node N C) := lookup t false p

variable {t}

variable {cur p : List N} {ss : List (Step N)} {links l : ℕ} {follow : Bool}

/-- The steps are the same with a link at the end followed, up to it. -/
theorem walk_follow :
    (∀ c target rest, walk t false cur ss = .link c target rest →
        walk t true cur ss = .link c target rest) ∧
      ∀ p, walk t false cur ss = .arrived p → (∀ target, t.node p ≠ some (.link target)) →
        walk t true cur ss = .arrived p := by
  induction ss generalizing cur with
  | nil => exact ⟨fun _ _ _ h => h, fun _ h _ => h⟩
  | cons s ss ih =>
    unfold walk
    rcases t.node cur with _ | _ | _ | _ | _
    case some.dir =>
      cases s with
      | here => exact ih
      | up => exact ih
      | name n =>
        simp only
        rcases hn : t.node (cur ++ [n]) with _ | _ | _ | target | _
        case some.link =>
          have hfollow : ¬ (ss.isEmpty && !true) = true := by simp
          simp only [if_neg hfollow]
          refine ⟨fun c tg rest h => ?_, fun p h hp => ?_⟩
          · split at h
            · cases h
            · exact h
          · split at h
            · cases h
              exact absurd hn (hp target)
            · cases h
        case none => exact ⟨fun _ _ _ h => h, fun _ h _ => h⟩
        all_goals exact ih
    all_goals exact ⟨fun _ _ _ h => h, fun _ h _ => h⟩

theorem resolve_follow (h : resolve t false links cur ss = some p)
    (hp : ∀ target, t.node p ≠ some (.link target)) : resolve t true links cur ss = some p := by
  induction links generalizing cur ss with
  | zero =>
    rw [resolve] at h ⊢
    cases hw : walk t false cur ss with
    | arrived q =>
      rw [hw] at h
      cases h
      rw [walk_follow.2 _ hw hp]
    | missing => rw [hw] at h; cases h
    | link c target rest => rw [hw] at h; cases h
  | succ links ih =>
    rw [resolve] at h ⊢
    cases hw : walk t false cur ss with
    | arrived q =>
      rw [hw] at h
      cases h
      rw [walk_follow.2 _ hw hp]
    | missing => rw [hw] at h; cases h
    | link c target rest =>
      rw [hw] at h
      rw [walk_follow.1 _ _ _ hw]
      exact ih h

/-- What `lstat` finds is what `stat` finds, unless it is a link. -/
theorem stat_of_lstat {p : Path N} {n : Node N C} (h : lstat t p = some n)
    (hn : ∀ target, n ≠ .link target) : stat t p = some n := by
  rw [lstat, lookup, Option.bind_eq_some_iff] at h
  obtain ⟨q, hq, hnode⟩ := h
  rw [stat, lookup, resolve_follow hq fun target hlink => hn target ?_]
  · exact hnode
  · exact Option.some.inj (hnode.symm.trans hlink)

/-! ## One step more -/

variable (t) in
/-- `resolve` with the number of links that may still be followed. -/
def resolveLeft (follow : Bool) : ℕ → List N → List (Step N) → Option (ℕ × List N)
  | links, cur, ss =>
    match walk t follow cur ss with
    | .arrived p => some (links, p)
    | .missing => none
    | .link cur target rest =>
      match links with
      | 0 => none
      | links + 1 =>
        resolveLeft follow links (if target.absolute then [] else cur) (target.steps ++ rest)

theorem resolve_eq_map (follow : Bool) (links : ℕ) (cur : List N) (ss : List (Step N)) :
    resolve t follow links cur ss = (resolveLeft t follow links cur ss).map Prod.snd := by
  induction links generalizing cur ss with
  | zero =>
    rw [resolve, resolveLeft]
    cases walk t follow cur ss <;> rfl
  | succ links ih =>
    rw [resolve, resolveLeft]
    cases walk t follow cur ss with
    | arrived p => rfl
    | missing => rfl
    | link c target rest => exact ih _ _

theorem resolveLeft_le (h : resolveLeft t follow links cur ss = some (l, p)) : l ≤ links := by
  induction links generalizing cur ss with
  | zero =>
    rw [resolveLeft] at h
    cases hw : walk t follow cur ss <;> rw [hw] at h <;> cases h
    exact Nat.le_refl _
  | succ links ih =>
    rw [resolveLeft] at h
    cases hw : walk t follow cur ss with
    | arrived q =>
      rw [hw] at h
      cases h
      exact Nat.le_refl _
    | missing => rw [hw] at h; cases h
    | link c target rest =>
      rw [hw] at h
      exact Nat.le_trans (ih h) (Nat.le_succ links)

theorem walk_append (follow : Bool) {rest : List (Step N)} (hrest : rest ≠ []) (cur : List N)
    (ss : List (Step N)) : walk t follow cur (ss ++ rest) =
      match walk t true cur ss with
      | .arrived p => walk t follow p rest
      | .missing => .missing
      | .link c target behind => .link c target (behind ++ rest) := by
  induction ss generalizing cur with
  | nil => rfl
  | cons s ss ih =>
    simp only [List.cons_append, walk]
    rcases t.node cur with _ | _ | _ | _ | _
    case some.dir =>
      cases s with
      | here => exact ih cur
      | up => exact ih cur.dropLast
      | name n =>
        dsimp only
        rcases t.node (cur ++ [n]) with _ | _ | _ | target | _
        case some.link =>
          have hne : (ss ++ rest).isEmpty = false := by simp [hrest]
          simp [hne]
        case none => rfl
        all_goals exact ih (cur ++ [n])
    all_goals rfl

/-- A path with one step more goes on from where the path leads. -/
theorem resolveLeft_concat (follow : Bool) (links : ℕ) (cur : List N) (ss : List (Step N))
    (s : Step N) : resolveLeft t follow links cur (ss ++ [s]) =
      (resolveLeft t true links cur ss).bind fun q => resolveLeft t follow q.1 q.2 [s] := by
  induction links generalizing cur ss with
  | zero =>
    rw [resolveLeft, walk_append follow (by simp), resolveLeft]
    cases walk t true cur ss with
    | arrived p =>
      dsimp only
      rw [Option.bind_some, resolveLeft]
    | missing => rfl
    | link c target rest => rfl
  | succ links ih =>
    rw [resolveLeft, walk_append follow (by simp), resolveLeft]
    cases walk t true cur ss with
    | arrived p =>
      dsimp only
      rw [Option.bind_some, resolveLeft]
    | missing => rfl
    | link c target rest =>
      dsimp only
      rw [← List.append_assoc]
      exact ih _ _

/-- A name behind a directory: the entry, or what a link leads to, with fewer links left. -/
theorem resolveLeft_name {q : List N} {n : N}
    (h : resolveLeft t true links p [.name n] = some (l, q)) :
    t.node p = some .dir ∧ t.node (p ++ [n]) ≠ none ∧ (l < links ∨ l = links ∧ q = p ++ [n]) := by
  rw [resolveLeft, walk] at h
  rcases hp : t.node p with _ | _ | _ | _ | _
  case some.dir =>
    rw [hp] at h
    dsimp only at h
    rcases hn : t.node (p ++ [n]) with _ | _ | _ | target | _
    case none =>
      rw [hn] at h
      cases h
    case some.link =>
      rw [hn] at h
      simp only [List.isEmpty_nil, Bool.not_true, Bool.and_false, Bool.false_eq_true, if_false] at h
      cases links with
      | zero => cases h
      | succ links => exact ⟨rfl, by simp, .inl (Nat.lt_succ_of_le (resolveLeft_le h))⟩
    all_goals
      rw [hn] at h
      cases h
      exact ⟨rfl, by simp, .inr ⟨rfl, rfl⟩⟩
  all_goals
    rw [hp] at h
    cases h

/-- Without following a link at the end, a name behind a directory is the entry itself. -/
theorem resolveLeft_name_nofollow {q : List N} {n : N}
    (h : resolveLeft t false links p [.name n] = some (l, q)) :
    t.node p = some .dir ∧ t.node (p ++ [n]) ≠ none ∧ q = p ++ [n] := by
  rw [resolveLeft, walk] at h
  rcases hp : t.node p with _ | _ | _ | _ | _
  case some.dir =>
    rw [hp] at h
    dsimp only at h
    rcases hn : t.node (p ++ [n]) with _ | _ | _ | target | _
    case none =>
      rw [hn] at h
      cases h
    all_goals
      rw [hn] at h
      cases h
      exact ⟨rfl, by simp, rfl⟩
  all_goals
    rw [hp] at h
    cases h

/-- Every node of the one tree is one of the other. -/
def Sub (t' t : Tree N C) : Prop := ∀ p x, t'.node p = some x → t.node p = some x

theorem Sub.walk {t' t : Tree N C} (h : Sub t' t) (hw : walk t' follow cur ss ≠ .missing) :
    walk t follow cur ss = walk t' follow cur ss := by
  induction ss generalizing cur with
  | nil => rfl
  | cons s ss ih =>
    simp only [LinkTree.walk] at hw ⊢
    rcases hcur : t'.node cur with _ | _ | _ | _ | _
    case some.dir =>
      rw [hcur] at hw
      rw [h cur _ hcur]
      cases s with
      | here => exact ih hw
      | up => exact ih hw
      | name n =>
        dsimp only at hw ⊢
        rcases hn : t'.node (cur ++ [n]) with _ | _ | _ | target | _
        case none =>
          rw [hn] at hw
          exact absurd rfl hw
        case some.link => rw [h _ _ hn]
        all_goals
          rw [hn] at hw
          rw [h _ _ hn]
          exact ih hw
    all_goals
      rw [hcur] at hw
      exact absurd rfl hw

/-- What a path leads to with fewer nodes is what it leads to. -/
theorem Sub.resolveLeft {t' t : Tree N C} (h : Sub t' t) {r : ℕ × List N}
    (hr : resolveLeft t' follow links cur ss = some r) :
    resolveLeft t follow links cur ss = some r := by
  induction links generalizing cur ss with
  | zero =>
    rw [LinkTree.resolveLeft] at hr ⊢
    have hw : LinkTree.walk t' follow cur ss ≠ .missing := fun hm => by rw [hm] at hr; cases hr
    rw [h.walk hw]
    exact hr
  | succ links ih =>
    rw [LinkTree.resolveLeft] at hr ⊢
    have hw : LinkTree.walk t' follow cur ss ≠ .missing := fun hm => by rw [hm] at hr; cases hr
    rw [h.walk hw]
    cases hwalk : LinkTree.walk t' follow cur ss with
    | arrived p => rwa [hwalk] at hr
    | missing => exact absurd hwalk hw
    | link c target rest =>
      rw [hwalk] at hr
      exact ih hr

end LinkTree
