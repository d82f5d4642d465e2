import Mathlib.Logic.Function.Basic
import Lighttpd.WebdavPut

/-!
# PROPPATCH

The PROPPATCH branch of `mod_webdav_subrequest_handler_huge` reads a `propertyupdate` document and
changes the table of properties in a transaction. Of each `prop` element it handles the first
child. What the statements of the transaction return is an argument, and so are the XML parser and
`xmlNodeListGetString`.

`modWebdavProppatch_atomic_iff` says when all changes of a document are made, or none of them.
-/

namespace Lighttpd

open CString

/-! ## Documents -/

/-- A namespace: its `href` and its prefix. -/
structure XmlNs where
  href : Bytes
  label : Option Bytes
  deriving DecidableEq, Repr

/-- A node: an element, or a text, which has the name `text`. -/
inductive XmlTree
  | element (name : Bytes) (ns : Option XmlNs) (children : List XmlTree)
  | text (content : Bytes)

namespace XmlTree

def name : XmlTree → Bytes
  | element name _ _ => name
  | text _ => str "text"

def ns : XmlTree → Option XmlNs
  | element _ ns _ => ns
  | text _ => none

def children : XmlTree → List XmlTree
  | element _ _ children => children
  | text _ => []

def isElement : XmlTree → Bool
  | element .. => true
  | text _ => false

/-- The node has a namespace without a name that is bound to a prefix, or to none. -/
def emptyNs (node : XmlTree) : Bool :=
  node.ns.any fun ns => ns.href = [] ∧ ns.label ≠ some []

end XmlTree

/-- The loop of `webdav_parse_chunkqueue`: the chunks go to the parser piece by piece, until
nothing is left. The result is the document if it is well formed, and `none` in front of it that
more calls are to come. -/
def webdavParseChunkqueue (xmlParse : List Bytes → Option XmlTree) :
    List ChunkCalls → List BodyChunk → List Bytes → Option (Option XmlTree)
  | [], cs, pieces => if bodyContent cs = [] then some (xmlParse pieces) else none
  | call :: calls, cs, pieces =>
    if bodyContent cs = [] then some (xmlParse pieces)
    else
      match cs with
      | [] => none
      | c :: cs =>
        match bodyData c call with
        | none => some none
        | some (c, data) =>
          match bodyMarkWritten data.length (c :: cs) with
          | none => some none
          | some cs => webdavParseChunkqueue xmlParse calls cs (pieces ++ [data])

/-- The primary key of the table: resource, property and namespace. -/
abbrev PropKey := Bytes × Bytes × Bytes

/-- The values of the properties. -/
abbrev PropTable := PropKey → Option Bytes

/-- A change of the table. -/
inductive PropChange
  | update (key : PropKey) (value : Bytes)
  | delete (key : PropKey)
  deriving DecidableEq, Repr

/-- `REPLACE INTO properties` and `DELETE FROM properties`. -/
def PropChange.apply (table : PropTable) : PropChange → PropTable
  | update key value => Function.update table key (some value)
  | delete key => Function.update table key none

/-- Changes one after the other. -/
def applyChanges (table : PropTable) (changes : List PropChange) : PropTable :=
  changes.foldl PropChange.apply table

/-- The table as a query sees it, with the one to go back to while a transaction is open. -/
structure PropDb where
  table : PropTable
  saved : Option PropTable

/-- What the statements do: whether `BEGIN TRANSACTION`, `COMMIT` and `ROLLBACK` succeed, and the
`i`-th statement between them. What fails changes nothing. -/
structure SqlCalls where
  begins : Bool
  steps : ℕ → Bool
  commits : Bool
  rollsBack : Bool

section

variable (xmlNodeListGetString : List XmlTree → Option Bytes) (sql : SqlCalls) (path : Bytes)

/-- The change that `set` or `remove` asks for with a property. -/
def propChange (remove : Bool) (prop : XmlTree) : PropChange :=
  let key := (path, prop.name, (prop.ns.map XmlNs.href).getD [])
  if remove then .delete key
  else .update key (((if prop.children = [] then none
    else xmlNodeListGetString prop.children)).getD [])

/-- The database, the number of statements executed, and `empty_ns`. -/
structure ProppatchState where
  db : PropDb
  calls : ℕ
  emptyNs : Bool

/-- `sqlite3_step` for a change. -/
def sqlStep (s : ProppatchState) (change : PropChange) : ProppatchState :=
  { s with
    db := if sql.steps s.calls then { s.db with table := change.apply s.db.table } else s.db
    calls := s.calls + 1 }

/-- What is done for a `prop` element: its first child is taken; `none` is a null pointer that is
read. -/
def proppatchFirst (remove : Bool) (s : ProppatchState) (props : XmlTree) :
    Option ProppatchState :=
  match props.children with
  | [] => none
  | prop :: _ =>
    if prop.emptyNs then some { s with emptyNs := true }
    else some (sqlStep sql s (propChange xmlNodeListGetString path remove prop))

/-- The loop over the children of `set` or `remove`. -/
def proppatchProps (remove : Bool) : List XmlTree → ProppatchState → Option ProppatchState
  | [], s => some s
  | props :: rest, s =>
    if props.name = str "prop" then
      (proppatchFirst xmlNodeListGetString sql path remove s props).bind fun s =>
        if s.emptyNs then some s else proppatchProps remove rest s
    else proppatchProps remove rest s

/-- The loop over the children of the root. -/
def proppatchCmds : List XmlTree → ProppatchState → Option ProppatchState
  | [], s => some s
  | cmd :: rest, s =>
    if cmd.name = str "set" ∨ cmd.name = str "remove" then
      (proppatchProps xmlNodeListGetString sql path (cmd.name = str "remove") cmd.children s).bind
        fun s => if s.emptyNs then some s else proppatchCmds rest s
    else proppatchCmds rest s

/-- The part for a parsed document with the status and the database; `none` is a null pointer that
is read. -/
def proppatchUpdate (root : XmlTree) (db : PropDb) : Option (ℕ × PropDb) :=
  if root.name ≠ str "propertyupdate" then some (501, db)
  else if sql.begins = false ∨ db.saved.isSome then some (501, db)
  else
    (proppatchCmds xmlNodeListGetString sql path root.children
      ⟨{ db with saved := some db.table }, 0, false⟩).map fun s =>
        if s.emptyNs then
          if sql.rollsBack then (400, { table := s.db.saved.getD s.db.table, saved := none })
          else (501, s.db)
        else if sql.commits then (200, { s.db with saved := none })
        else (501, s.db)

/-- The branch from its test of the content length on. -/
def modWebdavProppatch (contentLength : ℤ) (parsed : Option XmlTree) (db : PropDb) :
    Option (ℕ × PropDb) :=
  if contentLength = 0 then some (501, db)
  else
    match parsed with
    | none => some (400, db)
    | some root => proppatchUpdate xmlNodeListGetString sql path root db

/-- The `prop` elements of a document in their order, each with whether it is in a `remove`. -/
def propElements (root : XmlTree) : List (Bool × XmlTree) :=
  (root.children.filter fun cmd => cmd.name = str "set" ∨ cmd.name = str "remove").flatMap fun cmd =>
    (cmd.children.filter fun props => props.name = str "prop").map fun props =>
      (decide (cmd.name = str "remove"), props)

/-- The changes that a document asks for: one for each element in a `prop` element. -/
def namedChanges (root : XmlTree) : List PropChange :=
  (propElements root).flatMap fun p =>
    (p.2.children.filter XmlTree.isElement).map (propChange xmlNodeListGetString path p.1)

/-- All changes are made with status 200, and none otherwise, and no null pointer is read. -/
def Atomic (contentLength : ℤ) (parsed : Option XmlTree) (db : PropDb) : Prop :=
  ∃ status db', modWebdavProppatch xmlNodeListGetString sql path contentLength parsed db =
      some (status, db') ∧
    (status = 200 → ∀ root, parsed = some root →
      db'.table = applyChanges db.table (namedChanges xmlNodeListGetString path root)) ∧
    (status ≠ 200 → db'.table = db.table)

/-- A `prop` element at which the loops end: without a child, or its first child has an empty
namespace. -/
def stopsAt (p : Bool × XmlTree) : Bool := p.2.children.head?.all XmlTree.emptyNs

/-- The changes that the first children of `prop` elements ask for, up to where the loops end,
without those whose statement fails. -/
def firstChanges : ℕ → List (Bool × XmlTree) → List PropChange
  | _, [] => []
  | k, p :: rest =>
    match p.2.children with
    | [] => []
    | prop :: _ =>
      if prop.emptyNs then []
      else (if sql.steps k then [propChange xmlNodeListGetString path p.1 prop] else []) ++
        firstChanges (k + 1) rest

/-- Where a document is handled in a transaction: the loops do not end at a `prop` element without
children, and what the first children change is undone, or is what the whole document asks for. -/
def ProppatchFits (contentLength : ℤ) (parsed : Option XmlTree) (db : PropDb) : Prop :=
  contentLength ≠ 0 → ∀ root, parsed = some root → root.name = str "propertyupdate" →
    sql.begins = true → db.saved = none →
      let made := applyChanges db.table
        (firstChanges xmlNodeListGetString sql path 0 (propElements root))
      match (propElements root).find? stopsAt with
      | some p => p.2.children ≠ [] ∧ (sql.rollsBack = true ∨ made = db.table)
      | none =>
        if sql.commits then
          made = applyChanges db.table (namedChanges xmlNodeListGetString path root)
        else made = db.table

/-! ## The loops -/

/-- The two loops as one over the `prop` elements. -/
def proppatchWalk : List (Bool × XmlTree) → ProppatchState → Option ProppatchState
  | [], s => some s
  | p :: rest, s =>
    (proppatchFirst xmlNodeListGetString sql path p.1 s p.2).bind fun s =>
      if s.emptyNs then some s else proppatchWalk rest s

variable {xmlNodeListGetString sql path}

variable {s : ProppatchState} {p : Bool × XmlTree} {db : PropDb} {ps : List (Bool × XmlTree)}
  {contentLength : ℤ} {parsed : Option XmlTree}

theorem proppatchWalk_append (ps qs : List (Bool × XmlTree)) (hs : s.emptyNs = false) :
    proppatchWalk xmlNodeListGetString sql path (ps ++ qs) s =
      (proppatchWalk xmlNodeListGetString sql path ps s).bind fun s =>
        if s.emptyNs then some s else proppatchWalk xmlNodeListGetString sql path qs s := by
  induction ps generalizing s with
  | nil => simp [proppatchWalk, hs]
  | cons p ps ih =>
    rw [List.cons_append, proppatchWalk, proppatchWalk]
    rcases proppatchFirst xmlNodeListGetString sql path p.1 s p.2 with _ | s₁
    · rfl
    · simp only [Option.bind_some]
      by_cases h₁ : s₁.emptyNs = true
      · simp [h₁]
      · rw [if_neg h₁, if_neg h₁, ih (by simpa using h₁)]

theorem proppatchProps_eq_walk (remove : Bool) (l : List XmlTree) (s : ProppatchState) :
    proppatchProps xmlNodeListGetString sql path remove l s =
      proppatchWalk xmlNodeListGetString sql path
        ((l.filter fun props => props.name = str "prop").map fun props => (remove, props)) s := by
  induction l generalizing s with
  | nil => rfl
  | cons props l ih =>
    rw [proppatchProps]
    by_cases h : props.name = str "prop"
    · rw [if_pos h, List.filter_cons_of_pos (by simpa using h), List.map_cons, proppatchWalk]
      simp only [ih]
    · rw [if_neg h, List.filter_cons_of_neg (by simpa using h), ih]

/-- The loops go over the `prop` elements of the document in their order. -/
theorem proppatchCmds_eq_walk (root : XmlTree) (hs : s.emptyNs = false) :
    proppatchCmds xmlNodeListGetString sql path root.children s =
      proppatchWalk xmlNodeListGetString sql path (propElements root) s := by
  rw [propElements]
  generalize root.children = l
  induction l generalizing s with
  | nil => rfl
  | cons cmd l ih =>
    rw [proppatchCmds]
    by_cases h : cmd.name = str "set" ∨ cmd.name = str "remove"
    · rw [if_pos h, List.filter_cons_of_pos (by simpa using h), List.flatMap_cons,
        proppatchWalk_append _ _ hs, proppatchProps_eq_walk]
      refine Option.bind_congr fun s₁ _ => ?_
      by_cases h₁ : s₁.emptyNs = true
      · rw [if_pos h₁, if_pos h₁]
      · rw [if_neg h₁, if_neg h₁, ih (by simpa using h₁)]
    · rw [if_neg h, List.filter_cons_of_neg (by simpa using h), ih hs]

theorem exists_first_of_not_stopsAt (h : ¬ stopsAt p = true) :
    ∃ prop rest, p.2.children = prop :: rest ∧ prop.emptyNs = false := by
  rcases hp : p.2.children with _ | ⟨prop, rest⟩
  · exact absurd (by simp [stopsAt, hp]) h
  · exact ⟨prop, rest, rfl, by simpa [stopsAt, hp] using h⟩

/-- A `prop` element at which the loops do not end has its first child handled. -/
theorem proppatchWalk_cons {prop : XmlTree} {l : List XmlTree} (hp : p.2.children = prop :: l)
    (hprop : prop.emptyNs = false) (ps : List (Bool × XmlTree)) (hs : s.emptyNs = false) :
    proppatchWalk xmlNodeListGetString sql path (p :: ps) s =
      proppatchWalk xmlNodeListGetString sql path ps
        (sqlStep sql s (propChange xmlNodeListGetString path p.1 prop)) := by
  have hfirst : proppatchFirst xmlNodeListGetString sql path p.1 s p.2 =
      some (sqlStep sql s (propChange xmlNodeListGetString path p.1 prop)) := by
    rw [proppatchFirst, hp]
    simp only [hprop, Bool.false_eq_true, if_false]
  rw [proppatchWalk, hfirst, Option.bind_some, if_neg]
  simpa [sqlStep] using hs

/-- A `prop` element without children stops the walk with a null pointer. -/
theorem proppatchWalk_of_missing (hp : ps.find? stopsAt = some p) (hmissing : p.2.children = [])
    (hs : s.emptyNs = false) : proppatchWalk xmlNodeListGetString sql path ps s = none := by
  induction ps generalizing s with
  | nil => cases hp
  | cons q ps ih =>
    by_cases hq : stopsAt q = true
    · rw [List.find?_cons_of_pos hq] at hp
      obtain rfl := Option.some.inj hp
      rw [proppatchWalk, proppatchFirst, hmissing]
      rfl
    · rw [List.find?_cons_of_neg hq] at hp
      obtain ⟨prop, l, hl, hprop⟩ := exists_first_of_not_stopsAt hq
      rw [proppatchWalk_cons hl hprop ps hs]
      exact ih hp hs

theorem applyChanges_append (table : PropTable) (cs ds : List PropChange) :
    applyChanges table (cs ++ ds) = applyChanges (applyChanges table cs) ds :=
  List.foldl_append ..

/-- Otherwise the walk makes the changes of the first children. -/
theorem proppatchWalk_eq (hps : ∀ p, ps.find? stopsAt = some p → p.2.children ≠ [])
    (hs : s.emptyNs = false) :
    ∃ s', proppatchWalk xmlNodeListGetString sql path ps s = some s' ∧
      s'.emptyNs = (ps.find? stopsAt).isSome ∧ s'.db.saved = s.db.saved ∧
      s'.db.table = applyChanges s.db.table
        (firstChanges xmlNodeListGetString sql path s.calls ps) := by
  induction ps generalizing s with
  | nil => exact ⟨s, rfl, hs, rfl, rfl⟩
  | cons q ps ih =>
    by_cases hq : stopsAt q = true
    · have hfind : (q :: ps).find? stopsAt = some q := List.find?_cons_of_pos hq
      rcases hl : q.2.children with _ | ⟨prop, l⟩
      · exact absurd hl (hps q hfind)
      · have hprop : prop.emptyNs = true := by simpa [stopsAt, hl] using hq
        refine ⟨{ s with emptyNs := true }, ?_, by rw [hfind]; rfl, rfl, ?_⟩
        · rw [proppatchWalk, proppatchFirst, hl]
          simp [hprop]
        · rw [firstChanges, hl]
          simp [hprop, applyChanges]
    · have hfind : (q :: ps).find? stopsAt = ps.find? stopsAt := List.find?_cons_of_neg hq
      obtain ⟨prop, l, hl, hprop⟩ := exists_first_of_not_stopsAt hq
      rw [hfind] at hps
      obtain ⟨s', hwalk, hns, hsaved, htable⟩ := ih hps
        (s := sqlStep sql s (propChange xmlNodeListGetString path q.1 prop)) hs
      refine ⟨s', ?_, by rw [hfind]; exact hns, ?_, ?_⟩
      · rw [proppatchWalk_cons hl hprop ps hs]
        exact hwalk
      · rw [hsaved, sqlStep]
        split_ifs <;> rfl
      · rw [htable, firstChanges, hl]
        simp only [hprop, Bool.false_eq_true, if_false, applyChanges_append]
        by_cases hstep : sql.steps s.calls = true
        · simp [sqlStep, hstep, applyChanges]
        · simp [sqlStep, hstep, applyChanges]

variable (xmlNodeListGetString sql path) in
theorem proppatchUpdate_eq {root : XmlTree} (hroot : root.name = str "propertyupdate")
    (hbegins : sql.begins = true) (hsaved : db.saved = none) :
    (∀ p, (propElements root).find? stopsAt = some p → p.2.children = [] →
      proppatchUpdate xmlNodeListGetString sql path root db = none) ∧
    ((∀ p, (propElements root).find? stopsAt = some p → p.2.children ≠ []) →
      proppatchUpdate xmlNodeListGetString sql path root db = some
        (let made := applyChanges db.table
          (firstChanges xmlNodeListGetString sql path 0 (propElements root))
        if ((propElements root).find? stopsAt).isSome then
          if sql.rollsBack then (400, ⟨db.table, none⟩) else (501, ⟨made, some db.table⟩)
        else if sql.commits then (200, ⟨made, none⟩)
        else (501, ⟨made, some db.table⟩))) := by
  have hopen : ¬ (sql.begins = false ∨ db.saved.isSome) := by simp [hbegins, hsaved]
  rw [proppatchUpdate, if_neg (not_not.mpr hroot), if_neg hopen, proppatchCmds_eq_walk root rfl]
  constructor
  · intro p hp hmissing
    rw [proppatchWalk_of_missing hp hmissing rfl]
    rfl
  · intro hps
    obtain ⟨s', hwalk, hns, hsaved', htable⟩ := proppatchWalk_eq hps
      (s := ⟨{ db with saved := some db.table }, 0, false⟩) rfl
    have hdb : s'.db = ⟨applyChanges db.table
        (firstChanges xmlNodeListGetString sql path 0 (propElements root)), some db.table⟩ := by
      rw [← htable]
      exact congrArg (PropDb.mk s'.db.table) hsaved'
    rw [hwalk, Option.map_some, hns, hdb]
    rfl

theorem atomic_iff {db' : PropDb} {status : ℕ}
    (h : modWebdavProppatch xmlNodeListGetString sql path contentLength parsed db =
      some (status, db')) :
    Atomic xmlNodeListGetString sql path contentLength parsed db ↔
      (status = 200 → ∀ root, parsed = some root →
        db'.table = applyChanges db.table (namedChanges xmlNodeListGetString path root)) ∧
      (status ≠ 200 → db'.table = db.table) := by
  refine ⟨?_, fun h' => ⟨status, db', h, h'⟩⟩
  rintro ⟨status', db'', h', hatomic⟩
  obtain ⟨rfl, rfl⟩ := Prod.mk.inj (Option.some.inj (h.symm.trans h'))
  exact hatomic

theorem atomic_of_unchanged {status : ℕ}
    (h : modWebdavProppatch xmlNodeListGetString sql path contentLength parsed db =
      some (status, db)) (hstatus : status ≠ 200) :
    Atomic xmlNodeListGetString sql path contentLength parsed db :=
  (atomic_iff h).mpr ⟨fun h' => absurd h' hstatus, fun _ => rfl⟩

variable (xmlNodeListGetString sql path)

/-- PROPPATCH makes all changes of a document or none, and reads no null pointer, if and only if
it has no transaction, or the loops end at no `prop` element without a child, and either what
they change is rolled back or nothing, or it is committed and what the document asks for. -/
theorem modWebdavProppatch_atomic_iff (contentLength : ℤ) (parsed : Option XmlTree) (db : PropDb) :
    Atomic xmlNodeListGetString sql path contentLength parsed db ↔
      ProppatchFits xmlNodeListGetString sql path contentLength parsed db := by
  by_cases hlength : contentLength = 0
  · exact iff_of_true (atomic_of_unchanged (if_pos hlength) (by decide)) fun h => absurd hlength h
  rcases parsed with _ | root
  · refine iff_of_true (atomic_of_unchanged (if_neg hlength) (by decide)) ?_
    rintro - _ ⟨⟩
  have hrun : modWebdavProppatch xmlNodeListGetString sql path contentLength (some root) db =
      proppatchUpdate xmlNodeListGetString sql path root db := if_neg hlength
  by_cases hin : root.name = str "propertyupdate" ∧ sql.begins = true ∧ db.saved = none
  · obtain ⟨hroot, hbegins, hsaved⟩ := hin
    obtain ⟨hmissing, hpresent⟩ :=
      proppatchUpdate_eq xmlNodeListGetString sql path hroot hbegins hsaved
    simp only [ProppatchFits, hlength, Option.some.injEq, forall_eq', hroot, hbegins, hsaved, ne_eq,
      not_false_eq_true, true_implies]
    rcases hstop : (propElements root).find? stopsAt with _ | p
    · have hres := hpresent fun p hp => by rw [hstop] at hp; cases hp
      rw [hstop] at hres
      by_cases hcommits : sql.commits = true
      · simp only [hcommits, Option.isSome_none, Bool.false_eq_true, if_false, if_true] at hres ⊢
        rw [atomic_iff (hrun.trans hres)]
        simp
      · simp only [hcommits, Option.isSome_none, Bool.false_eq_true, if_false] at hres ⊢
        rw [atomic_iff (hrun.trans hres)]
        simp
    · by_cases hnil : p.2.children = []
      · refine iff_of_false ?_ fun h => h.1 hnil
        rintro ⟨status, db', h, -⟩
        rw [hrun, hmissing p hstop hnil] at h
        cases h
      · have hres := hpresent fun q hq => by
          obtain rfl := Option.some.inj (hstop.symm.trans hq)
          exact hnil
        rw [hstop] at hres
        by_cases hback : sql.rollsBack = true
        · simp only [hback, Option.isSome_some, if_true] at hres ⊢
          rw [atomic_iff (hrun.trans hres)]
          simp [hnil]
        · simp only [hback, Option.isSome_some, Bool.false_eq_true, if_false, if_true] at hres ⊢
          rw [atomic_iff (hrun.trans hres)]
          simp [hnil]
  · have hres : proppatchUpdate xmlNodeListGetString sql path root db = some (501, db) := by
      rw [proppatchUpdate]
      by_cases hroot : root.name = str "propertyupdate"
      · rw [if_neg (not_not.mpr hroot), if_pos]
        by_contra hopen
        simp only [not_or, Bool.not_eq_false, Bool.not_eq_true, Option.isSome_eq_false_iff,
          Option.isNone_iff_eq_none] at hopen
        exact hin ⟨hroot, hopen⟩
      · rw [if_pos hroot]
    refine iff_of_true (atomic_of_unchanged (hrun.trans hres) (by decide)) ?_
    rintro - _ ⟨⟩ hroot hbegins hsaved
    exact absurd ⟨hroot, hbegins, hsaved⟩ hin

end

/-- A `set` with one `prop` element. -/
def setDocument (props : List XmlTree) : XmlTree :=
  .element (str "propertyupdate") none [.element (str "set") none [.element (str "prop") none props]]

/-- Of two properties the second one is not stored, and a `prop` element without properties is a
null pointer. -/
theorem not_atomic :
    ¬ Atomic (fun _ => none) ⟨true, fun _ => true, true, true⟩ (str "/a") 1
      (some (setDocument [.element (str "p") none [], .element (str "q") none []]))
      ⟨fun _ => none, none⟩ ∧
    modWebdavProppatch (fun _ => none) ⟨true, fun _ => true, true, true⟩ (str "/a") 1
      (some (setDocument [])) ⟨fun _ => none, none⟩ = none := by
  refine ⟨?_, rfl⟩
  rintro ⟨status, db', h, hall, -⟩
  obtain ⟨rfl, rfl⟩ := Prod.mk.inj (Option.some.inj h)
  have hq := congrFun (hall rfl _ rfl) (str "/a", str "q", [])
  revert hq
  decide +kernel

end Lighttpd
