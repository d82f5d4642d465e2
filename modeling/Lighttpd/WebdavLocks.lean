import Mathlib.Data.Finset.Image
import Lighttpd.WebdavCopy

/-!
# Locks

`mod_webdav` keeps locks as rows of a table. LOCK looks for rows of the path that the last MOVE or
COPY has left in `p->uri.path`, and takes a lock to be compatible when it is exclusive, but puts the
new row at the path of the request. `lockRun_excludes_iff` says for which LOCK requests this comes
to the same.
-/

namespace Lighttpd

open CString

/-- `lockscope`. -/
inductive LockScope
  | exclusive
  | shared
  deriving DecidableEq, Repr

/-- A row of the table of locks, as far as it is looked at. -/
structure LockRow where
  locktoken : Bytes
  resource : Bytes
  lockscope : LockScope
  deriving DecidableEq, Repr

/-- The table of locks, and `p->uri.path`. -/
structure DavLocks where
  table : Finset LockRow
  uriPath : Buffer

/-- `stmt_create_lock`; the token is the primary key. -/
def createLock (table : Finset LockRow) (row : LockRow) : Finset LockRow :=
  if ∃ row' ∈ table, row'.locktoken = row.locktoken then table else insert row table

/-- `stmt_remove_lock`. -/
def removeLock (table : Finset LockRow) (token : Bytes) : Finset LockRow :=
  table.filter fun row => row.locktoken ≠ token

/-- `webdav_has_lock`, with or without an If header. -/
def webdavHasLock (table : Finset LockRow) (hdrIf : Buffer) (uri : Bytes) : Bool :=
  hdrIf.isSome || decide (∀ row ∈ table, row.resource ≠ uri)

/-! ## LOCK -/

/-- A node below the root of the document of a LOCK request, with the names of its children. -/
structure XmlNode where
  name : Bytes
  children : List Bytes
  deriving DecidableEq, Repr

/-- What is read of a LOCK request: `depth`, whether there is a body, the If header, what `stat`
finds at the physical path, whether it can be made, the name of the root of the document in the
body and its children, and the token that is made. -/
structure LockRequest where
  path : Bytes
  depth : ℤ
  hasContent : Bool
  hdrIf : Buffer
  stat : Except Errno Bool
  creates : Bool
  xml : Option (Bytes × List XmlNode)
  token : Bytes

/-- The loop over the children of `lockscope`, which is the last one, unless there is another
element. -/
def lockscopeLoop : Option LockScope → List Bytes → Option (Option LockScope)
  | scope, [] => some scope
  | _, value :: values =>
    if value = str "exclusive" then lockscopeLoop (some .exclusive) values
    else if value = str "shared" then lockscopeLoop (some .shared) values
    else none

/-- The loop over the children of the root: `lockscope`, and whether there is a `locktype`. -/
def lockinfoLoop : Option LockScope → Bool → List XmlNode → Option (Option LockScope × Bool)
  | scope, type, [] => some (scope, type)
  | scope, type, node :: nodes =>
    if node.name = str "lockscope" then
      match lockscopeLoop scope node.children with
      | none => none
      | some scope => lockinfoLoop scope type nodes
    else if node.name = str "locktype" then
      if node.children.all (· = str "write") then
        lockinfoLoop scope (type || !node.children.isEmpty) nodes
      else none
    else lockinfoLoop scope type nodes

/-- The part of LOCK that reads the document. -/
def lockInfo (req : LockRequest) (created : Bool) : Except ℕ (LockScope × Bool) :=
  match req.xml with
  | none => .error 400
  | some (root, nodes) =>
    if root = str "lockinfo" then
      match lockinfoLoop none false nodes with
      | none => .error 400
      | some (some scope, true) => .ok (scope, created)
      | some _ => .error 0
    else .error 0

/-- The part of LOCK in front of the table: a status, or the scope and whether a file was made. -/
def lockChecked (req : LockRequest) : Except ℕ (LockScope × Bool) :=
  if req.depth ≠ 0 ∧ req.depth ≠ -1 then .error 400
  else if ¬ req.hasContent then
    match req.hdrIf with
    | none => .error 400
    | some locktoken => .error (if locktoken.length < 5 then 400 else 200)
  else
    match req.stat with
    | .error .enoent => if req.creates then lockInfo req true else .error 403
    | .error _ => lockInfo req false
    | .ok dir => if req.hdrIf.isNone ∧ req.depth = -1 ∧ dir then .error 409 else lockInfo req false

/-- The loop over the rows of `p->uri.path` leaves the status alone. -/
def LockAccepts (st : DavLocks) (scope : LockScope) : Prop :=
  ∀ row ∈ st.table, st.uriPath = some row.resource →
    ¬ (row.lockscope ≠ .exclusive ∨ scope = .exclusive)

instance (st : DavLocks) (scope : LockScope) : Decidable (LockAccepts st scope) :=
  inferInstanceAs (Decidable (∀ _ ∈ _, _))

/-- LOCK. -/
def davLock (st : DavLocks) (req : LockRequest) : ℕ × DavLocks :=
  match lockChecked req with
  | .error status => (status, st)
  | .ok (scope, created) =>
    if LockAccepts st scope then
      (if created then 201 else 200,
        { st with table := createLock st.table ⟨req.token, req.path, scope⟩ })
    else (423, st)

/-- UNLOCK with or without a Lock-Token header. -/
def davUnlock (st : DavLocks) (lockToken : Buffer) : ℕ × DavLocks :=
  match lockToken with
  | none => (400, st)
  | some locktoken =>
    if locktoken.length < 3 then (400, st)
    else
      let token := (locktoken.drop 1).take (locktoken.length - 2)
      let table := removeLock st.table token
      (if table = st.table then 401 else 204, { st with table := table })

/-- What MOVE or COPY leaves in `p->uri.path`, when it comes to that. -/
def destinationPath (uri : RequestUri) (destination : Bytes) : Option Bytes :=
  match destinationParts destination with
  | none => none
  | some (authority, pathRaw) =>
    if bufferIsEqual (some authority) uri.authority then
      some (bufferPathSimplify (bufferUrldecodePath pathRaw))
    else none

/-- MOVE or COPY, as far as the table and `p->uri.path` are concerned. -/
def davMoveCopy (st : DavLocks) (req : DavRequest) (hdrIf : Buffer) (uri : RequestUri) : DavLocks :=
  if req.isReadonly then st
  else if req.move ∧ ¬ webdavHasLock st.table hdrIf uri.path then st
  else
    match req.destination, overwriteOf req.overwrite with
    | some destination, some _ =>
      match destinationPath uri destination with
      | none => st
      | some path => { st with uriPath := some path }
    | _, _ => st

/-- A request that has to do with locks. -/
inductive LocksRequest
  | lock (req : LockRequest)
  | unlock (lockToken : Buffer)
  | moveCopy (req : DavRequest) (hdrIf : Buffer) (uri : RequestUri)

/-- The state after a request. -/
def DavLocks.step (st : DavLocks) : LocksRequest → DavLocks
  | .lock req => (davLock st req).2
  | .unlock lockToken => (davUnlock st lockToken).2
  | .moveCopy req hdrIf uri => davMoveCopy st req hdrIf uri

/-- No resource with an exclusive lock has another lock. -/
def Exclusive (table : Finset LockRow) : Prop :=
  ∀ row ∈ table, ∀ row' ∈ table, row.resource = row'.resource → row.lockscope = .exclusive →
    row = row'

/-- The locks of a resource allow one more. -/
def Compatible (table : Finset LockRow) (resource : Bytes) (scope : LockScope) : Prop :=
  ∀ row ∈ table, row.resource = resource → row.lockscope = .shared ∧ scope = .shared

/-- A LOCK request that is answered with 423 is for a resource with an exclusive lock, or with a
shared one and an exclusive one is asked for. -/
def Justified (st : DavLocks) : LocksRequest → Prop
  | .lock req => (davLock st req).1 = 423 → ∃ scope created,
      lockChecked req = .ok (scope, created) ∧
        ∃ row ∈ st.table, row.resource = req.path ∧
          (row.lockscope = .exclusive ∨ row.lockscope = .shared ∧ scope = .exclusive)
  | _ => True

/-- `uuid_generate` makes a token that no lock has. -/
def FreshToken (st : DavLocks) : LocksRequest → Prop
  | .lock req => ∀ row ∈ st.table, row.locktoken ≠ req.token
  | _ => True

/-- A LOCK request that comes to the table: the locks of `p->uri.path` are none, or exclusive and a
shared one is asked for, if and only if those of its own path are none, or shared and a shared one
is asked for. -/
def LockMeets (st : DavLocks) : LocksRequest → Prop
  | .lock req => ∀ scope created, lockChecked req = .ok (scope, created) →
      (LockAccepts st scope ↔ Compatible st.table req.path scope)
  | _ => True

/-- A new row keeps the locks exclusive exactly if they allow it. -/
theorem exclusive_createLock_iff {table : Finset LockRow} (h : Exclusive table) {row : LockRow}
    (hfresh : ∀ row' ∈ table, row'.locktoken ≠ row.locktoken) :
    Exclusive (createLock table row) ↔ Compatible table row.resource row.lockscope := by
  have hnew : createLock table row = insert row table :=
    if_neg (by
      rintro ⟨row', hmem, htoken⟩
      exact hfresh row' hmem htoken)
  have hne : ∀ row' ∈ table, row' ≠ row := fun row' hmem he => hfresh row' hmem (he ▸ rfl)
  rw [hnew]
  constructor
  · intro hex row' hmem hres
    have hmem' := Finset.mem_insert_of_mem (b := row) hmem
    have hself := Finset.mem_insert_self row table
    have hshared : row'.lockscope = .shared := by
      cases hscope : row'.lockscope with
      | shared => rfl
      | exclusive => exact absurd (hex row' hmem' row hself hres hscope) (hne row' hmem)
    refine ⟨hshared, ?_⟩
    cases hscope : row.lockscope with
    | shared => rfl
    | exclusive => exact absurd (hex row hself row' hmem' hres.symm hscope).symm (hne row' hmem)
  · intro hcomp row₁ hrow₁ row₂ hrow₂ hres hscope
    rcases Finset.mem_insert.mp hrow₁ with he₁ | h₁
    · rcases Finset.mem_insert.mp hrow₂ with he₂ | h₂
      · exact he₁.trans he₂.symm
      · rw [he₁] at hres hscope
        rw [(hcomp row₂ h₂ hres.symm).2] at hscope
        cases hscope
    · rcases Finset.mem_insert.mp hrow₂ with he₂ | h₂
      · rw [he₂] at hres
        rw [(hcomp row₁ h₁ hres).1] at hscope
        cases hscope
      · exact h row₁ h₁ row₂ h₂ hres hscope

theorem exclusive_removeLock {table : Finset LockRow} (h : Exclusive table) (token : Bytes) :
    Exclusive (removeLock table token) := fun row₁ h₁ row₂ h₂ =>
  h row₁ (Finset.mem_filter.mp h₁).1 row₂ (Finset.mem_filter.mp h₂).1

theorem not_compatible_iff {table : Finset LockRow} {resource : Bytes} {scope : LockScope} :
    ¬ Compatible table resource scope ↔ ∃ row ∈ table, row.resource = resource ∧
      (row.lockscope = .exclusive ∨ row.lockscope = .shared ∧ scope = .exclusive) := by
  unfold Compatible
  push Not
  refine exists_congr fun row => and_congr_right fun _ => and_congr_right fun _ => ?_
  cases row.lockscope <;> cases scope <;> simp

theorem lockChecked_ne {req : LockRequest} {status : ℕ} (h : lockChecked req = .error status) :
    status ≠ 423 := by
  have hinfo : ∀ created, lockInfo req created = .error status → status ≠ 423 := by
    intro created hinfo
    unfold lockInfo at hinfo
    split at hinfo
    · simp only [Except.error.injEq] at hinfo
      omega
    · split_ifs at hinfo
      · split at hinfo
        · simp only [Except.error.injEq] at hinfo
          omega
        · cases hinfo
        · simp only [Except.error.injEq] at hinfo
          omega
      · simp only [Except.error.injEq] at hinfo
        omega
  have hite : ∀ {c : Prop} [Decidable c] {x y : Except ℕ (LockScope × Bool)},
      (if c then x else y) = .error status → x = .error status ∨ y = .error status := by
    intro c _ x y he
    split_ifs at he
    · exact .inl he
    · exact .inr he
  have hnum : ∀ n : ℕ, n ≠ 423 → (.error n : Except ℕ (LockScope × Bool)) = .error status →
      status ≠ 423 := fun n hn he => Except.error.inj he ▸ hn
  unfold lockChecked at h
  rcases hite h with h | h
  · exact hnum 400 (by decide) h
  rcases hite h with h | h
  · split at h
    · exact hnum 400 (by decide) h
    · refine hnum _ ?_ h
      split_ifs <;> decide
  · split at h
    · rcases hite h with h | h
      · exact hinfo _ h
      · exact hnum 403 (by decide) h
    · exact hinfo _ h
    · rcases hite h with h | h
      · exact hnum 409 (by decide) h
      · exact hinfo _ h

/-- A request keeps the locks exclusive and is not refused without a reason exactly if it meets
the condition. -/
theorem step_excludes_iff {st : DavLocks} (h : Exclusive st.table) {r : LocksRequest}
    (hfresh : FreshToken st r) :
    Exclusive (st.step r).table ∧ Justified st r ↔ LockMeets st r := by
  cases r with
  | unlock lockToken =>
    refine iff_of_true ⟨?_, trivial⟩ trivial
    unfold DavLocks.step davUnlock
    dsimp only
    split
    · exact h
    · split_ifs
      · exact h
      · exact exclusive_removeLock h _
      · exact exclusive_removeLock h _
  | moveCopy req hdrIf uri =>
    refine iff_of_true ⟨?_, trivial⟩ trivial
    have htable : (davMoveCopy st req hdrIf uri).table = st.table := by
      unfold davMoveCopy
      split_ifs
      · rfl
      · rfl
      · split
        · split <;> rfl
        · rfl
    exact htable.symm ▸ h
  | lock req =>
    simp only [DavLocks.step, Justified, LockMeets, davLock]
    cases hcheck : lockChecked req with
    | error status =>
      have := lockChecked_ne hcheck
      simp [h, this]
    | ok info =>
      obtain ⟨scope, created⟩ := info
      simp only [Except.ok.injEq, Prod.mk.injEq, and_imp, forall_apply_eq_imp_iff, forall_eq']
      by_cases hacc : LockAccepts st scope
      · have hcreate := @exclusive_createLock_iff _ h ⟨req.token, req.path, scope⟩ hfresh
        rw [if_pos hacc, hcreate]
        simp only [hacc, true_iff]
        refine and_iff_left fun hstatus => absurd hstatus ?_
        split_ifs <;> decide
      · rw [if_neg hacc]
        simp only [hacc, false_iff, h, true_and, not_compatible_iff]
        constructor
        · intro hjust
          obtain ⟨_, _, ⟨rfl, rfl⟩, hrow⟩ := hjust trivial
          exact hrow
        · exact fun hrow _ => ⟨scope, created, ⟨rfl, rfl⟩, hrow⟩

/-! ## Runs -/

/-- A property of the states of a run and the requests in them. -/
def Along (P : DavLocks → LocksRequest → Prop) : DavLocks → List LocksRequest → Prop
  | _, [] => True
  | st, r :: reqs => P st r ∧ Along P (st.step r) reqs

/-- In every state of a run the locks are exclusive, and no request is refused without a reason. -/
def LocksExclude : DavLocks → List LocksRequest → Prop
  | st, [] => Exclusive st.table
  | st, r :: reqs => Exclusive st.table ∧ Justified st r ∧ LocksExclude (st.step r) reqs

theorem LocksExclude.exclusive : ∀ {reqs : List LocksRequest} {st : DavLocks},
    LocksExclude st reqs → Exclusive st.table
  | [], _, h => h
  | _ :: _, _, h => h.1

/-- For every run in which the tokens are new: the locks exclude each other in all of its states and
LOCK is refused for a reason only, exactly if every LOCK request meets the condition in the state
that it comes to. -/
theorem lockRun_excludes_iff : ∀ {reqs : List LocksRequest} {st : DavLocks}, Exclusive st.table →
    Along FreshToken st reqs → (LocksExclude st reqs ↔ Along LockMeets st reqs)
  | [], st, h, _ => iff_of_true h trivial
  | r :: reqs, st, h, hfresh => by
    have hstep := step_excludes_iff h hfresh.1
    constructor
    · rintro ⟨-, hjust, hrest⟩
      exact ⟨hstep.mp ⟨hrest.exclusive, hjust⟩,
        (lockRun_excludes_iff hrest.exclusive hfresh.2).mp hrest⟩
    · rintro ⟨hmeets, hrest⟩
      obtain ⟨hex, hjust⟩ := hstep.mpr hmeets
      exact ⟨h, hjust, (lockRun_excludes_iff hex hfresh.2).mpr hrest⟩

/-- A request for a lock on `/a`. -/
def lockFile (scope : String) (token : Bytes) : LocksRequest :=
  .lock ⟨str "/a", 0, true, none, .ok false, true,
    some (str "lockinfo", [⟨str "lockscope", [str scope]⟩, ⟨str "locktype", [str "write"]⟩]), token⟩

/-- The state at the start. -/
def noLocks : DavLocks := ⟨∅, none⟩

theorem exclusive_noLocks : Exclusive noLocks.table := fun _ h => absurd h (Finset.notMem_empty _)

/-- One lock. -/
theorem lockRun_excludes_oneLock :
    LocksExclude noLocks [lockFile "exclusive" (str "t")] ↔
      Along LockMeets noLocks [lockFile "exclusive" (str "t")] :=
  lockRun_excludes_iff exclusive_noLocks
    ⟨fun _ h => absurd h (Finset.notMem_empty _), trivial⟩

/-- Two exclusive locks of one resource. -/
theorem not_lockRun_excludes :
    ¬ ∀ (reqs : List LocksRequest) (st : DavLocks), Exclusive st.table →
      Along FreshToken st reqs → LocksExclude st reqs := by
  intro h
  have hfresh : Along FreshToken noLocks
      [lockFile "exclusive" (str "t"), lockFile "exclusive" (str "u")] := by
    refine ⟨fun _ h => absurd h (Finset.notMem_empty _), ?_, trivial⟩
    change ∀ row ∈ (noLocks.step (lockFile "exclusive" (str "t"))).table, row.locktoken ≠ str "u"
    decide +kernel
  have hrun := (h [lockFile "exclusive" (str "t"), lockFile "exclusive" (str "u")] noLocks
    exclusive_noLocks hfresh).2.2.2.2
  have hrow := hrun ⟨str "t", str "/a", .exclusive⟩ (by decide +kernel)
    ⟨str "u", str "/a", .exclusive⟩ (by decide +kernel) rfl rfl
  exact absurd hrow (by decide)

end Lighttpd
