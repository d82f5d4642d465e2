import Lighttpd.WebdavDestination
import Lighttpd.Lib.FileTree

/-!
# COPY and MOVE

`mod_webdav` copies a file or the content of a directory, and for MOVE deletes the source behind
that, unless a file can be renamed. The system calls fail as an environment says, which is asked at
every call with the number of calls made so far.
-/

namespace Lighttpd

open CString PathSegments FileTree

/-! ## Files -/

/-- The name of a file in its directory. -/
def FileName := {n : Bytes // ¬ IsDots dotChar n ∧ slashChar ∉ n}

instance : DecidableEq FileName := inferInstanceAs (DecidableEq (Subtype _))

/-- A segment of a path as a name. -/
def FileName.ofBytes? (n : Bytes) : Option FileName :=
  if h : ¬ IsDots dotChar n ∧ slashChar ∉ n then some ⟨n, h⟩ else none

/-- The names that a path leads through. -/
def pathNames (path : Bytes) : List FileName :=
  ((path.splitOn slashChar).foldl (resolveStep dotChar) []).filterMap FileName.ofBytes?

/-- The path ends as the path of a directory only. -/
def endsInDots (path : Bytes) : Bool := decide (IsDots dotChar (lastSegment slashChar path))

/-- The files below the root. -/
abbrev Files := Tree FileName Bytes

/-- The errors that are told apart. -/
inductive Errno
  | enoent
  | enotdir
  | eexist
  | eisdir
  | enospc
  | other
  deriving DecidableEq, Repr

/-- Why there is nothing at a path. -/
def Files.missing (t : Files) (p : List FileName) : Errno :=
  if (List.range p.length).any fun k => decide (t.get (p.take k) ≠ some .dir) &&
    (t.get (p.take k)).isSome then .enotdir else .enoent

/-- `stat`. -/
def Files.stat (t : Files) (path : Bytes) : Except Errno (Node Bytes) :=
  match t.get (pathNames path) with
  | none => .error (t.missing (pathNames path))
  | some .dir => .ok .dir
  | some (.file c) => if endsInDots path then .error .enotdir else .ok (.file c)

/-- `mkdir`. -/
def Files.mkdir (t : Files) (path : Bytes) : Except Errno Files :=
  let p := pathNames path
  match t.get p with
  | some _ => .error .eexist
  | none => if t.get p.dropLast = some .dir then .ok (t.set p .dir) else .error (t.missing p)

/-- `open` with `O_WRONLY|O_TRUNC|O_CREAT`, and with `O_EXCL`. -/
def Files.openWrite (t : Files) (path : Bytes) (excl : Bool) : Except Errno Files :=
  let p := pathNames path
  match t.get p with
  | some .dir => .error (if excl then .eexist else .eisdir)
  | some (.file _) =>
    if endsInDots path then .error .eisdir
    else if excl then .error .eexist else .ok (t.set p (.file []))
  | none =>
    if t.get p.dropLast ≠ some .dir then .error (t.missing p)
    else if endsInDots path then .error .eisdir else .ok (t.set p (.file []))

/-- The content of a file. -/
def Files.content (t : Files) (path : Bytes) : Bytes :=
  match t.get (pathNames path) with
  | some (.file c) => c
  | _ => []

/-- Bytes are written at the end of a file. -/
def Files.append (t : Files) (path bytes : Bytes) : Files :=
  match t.get (pathNames path) with
  | some (.file c) => t.set (pathNames path) (.file (c ++ bytes))
  | _ => t

/-- `unlink`. -/
def Files.unlink (t : Files) (path : Bytes) : Except Errno Files :=
  match t.stat path with
  | .ok (.file _) => .ok (t.remove (pathNames path))
  | .ok .dir => .error .eisdir
  | .error e => .error e

/-- `rmdir`. -/
def Files.rmdir (t : Files) (path : Bytes) : Except Errno Files :=
  let p := pathNames path
  if p ≠ [] ∧ t.get p = some .dir ∧ t.entries p = [] then .ok (t.remove p) else .error .other

/-- `opendir` and the names that `readdir` returns. -/
def Files.opendir (t : Files) (path : Bytes) : Except Errno (List FileName) :=
  match t.stat path with
  | .ok .dir => .ok (t.entries (pathNames path))
  | .ok (.file _) => .error .enotdir
  | .error e => .error e

/-- `rename` of a file. -/
def Files.rename (t : Files) (old new : Bytes) : Except Errno Files :=
  let p := pathNames new
  match t.stat old with
  | .error e => .error e
  | .ok .dir => .error .other
  | .ok (.file c) =>
    if t.get p = some .dir then .error .eisdir
    else if t.get p.dropLast ≠ some .dir then .error (t.missing p)
    else if endsInDots new then .error .enotdir
    else if pathNames old = p then .ok t
    else .ok ((t.set p (.file c)).remove (pathNames old))

/-! ## System calls -/

/-- The places of the system calls. -/
inductive DavCall
  | statSource
  | statDestination
  | statInto
  | mkdirDestination
  | unlinkDestination
  | opendir (dir : List FileName)
  | statEntry (entry : List FileName)
  | mkdirEntry (entry : List FileName)
  | openSource (file : List FileName)
  | openDestination (file : List FileName)
  | read (file : List FileName)
  | write (file : List FileName)
  | close (file : List FileName)
  | rename
  | deleteOpendir (dir : List FileName)
  | deleteStat (entry : List FileName)
  | deleteUnlink (file : List FileName)
  | deleteRmdir (dir : List FileName)
  | rmdirSource
  deriving DecidableEq

/-- Which calls fail, how much `read` and `write` take at most, whether the module is built with
`USE_PROPPATCH`, and what `webdav_has_lock` returns. -/
structure DavEnv where
  fails : ℕ → DavCall → Option Errno
  readLength : ℕ → ℕ
  writeLength : ℕ → ℕ
  usePropPatch : Bool
  hasLock : Bytes → Bool

/-- The files, and the number of system calls so far. -/
structure Disk where
  files : Files
  calls : ℕ

/-- A system call. -/
def Disk.call {α : Type} (env : DavEnv) (c : DavCall) (f : Files → Except Errno (α × Files))
    (s : Disk) : Except Errno α × Disk :=
  match env.fails s.calls c with
  | some e => (.error e, ⟨s.files, s.calls + 1⟩)
  | none =>
    match f s.files with
    | .error e => (.error e, ⟨s.files, s.calls + 1⟩)
    | .ok (a, t) => (.ok a, ⟨t, s.calls + 1⟩)

/-- A system call that changes the files, or fails. -/
def Disk.change (env : DavEnv) (c : DavCall) (f : Files → Except Errno Files) (s : Disk) :
    Except Errno Unit × Disk :=
  s.call env c fun t => (f t).map fun t' => ((), t')

/-- A system call that looks at the files. -/
def Disk.look {α : Type} (env : DavEnv) (c : DavCall) (f : Files → Except Errno α) (s : Disk) :
    Except Errno α × Disk :=
  s.call env c fun t => (f t).map fun a => (a, t)

/-- The inner loop: a piece that was read is written. -/
def writeLoop (env : DavEnv) (dst : Bytes) : ℕ → Bytes → Disk → Option Errno × Disk
  | 0, _, s => (none, s)
  | n + 1, piece, s =>
    if piece = [] then (none, s)
    else
      let wr := max 1 (min (env.writeLength s.calls) piece.length)
      match s.change env (.write (pathNames dst)) fun t => .ok (t.append dst (piece.take wr)) with
      | (.error e, s) => (some e, s)
      | (.ok _, s) => writeLoop env dst n (piece.drop wr) s

/-- The status of a write that fails. -/
def writeStatus (e : Errno) : ℕ := if e = .enospc then 507 else 403

/-- The outer loop over the data that is still to be read. -/
def copyLoop (env : DavEnv) (src dst : Bytes) : ℕ → Bytes → Disk → ℕ × Disk
  | 0, _, s => (0, s)
  | n + 1, data, s =>
    match s.look env (.read (pathNames src)) fun _ => .ok () with
    | (.error _, s) => (403, s)
    | (.ok _, s) =>
      if data = [] then (0, s)
      else
        let rd := max 1 (min (min (env.readLength s.calls) 131072) data.length)
        match writeLoop env dst rd (data.take rd) s with
        | (some e, s) => (writeStatus e, s)
        | (none, s) => copyLoop env src dst n (data.drop rd) s

/-- The status of a destination that is not opened. -/
def openStatus : Errno → ℕ
  | .eexist => 412
  | .eisdir => 409
  | .enoent => 409
  | _ => 403

/-- `webdav_copy_file`. -/
def webdavCopyFile (env : DavEnv) (overwrite : Bool) (src dst : Bytes) (s : Disk) : ℕ × Disk :=
  match s.look env (.openSource (pathNames src)) fun t => t.stat src with
  | (.error _, s) => (403, s)
  | (.ok _, s) =>
    match s.change env (.openDestination (pathNames dst)) fun t => t.openWrite dst (!overwrite) with
    | (.error e, s) => (openStatus e, s)
    | (.ok _, s) =>
      let data := s.files.content src
      match copyLoop env src dst (data.length + 1) data s with
      | (status, s) =>
        match s.look env (.close (pathNames dst)) fun _ => .ok () with
        | (.error e, s) => (if status = 0 then writeStatus e else status, s)
        | (.ok _, s) => (status, s)

/-- The path of an entry. -/
def entryPath (dir : Bytes) (name : FileName) : Bytes := bufferAppendSlash dir ++ name.val

/-- An entry of the loop of `webdav_copy_dir`. -/
def copyEntry (env : DavEnv) (overwrite : Bool)
    (copyDir : Bytes → Bytes → Disk → Option (ℕ × Disk)) (src dst : Bytes) (name : FileName)
    (s : Disk) : Option (ℕ × Disk) :=
  let sp := entryPath src name
  let dp := entryPath dst name
  match s.look env (.statEntry (pathNames sp)) fun t => t.stat sp with
  | (.error _, s) => some (0, s)
  | (.ok (.file _), s) => some (webdavCopyFile env overwrite sp dp s)
  | (.ok .dir, s) =>
    match s.change env (.mkdirEntry (pathNames dp)) fun t => t.mkdir dp with
    | (.error .eexist, s) => if env.usePropPatch then copyDir sp dp s else some (0, s)
    | (.error _, s) => some (0, s)
    | (.ok _, s) => if env.usePropPatch then copyDir sp dp s else some (0, s)

/-- The loop of `webdav_copy_dir`. -/
def copyEntries (entry : FileName → Disk → Option (ℕ × Disk)) :
    List FileName → Disk → Option (ℕ × Disk)
  | [], s => some (0, s)
  | name :: names, s =>
    match entry name s with
    | none => none
    | some (status, s) => if status ≠ 0 then some (status, s) else copyEntries entry names s

/-- `webdav_copy_dir`; the first argument bounds how deep it goes. -/
def webdavCopyDir (env : DavEnv) (overwrite : Bool) :
    ℕ → Bytes → Bytes → Disk → Option (ℕ × Disk)
  | 0, _, _, _ => none
  | n + 1, src, dst, s =>
    match s.look env (.opendir (pathNames src)) fun t => t.opendir src with
    | (.error _, s) => some (0, s)
    | (.ok names, s) =>
      copyEntries (copyEntry env overwrite (webdavCopyDir env overwrite n) src dst) names s

/-- An entry of the loop of `webdav_delete_dir`. -/
def deleteEntry (env : DavEnv) (deleteDir : Bytes → Disk → Option Disk) (dst : Bytes)
    (name : FileName) (s : Disk) : Option Disk :=
  let d := entryPath dst name
  match s.look env (.deleteStat (pathNames d)) fun t => t.stat d with
  | (.error _, s) => some s
  | (.ok .dir, s) =>
    (deleteDir d s).map fun s => (s.change env (.deleteRmdir (pathNames d)) fun t => t.rmdir d).2
  | (.ok (.file _), s) => some (s.change env (.deleteUnlink (pathNames d)) fun t => t.unlink d).2

/-- The loop of `webdav_delete_dir`. -/
def deleteEntries (entry : FileName → Disk → Option Disk) : List FileName → Disk → Option Disk
  | [], s => some s
  | name :: names, s => (entry name s).bind (deleteEntries entry names)

/-- `webdav_delete_dir`; the first argument bounds how deep it goes. -/
def webdavDeleteDir (env : DavEnv) : ℕ → Bytes → Disk → Option Disk
  | 0, _, _ => none
  | n + 1, dst, s =>
    match s.look env (.deleteOpendir (pathNames dst)) fun t => t.opendir dst with
    | (.error _, s) => some s
    | (.ok names, s) => deleteEntries (deleteEntry env (webdavDeleteDir env n) dst) names s

/-! ## The request -/

/-- What is read of a request. -/
structure DavRequest where
  move : Bool
  isReadonly : Bool
  destination : Buffer
  overwrite : Buffer
  deriving DecidableEq, Repr

/-- The part for a directory behind the destination: `created` when that was made. -/
def moveCopyContent (env : DavEnv) (move overwrite : Bool) (src dst : Bytes) (created : Bool)
    (s : Disk) : Option (ℕ × Disk) :=
  let status := if created then 201 else 204
  match webdavCopyDir env overwrite (s.files.depth + 1) src dst s with
  | none => none
  | some (r, s) =>
    if r ≠ 0 then some (r, s)
    else if move then
      (webdavDeleteDir env (s.files.depth + 1) src s).map fun s =>
        (status, (s.change env .rmdirSource fun t => t.rmdir src).2)
    else some (status, s)

/-- The part for a directory without a directory as the destination. -/
def moveCopyCreate (env : DavEnv) (move overwrite : Bool) (src dst : Bytes) (s : Disk) :
    Option (ℕ × Disk) :=
  match s.change env .mkdirDestination fun t => t.mkdir dst with
  | (.error _, s) => some (403, s)
  | (.ok _, s) => moveCopyContent env move overwrite src dst true s

/-- The part for a directory, behind `stat` of the source. -/
def moveCopyDir (env : DavEnv) (move overwrite : Bool) (src dst : Bytes) (s : Disk) :
    Option (ℕ × Disk) :=
  if src.getLast? ≠ some slashChar then some (301, s)
  else
    match s.look env .statDestination fun t => t.stat dst with
    | (.error _, s) => moveCopyCreate env move overwrite src dst s
    | (.ok (.file _), s) =>
      if overwrite then
        moveCopyCreate env move overwrite src dst
          (s.change env .unlinkDestination fun t => t.unlink dst).2
      else some (409, s)
    | (.ok .dir, s) => moveCopyContent env move overwrite src dst false s

/-- The part for a file behind the copy: `status` is the status when nothing fails. -/
def moveCopyData (env : DavEnv) (move overwrite : Bool) (src dst : Bytes) (status : ℕ) (s : Disk) :
    ℕ × Disk :=
  match webdavCopyFile env overwrite src dst s with
  | (r, s) =>
    if r ≠ 0 then (r, s)
    else if move then
      (status, (s.change env (.deleteUnlink (pathNames src)) fun t => t.unlink src).2)
    else (status, s)

/-- The part for a file behind the checks of the destination. -/
def moveCopyOnto (env : DavEnv) (move overwrite : Bool) (src dst : Bytes) (status : ℕ) (s : Disk) :
    ℕ × Disk :=
  if move then
    match s.change env .rename fun t => t.rename src dst with
    | (.ok _, s) => (status, s)
    | (.error _, s) => moveCopyData env move overwrite src dst status s
  else moveCopyData env move overwrite src dst status s

/-- The part for a file behind `stat` of the destination, of which `r` is the result; `destdir`
when the destination was a directory. -/
def moveCopyTo (env : DavEnv) (move overwrite : Bool) (src dst : Bytes) (destdir : Bool)
    (r : Except Errno (Node Bytes)) (s : Disk) : ℕ × Disk :=
  match r with
  | .error .enotdir => (409, s)
  | .error _ => moveCopyOnto env move overwrite src dst (if destdir then 204 else 201) s
  | .ok _ => if overwrite then moveCopyOnto env move overwrite src dst 204 s else (412, s)

/-- The basename with its slash that is appended to a directory. -/
def davBasename (src : Bytes) : Bytes := slashChar :: lastSegment slashChar src

/-- The part for a file, behind `stat` of the source. -/
def moveCopyFile (env : DavEnv) (move overwrite : Bool) (src dst : Bytes) (s : Disk) : ℕ × Disk :=
  match s.look env .statDestination fun t => t.stat dst with
  | (.ok .dir, s) =>
    if slashChar ∈ src then
      match s.look env .statInto fun t => t.stat (dst ++ davBasename src) with
      | (r, s) => moveCopyTo env move overwrite src (dst ++ davBasename src) true r s
    else moveCopyTo env move overwrite src dst true (.ok .dir) s
  | (r, s) => moveCopyTo env move overwrite src dst false r s

/-- `overwrite` of a request, unless it is answered with 400. -/
def overwriteOf (overwrite : Buffer) : Option Bool :=
  match overwrite with
  | none => some true
  | some [c] => if c = 70 then some false else if c = 84 then some true else none
  | some _ => none

/-- The part of `mod_webdav_subrequest_handler_huge` for COPY and MOVE. -/
def webdavMoveCopy (env : DavEnv) (conf : ResponseConf) (req : DavRequest) (uri : RequestUri)
    (physical : Physical) (s : Disk) : Option (ℕ × Disk) :=
  if req.isReadonly then some (403, s)
  else if req.move ∧ ¬ env.hasLock uri.path then some (423, s)
  else
    match req.destination with
    | none => some (400, s)
    | some destination =>
      match overwriteOf req.overwrite with
      | none => some (400, s)
      | some overwrite =>
        match webdavDestination conf uri physical destination with
        | .error status => some (status, s)
        | .ok (dst, p) =>
          match s.look env .statSource fun t => t.stat physical.path with
          | (.error e, s) => some (if e = .enoent then 404 else 403, s)
          | (.ok .dir, s) => moveCopyDir env req.move overwrite physical.path p.path s
          | (.ok (.file _), s) =>
            if env.hasLock dst then
              some (moveCopyFile env req.move overwrite physical.path p.path s)
            else some (423, s)

theorem FileName.ofBytes?_val (n : FileName) : FileName.ofBytes? n.val = some n := by
  rw [FileName.ofBytes?, dif_pos n.property]
  rfl

theorem pathNames_append_slash (dir : Bytes) (name : FileName) :
    pathNames (dir ++ slashChar :: name.val) = pathNames dir ++ [name] := by
  rw [pathNames, List.splitOn_append_cons_self, List.splitOn_eq_singleton name.property.2,
    List.foldl_append, List.foldl_cons, List.foldl_nil, resolveStep_of_not_isDots name.property.1,
    List.filterMap_append, List.filterMap_cons_some name.ofBytes?_val, List.filterMap_nil]
  rfl

theorem pathNames_concat_slash (dir : Bytes) : pathNames (dir ++ [slashChar]) = pathNames dir := by
  rw [pathNames, List.splitOn_append_cons_self, List.splitOn_nil, List.foldl_append, List.foldl_cons,
    List.foldl_nil, resolveStep, if_neg (by simp), if_pos (.inl rfl)]
  rfl

theorem pathNames_entryPath (dir : Bytes) (name : FileName) :
    pathNames (entryPath dir name) = pathNames dir ++ [name] := by
  unfold entryPath
  rcases eq_or_ne dir [] with rfl | hdir
  · have := pathNames_append_slash [] name
    rw [pathNames, List.nil_append, List.splitOn_cons_eq_if_modifyHead] at this
    simpa [bufferAppendSlash, pathNames, resolveStep] using this
  · rw [bufferAppendSlash_of_ne_nil hdir, List.append_assoc, List.singleton_append,
      pathNames_append_slash]
    split_ifs with hlast
    · obtain ⟨a, rfl⟩ := List.getLast?_eq_some_iff.mp hlast
      rw [List.dropLast_concat, pathNames_concat_slash]
    · rfl

end Lighttpd
