import Lighttpd.Alias

/-!
# PATH_INFO

Where the file of a request does not exist because a part of its path is no directory,
`http_response_physical_path_check` looks for a regular file among the parts of `physical.path`
that end at a slash behind `physical.basedir`. What follows the file is `request.pathinfo`, and
`uri.path` is shortened by its length, whatever its end is.

The paths of the file system are given, with what the stat cache finds for each of them.
`physicalPathCheck_exact_iff` says when a split is that of `uri.path` too.
-/

namespace Lighttpd

open CString

/-- What `stat` sets `errno` to. -/
inductive StatError
  | eacces
  | enametoolong
  | enoent
  | enotdir
  | other
  deriving DecidableEq, Repr

/-- What a path names. -/
inductive PathKind
  | regular
  | directory
  | special
  deriving DecidableEq, Repr

/-- What `stat` and, for a regular file, `open` say of a path, and whether a part of it is a
symbolic link. -/
structure PathTree where
  stat : Bytes → Except StatError PathKind
  unreadable : Bytes → Option StatError
  isSymlink : Bytes → Bool

/-- `stat_cache_get_entry` while nothing changes. -/
def PathTree.entry (t : PathTree) (name : Bytes) : Except StatError PathKind :=
  match t.stat name with
  | .error e => .error e
  | .ok .regular =>
    if name.getLast? = some slashChar then .error .enotdir
    else
      match t.unreadable name with
      | some e => .error e
      | none => .ok .regular
  | .ok kind => .ok kind

/-! ## The check -/

/-- What the check reads of a connection. -/
structure PathCon where
  requestUri : Bytes
  uriPath : Bytes
  basedir : Bytes
  path : Bytes
  followSymlink : Bool
  forceLowercaseFilenames : Bool
  deriving DecidableEq, Repr

/-- What the check leaves: whether it returns `HANDLER_GO_ON`, `http_status` if it sets it,
`uri.path`, `physical.path` and `request.pathinfo`, as far as they were set. -/
structure PathChecked where
  goOn : Bool
  httpStatus : Option ℕ
  uriPath : Bytes
  path : Bytes
  pathinfo : Option Bytes
  deriving DecidableEq, Repr

/-- The length of `physical.basedir` without a slash at its end. -/
def PathCon.baseLen (con : PathCon) : ℕ :=
  if con.basedir.getLast? = some slashChar then con.basedir.length - 1 else con.basedir.length

/-- The loop over the slashes of the path: `front` is what stands before `pathinfo`, `sce` what was
found last. The result is `pathinfo`, with what stands before it, and `sce`. -/
def pathinfoLoop (t : PathTree) : ℕ → Option PathKind → Bytes × Bytes → Bytes → Bytes →
    Option (Bytes × Bytes) × Option PathKind
  | 0, sce, _, _, _ => (none, sce)
  | n + 1, sce, pprev, front, pathinfo =>
    match t.entry front with
    | .error _ => (if (front, pathinfo) ≠ pprev then some pprev else none, sce)
    | .ok kind =>
      if kind ≠ .directory then (some (front, pathinfo), some kind)
      else
        match strchr pathinfo.tail slashChar with
        | none => (none, some kind)
        | some k =>
          pathinfoLoop t n (some kind) (front, pathinfo) (front ++ pathinfo.take (k + 1))
            (pathinfo.drop (k + 1))

/-- What the loop ends with, if it is a regular file. -/
def regularFile : Option (Bytes × Bytes) × Option PathKind → Option (Bytes × Bytes)
  | (split, some .regular) => split
  | _ => none

/-- The regular file in the path with what follows it. -/
def pathinfoSplit (t : PathTree) (con : PathCon) : Option (Bytes × Bytes) :=
  let front := con.path.take con.baseLen
  let pathinfo := con.path.drop con.baseLen
  if pathinfo.head? ≠ some slashChar then none
  else regularFile (pathinfoLoop t pathinfo.length none (front, pathinfo) front pathinfo)

/-- `request.pathinfo`, in the case of the request URI where that has the same end. -/
def requestPathinfo (con : PathCon) (pathinfo : Bytes) : Bytes :=
  let rest := con.requestUri.drop (con.requestUri.length - pathinfo.length)
  if con.forceLowercaseFilenames ∧ pathinfo.length ≤ con.requestUri.length ∧ CaseEq rest pathinfo
  then rest else pathinfo

/-- The check of what was found: symbolic links, and directories without a slash at their end. -/
def checkFound (t : PathTree) (con : PathCon) (kind : PathKind) (r : PathChecked) : PathChecked :=
  if t.isSymlink r.path ∧ ¬ con.followSymlink then
    { r with goOn := false, httpStatus := some 403, path := [] }
  else if kind = .directory ∧ r.uriPath.getLast? ≠ some slashChar then
    { r with goOn := false, httpStatus := some 301 }
  else { r with goOn := true }

/-- `http_response_physical_path_check`; `none` is an assertion that fails, for a length below
zero. -/
def physicalPathCheck (t : PathTree) (con : PathCon) : Option PathChecked :=
  let r : PathChecked := ⟨false, none, con.uriPath, con.path, none⟩
  match t.entry con.path with
  | .ok kind => some (checkFound t con kind r)
  | .error .eacces => some { r with httpStatus := some 403, path := [] }
  | .error .enametoolong => some { r with httpStatus := some 404, path := [] }
  | .error .enoent => some { r with httpStatus := some 404, path := [] }
  | .error .other => some { r with httpStatus := some 500, path := [] }
  | .error .enotdir =>
    match pathinfoSplit t con with
    | none => some { r with httpStatus := some 404, path := [] }
    | some (front, pathinfo) =>
      if con.uriPath.length < pathinfo.length then none
      else
        some (checkFound t con .regular
          { r with
            uriPath := con.uriPath.take (con.uriPath.length - pathinfo.length)
            path := front
            pathinfo := some (requestPathinfo con pathinfo) })

/-- The path of a request, behind an alias or not. -/
def aliasedCon (conf : ResponseConf) (aliases : DataArray Buffer) (front : FrontBytes)
    (path requestUri : Bytes) (followSymlink : Bool) : PathCon :=
  let physical := modAliasPhysicalHandler conf aliases front (requestPhysical conf path)
  { requestUri, uriPath := path, basedir := physical.basedir.string, path := physical.path
    followSymlink, forceLowercaseFilenames := conf.forceLowercaseFilenames }

/-- The parts of the path behind `physical.basedir` and in front of a slash, up to a length, are
directories. -/
def DirectoriesTo (t : PathTree) (con : PathCon) (len : ℕ) : Prop :=
  ∀ f i, con.path = f ++ i → i.head? = some slashChar → con.baseLen ≤ f.length → f.length < len →
    t.entry f = .ok .directory

/-- The path goes on behind a regular file. -/
structure SplitAt (t : PathTree) (con : PathCon) (front info : Bytes) : Prop where
  missing : t.entry con.path = .error .enotdir
  start : (con.path.drop con.baseLen).head? = some slashChar
  parts : con.path = front ++ info
  slash : info.head? = some slashChar
  below : con.baseLen ≤ front.length
  file : t.entry front = .ok .regular
  directories : DirectoriesTo t con front.length

/-- A text ends in another one up to letter case. -/
def EndsCaseless (info path : Bytes) : Prop := ∃ v, v <:+ path ∧ CaseEq v info

/-- The path and `uri.path` are both split at the file that is found. -/
def ExactSplit (t : PathTree) (con : PathCon) (r : PathChecked) : Prop :=
  ∃ info, con.path = r.path ++ info ∧ info.head? = some slashChar ∧
    t.entry r.path = .ok .regular ∧ CaseEq (r.uriPath ++ info) con.uriPath ∧
    (∃ p, r.pathinfo = some p ∧ (p = info ∨ con.forceLowercaseFilenames ∧ CaseEq p info)) ∧
    DirectoriesTo t con r.path.length

/-- No assertion fails, a path that does not exist is split exactly if the request goes on, and in
all other cases `uri.path` is the one that it was. -/
def ChecksExactly (t : PathTree) (con : PathCon) : Prop :=
  ∃ r, physicalPathCheck t con = some r ∧
    (r.goOn = true ∧ (∃ e, t.entry con.path = .error e) → ExactSplit t con r) ∧
      (¬ (r.goOn = true ∧ ∃ e, t.entry con.path = .error e) → r.uriPath = con.uriPath)

/-- A split at `physical.basedir` itself leaves an end of `uri.path`, and the file of a split is no
symbolic link that is refused. -/
def PathinfoFits (t : PathTree) (con : PathCon) : Prop :=
  ∀ front info, SplitAt t con front info →
    (front.length = con.baseLen → EndsCaseless info con.uriPath) ∧
      (con.followSymlink = true ∨ t.isSymlink front = false)

/-- What the loop finds: a regular file, with directories in front of it. -/
def LoopFinds (t : PathTree) (front pathinfo f i : Bytes) : Prop :=
  ∃ w, pathinfo = w ++ i ∧ f = front ++ w ∧ i.head? = some slashChar ∧ t.entry f = .ok .regular ∧
    ∀ w' i', pathinfo = w' ++ i' → i'.head? = some slashChar → w'.length < w.length →
      t.entry (front ++ w') = .ok .directory

variable {t : PathTree} {front f i info pathinfo : Bytes} {con : PathCon} {conf : ResponseConf}

/-- Where the entry at the slash is no directory the loop finds it or nothing. -/
theorem loopFinds_iff_of_ne (hslash : pathinfo.head? = some slashChar)
    (h : t.entry front ≠ .ok .directory) :
    LoopFinds t front pathinfo f i ↔ f = front ∧ i = pathinfo ∧ t.entry front = .ok .regular := by
  constructor
  · rintro ⟨w, hparts, rfl, hi, hfile, hdirs⟩
    rcases w with _ | ⟨c, w⟩
    · rw [List.append_nil] at hfile ⊢
      exact ⟨rfl, hparts.symm, hfile⟩
    · have := hdirs [] pathinfo rfl hslash (by simp)
      rw [List.append_nil] at this
      exact absurd this h
  · rintro ⟨rfl, rfl, hfile⟩
    refine ⟨[], rfl, by simp, hslash, hfile, fun w' i' _ _ hlen => ?_⟩
    exact absurd hlen (Nat.not_lt_zero _)

theorem loopFinds_iff_next {u v : Bytes} (hdir : t.entry front = .ok .directory)
    (hu : slashChar ∉ u) :
    LoopFinds t front (slashChar :: (u ++ slashChar :: v)) f i ↔
      LoopFinds t (front ++ slashChar :: u) (slashChar :: v) f i := by
  -- a slash in front of the next one is the first one
  have hnext : ∀ {w i : Bytes}, slashChar :: (u ++ slashChar :: v) = w ++ i →
      i.head? = some slashChar → w ≠ [] → ∃ w₂, w = slashChar :: u ++ w₂ ∧ slashChar :: v = w₂ ++ i := by
    intro w i hparts hi hw
    obtain ⟨c, w, rfl⟩ := List.exists_cons_of_ne_nil hw
    rw [List.cons_append, List.cons.injEq] at hparts
    obtain ⟨rfl, hparts⟩ := hparts
    rcases List.append_eq_append_iff.mp hparts with ⟨w₂, rfl, h₂⟩ | ⟨x, rfl, hx⟩
    · exact ⟨w₂, rfl, h₂⟩
    · rcases x with _ | ⟨d, x⟩
      · exact ⟨[], by simp, by simpa using hx.symm⟩
      · subst hx
        obtain rfl : d = slashChar := by simpa using hi
        exact absurd (by simp) hu
  constructor
  · rintro ⟨w, hparts, rfl, hi, hfile, hdirs⟩
    have hw : w ≠ [] := by
      rintro rfl
      rw [List.append_nil, hdir] at hfile
      cases hfile
    obtain ⟨w₂, rfl, h₂⟩ := hnext hparts hi hw
    refine ⟨w₂, h₂, by simp, hi, hfile, fun w' i' hparts' hi' hlen => ?_⟩
    have := hdirs (slashChar :: u ++ w') i' (by rw [List.append_assoc, ← hparts']; rfl) hi'
      (by simpa using hlen)
    simpa using this
  · rintro ⟨w, hparts, rfl, hi, hfile, hdirs⟩
    refine ⟨slashChar :: u ++ w, by rw [List.append_assoc, ← hparts]; rfl, by simp, hi, hfile, ?_⟩
    intro w' i' hparts' hi' hlen
    by_cases hw' : w' = []
    · rw [hw', List.append_nil]
      exact hdir
    · obtain ⟨w₂, rfl, h₂⟩ := hnext hparts' hi' hw'
      have := hdirs w₂ i' h₂ hi' (by simpa using hlen)
      simpa using this

/-- The loop stops at the first slash whose front is no directory. -/
theorem pathinfoLoop_iff (t : PathTree) {n : ℕ} {sce : Option PathKind} {pprev : Bytes × Bytes}
    (hslash : pathinfo.head? = some slashChar) (hnul : (0 : UInt8) ∉ pathinfo)
    (hn : pathinfo.length ≤ n) (hsce : sce ≠ some .regular) :
    pathinfoLoop t n sce pprev front pathinfo = (some (f, i), some .regular) ↔
      LoopFinds t front pathinfo f i := by
  obtain ⟨rest, rfl⟩ := List.head?_eq_some_iff.mp hslash
  induction n generalizing sce pprev front rest with
  | zero => simp at hn
  | succ n ih =>
    rw [pathinfoLoop]
    rcases hentry : t.entry front with e | kind
    · rw [loopFinds_iff_of_ne hslash (by rw [hentry]; simp)]
      simp [hsce, hentry]
    · by_cases hkind : kind = .directory
      · subst hkind
        simp only [ne_eq, not_true_eq_false, if_false, List.tail_cons]
        rcases hchr : strchr rest slashChar with _ | k
        · refine iff_of_false (by simp) ?_
          rintro ⟨w, hparts, rfl, hi, hfile, -⟩
          rcases w with _ | ⟨c, w⟩
          · rw [List.append_nil, hentry] at hfile
            cases hfile
          · obtain ⟨j, rfl⟩ := List.head?_eq_some_iff.mp hi
            obtain ⟨rfl, rfl⟩ := List.cons.inj hparts
            rw [strchr_eq_none_iff, cstr_of_notMem fun h => hnul (List.mem_cons_of_mem _ h)] at hchr
            exact hchr (by simp)
        · obtain ⟨u, v, rfl, rfl, hu, -⟩ := strchr_eq_some hchr
          have htake : (slashChar :: (u ++ slashChar :: v)).take (u.length + 1) = slashChar :: u := by
            simp
          have hdrop : (slashChar :: (u ++ slashChar :: v)).drop (u.length + 1) = slashChar :: v := by
            simp
          simp only [htake, hdrop]
          rw [loopFinds_iff_next hentry hu]
          refine ih (by simp) v rfl (fun h => hnul ?_) ?_
          · rcases List.mem_cons.mp h with h | h <;> simp [h]
          · simp only [List.length_cons, List.length_append] at hn ⊢
            omega
      · rw [loopFinds_iff_of_ne hslash (by rw [hentry]; simpa using hkind)]
        simp only [ne_eq, hkind, not_false_eq_true, if_true, Prod.mk.injEq, Option.some.injEq,
          hentry, Except.ok.injEq]
        exact ⟨fun h => ⟨h.1.1.symm, h.1.2.symm, h.2⟩, fun h => ⟨⟨h.1.symm, h.2.1.symm⟩, h.2.2⟩⟩

theorem regularFile_eq_some {x : Option (Bytes × Bytes) × Option PathKind} {split : Bytes × Bytes} :
    regularFile x = some split ↔ x = (some split, some .regular) := by
  obtain ⟨found, _ | _ | _ | _⟩ := x <;> simp [regularFile]

/-- A text that starts with another one of at least a length, cut at that length. -/
theorem take_drop_of_append {s : Bytes} {n : ℕ} (h : s = f ++ i) (hn : n ≤ f.length) :
    f = s.take n ++ f.drop n ∧ s.drop n = f.drop n ++ i := by
  subst h
  rw [List.take_append_of_le_length hn, List.drop_append_of_le_length hn, List.take_append_drop]
  exact ⟨rfl, rfl⟩

theorem pathinfoSplit_iff (hmissing : t.entry con.path = .error .enotdir)
    (hnul : (0 : UInt8) ∉ con.path) (front info : Bytes) :
    pathinfoSplit t con = some (front, info) ↔ SplitAt t con front info := by
  rw [pathinfoSplit]
  by_cases hstart : (con.path.drop con.baseLen).head? = some slashChar
  · have hlt : con.baseLen ≤ con.path.length := by
      by_contra hlt
      rw [List.drop_eq_nil_of_le (by omega)] at hstart
      cases hstart
    have hlen : (con.path.take con.baseLen).length = con.baseLen := List.length_take_of_le hlt
    simp only [hstart, ne_eq, not_true_eq_false, if_false]
    rw [regularFile_eq_some, pathinfoLoop_iff t hstart (fun h => hnul (List.mem_of_mem_drop h)) le_rfl
      (by simp)]
    constructor
    · rintro ⟨w, hparts, rfl, hi, hfile, hdirs⟩
      have hpath : con.path = con.path.take con.baseLen ++ w ++ info := by
        rw [List.append_assoc, ← hparts, List.take_append_drop]
      refine ⟨hmissing, hstart, hpath, hi, by rw [List.length_append, hlen]; omega, hfile, ?_⟩
      intro f i hsplit hi' hbelow hlt
      obtain ⟨hf, hd⟩ := take_drop_of_append hsplit hbelow
      rw [hf]
      refine hdirs _ i hd hi' ?_
      rw [List.length_append, hlen] at hlt
      rw [List.length_drop]
      omega
    · intro h
      obtain ⟨hf, hd⟩ := take_drop_of_append h.parts h.below
      refine ⟨front.drop con.baseLen, hd, hf, h.slash, h.file, fun w' i' hparts hi' hlt => ?_⟩
      refine h.directories _ i' ?_ hi' ?_ ?_
      · rw [List.append_assoc, ← hparts, List.take_append_drop]
      · rw [List.length_append, hlen]
        omega
      · rw [List.length_append, hlen]
        rw [List.length_drop] at hlt
        have := h.below
        omega
  · rw [if_pos hstart]
    refine iff_of_false (by simp) fun h => hstart h.start

theorem caseEq_relPath (conf : ResponseConf) (path : Bytes) : CaseEq path (relPath conf path) := by
  rw [relPath]
  split_ifs
  · rw [CaseEq, bufferToLower, List.map_map]
    refine List.map_congr_left fun c _ => ?_
    exact (toLower_toLower c).symm
  · rfl

/-- An end of the relative path is one of `uri.path` up to letter case. -/
theorem endsCaseless_of_suffix {conf : ResponseConf} {path info : Bytes}
    (h : info <:+ relPath conf path) : EndsCaseless info path := by
  obtain ⟨u, hu⟩ := h
  have hcase := caseEq_relPath conf path
  have hlen : path.length = u.length + info.length := by
    rw [hcase.length_eq, ← hu, List.length_append]
  refine ⟨path.drop u.length, List.drop_suffix _ _, ?_⟩
  have hdrop := congrArg (List.drop u.length) hcase
  rw [← List.map_drop, ← List.map_drop, ← hu, List.drop_left] at hdrop
  exact hdrop

theorem belowRoot_suffix (conf : ResponseConf) (path : Bytes) :
    belowRoot conf path <:+ relPath conf path := by
  rw [belowRoot]
  split_ifs
  · exact List.tail_suffix _
  · exact List.suffix_rfl

/-- The text behind an alias, without its first byte, is an end of the relative path. -/
theorem drop_aliasRest_suffix {path : Bytes} (hnul : (0 : UInt8) ∉ path) (front : FrontBytes)
    (ds : DataUnset Buffer) {j : ℕ} (hj : 0 < j) :
    (aliasRest (aliasUri front (requestPhysical conf path)) ds).drop j <:+ relPath conf path := by
  have hbelow : (0 : UInt8) ∉ belowRoot conf path := notMem_belowRoot hnul
  have hdrop : ∀ k m, ((cstr ((belowRoot conf path).drop k)).drop m) <:+ relPath conf path := by
    intro k m
    rw [cstr_of_notMem fun h => hbelow (List.mem_of_mem_drop h), List.drop_drop]
    exact (List.drop_suffix _ _).trans (belowRoot_suffix conf path)
  rw [aliasRest]
  rcases aliasUri_requestPhysical conf front path with h | ⟨c, h⟩
  · rw [h]
    exact hdrop _ _
  · rw [h]
    rcases ds.key.string.length with _ | n
    · obtain ⟨j, rfl⟩ : ∃ m, j = m + 1 := ⟨j - 1, by omega⟩
      rw [List.drop_zero]
      by_cases hc : c = 0
      · simp [hc, cstr]
      · have hcons : cstr (c :: belowRoot conf path) = c :: cstr (belowRoot conf path) := by
          simp [cstr, hc]
        rw [hcons, List.drop_succ_cons]
        exact hdrop 0 j
    · exact hdrop n j

theorem length_bufferAppendSlash {b : Bytes} (h : b ≠ []) : (bufferAppendSlash b).length =
    (if b.getLast? = some slashChar then b.length - 1 else b.length) + 1 := by
  rw [bufferAppendSlash_of_ne_nil h, List.length_append]
  split_ifs <;> simp

theorem baseLen_of_basedir {b : Bytes} (h : con.basedir = b) :
    con.baseLen = if b.getLast? = some slashChar then b.length - 1 else b.length := by
  subst h
  rfl

/-- A split behind `physical.basedir` leaves an end of `uri.path`. -/
theorem endsCaseless_of_splitAt {aliases : DataArray Buffer} {frontBytes : FrontBytes}
    {path requestUri : Bytes} {followSymlink : Bool} (hnul : (0 : UInt8) ∉ path)
    (h : SplitAt t (aliasedCon conf aliases frontBytes path requestUri followSymlink) front info)
    (hne : front.length ≠
      (aliasedCon conf aliases frontBytes path requestUri followSymlink).baseLen) :
    EndsCaseless info path := by
  refine @endsCaseless_of_suffix conf path info ?_
  have hlt := lt_of_le_of_ne h.below hne.symm
  have hinfo : info = (aliasedCon conf aliases frontBytes path requestUri followSymlink).path.drop
      front.length := by
    rw [h.parts, List.drop_left]
  rw [hinfo]
  rcases hds : aliasFor conf aliases (aliasUri frontBytes (requestPhysical conf path)) with _ | ds
  · have hphys : modAliasPhysicalHandler conf aliases frontBytes (requestPhysical conf path) =
        requestPhysical conf path := by simp only [modAliasPhysicalHandler, hds]
    rw [baseLen_of_basedir (b := conf.documentRoot.string) (by simp only [aliasedCon, hphys]; rfl)]
      at hlt
    simp only [aliasedCon, hphys]
    simp only [requestPhysical]
    by_cases hroot : conf.documentRoot.string = []
    · rw [hroot, bufferAppendSlash, if_neg (by simp), List.nil_append]
      exact (List.drop_suffix _ _).trans (belowRoot_suffix conf path)
    · have hlen := length_bufferAppendSlash hroot
      have hle : (bufferAppendSlash conf.documentRoot.string).length ≤ front.length := by
        split_ifs at hlen hlt <;> omega
      rw [List.drop_append, List.drop_eq_nil_of_le hle, List.nil_append]
      exact (List.drop_suffix _ _).trans (belowRoot_suffix conf path)
  · have hphys : modAliasPhysicalHandler conf aliases frontBytes (requestPhysical conf path) =
        { requestPhysical conf path with
          basedir := ds.value
          path := ds.value.string ++
            aliasRest (aliasUri frontBytes (requestPhysical conf path)) ds } := by
      simp only [modAliasPhysicalHandler, hds]
    have hfile := h.file
    have hparts := h.parts
    rw [baseLen_of_basedir (b := ds.value.string) (by simp only [aliasedCon, hphys])] at hlt
    simp only [aliasedCon, hphys] at hparts ⊢
    have hgt : ds.value.string.length < front.length := by
      by_contra hgt
      have hvalue : front = ds.value.string := by
        have heq : front.length = ds.value.string.length := by
          split_ifs at hlt <;> omega
        have htake := congrArg (List.take front.length) hparts
        rw [List.take_left, heq, List.take_left] at htake
        exact htake.symm
      have hlast : ds.value.string.getLast? = some slashChar := by
        by_contra hlast
        rw [if_neg hlast, hvalue] at hlt
        omega
      rw [hvalue] at hfile
      rw [PathTree.entry] at hfile
      rcases hstat : t.stat ds.value.string with e | _ | _ | _ <;> simp [hstat, hlast] at hfile
    rw [List.drop_append, List.drop_eq_nil_of_le hgt.le, List.nil_append]
    exact drop_aliasRest_suffix hnul frontBytes ds (by omega)

/-! ## The check -/

/-- Whether `uri.path` can be cut so that what is left and `pathinfo` make it up. -/
theorem cut_caseEq_iff (info path : Bytes) :
    (info.length ≤ path.length ∧ CaseEq (path.take (path.length - info.length) ++ info) path) ↔
      EndsCaseless info path := by
  have hsplit : ∀ v u : Bytes, path = u ++ v → v.length = info.length →
      (CaseEq (path.take (path.length - info.length) ++ info) path ↔ CaseEq v info) := by
    rintro v u rfl hlen
    have htake : (u ++ v).take ((u ++ v).length - info.length) = u := by
      rw [List.length_append, hlen, Nat.add_sub_cancel, List.take_left]
    rw [htake]
    simp only [CaseEq, List.map_append, List.append_cancel_left_eq]
    exact eq_comm
  constructor
  · rintro ⟨hle, hcase⟩
    refine ⟨path.drop (path.length - info.length), List.drop_suffix _ _, ?_⟩
    refine (hsplit _ _ (List.take_append_drop _ _).symm ?_).mp hcase
    rw [List.length_drop]
    omega
  · rintro ⟨v, ⟨u, rfl⟩, hcase⟩
    refine ⟨?_, (hsplit v u rfl hcase.length_eq).mpr hcase⟩
    rw [List.length_append, hcase.length_eq]
    omega

theorem uriPath_checkFound (t : PathTree) (con : PathCon) (kind : PathKind) (r : PathChecked) :
    (checkFound t con kind r).uriPath = r.uriPath := by
  rw [checkFound]
  split_ifs <;> rfl

theorem checkFound_regular (t : PathTree) (con : PathCon) (r : PathChecked) :
    checkFound t con .regular r = { r with goOn := true } ∧
        (con.followSymlink = true ∨ t.isSymlink r.path = false) ∨
      (checkFound t con .regular r).goOn = false ∧
        ¬ (con.followSymlink = true ∨ t.isSymlink r.path = false) := by
  rw [checkFound]
  split_ifs with hlink hdir
  · exact .inr ⟨rfl, by simpa [and_comm] using hlink⟩
  · exact absurd hdir.1 (by decide)
  · exact .inl ⟨rfl, by simpa [or_iff_not_imp_right] using hlink⟩

/-- Where there is no split the check leaves `uri.path`. -/
theorem checksExactly_of_no_split (hnul : (0 : UInt8) ∉ con.path)
    (h : ∀ front info, ¬ SplitAt t con front info) : ChecksExactly t con := by
  have hout : ∀ r : PathChecked, physicalPathCheck t con = some r → r.goOn = false →
      r.uriPath = con.uriPath → ChecksExactly t con := fun r hr hgo huri =>
    ⟨r, hr, fun hc => by rw [hgo] at hc; exact absurd hc.1 Bool.false_ne_true, fun _ => huri⟩
  rcases hentry : t.entry con.path with e | kind
  · cases e with
    | enotdir =>
      rcases hsplit : pathinfoSplit t con with _ | ⟨front, info⟩
      · exact hout _ (by simp only [physicalPathCheck, hentry, hsplit]; rfl) rfl rfl
      · exact absurd ((pathinfoSplit_iff hentry hnul front info).mp hsplit) (h front info)
    | eacces => exact hout _ (by simp only [physicalPathCheck, hentry]; rfl) rfl rfl
    | enametoolong => exact hout _ (by simp only [physicalPathCheck, hentry]; rfl) rfl rfl
    | enoent => exact hout _ (by simp only [physicalPathCheck, hentry]; rfl) rfl rfl
    | other => exact hout _ (by simp only [physicalPathCheck, hentry]; rfl) rfl rfl
  · refine ⟨checkFound t con kind ⟨false, none, con.uriPath, con.path, none⟩,
      by simp only [physicalPathCheck, hentry], ?_, fun _ => uriPath_checkFound t con kind _⟩
    rintro ⟨-, e, he⟩
    rw [hentry] at he
    cases he

/-- Where there is one, the check is exact if and only if `uri.path` ends in what follows the file
and the file is no refused link. -/
theorem checksExactly_of_split (hnul : (0 : UInt8) ∉ con.path) (h : SplitAt t con front info) :
    ChecksExactly t con ↔ EndsCaseless info con.uriPath ∧
      (con.followSymlink = true ∨ t.isSymlink front = false) := by
  have hsplit := (pathinfoSplit_iff h.missing hnul front info).mpr h
  obtain ⟨tail, rfl⟩ := List.head?_eq_some_iff.mp h.slash
  rw [← cut_caseEq_iff]
  by_cases hle : (slashChar :: tail).length ≤ con.uriPath.length
  · have hcheck : physicalPathCheck t con = some (checkFound t con .regular
        ⟨false, none, con.uriPath.take (con.uriPath.length - (slashChar :: tail).length), front,
          some (requestPathinfo con (slashChar :: tail))⟩) := by
      simp only [physicalPathCheck, h.missing, hsplit, if_neg (Nat.not_lt.mpr hle)]
    have hshort : con.uriPath.take (con.uriPath.length - (slashChar :: tail).length) ≠
        con.uriPath := by
      intro heq
      have := congrArg List.length heq
      simp only [List.length_take, List.length_cons] at this hle
      omega
    rcases checkFound_regular t con ⟨false, none,
        con.uriPath.take (con.uriPath.length - (slashChar :: tail).length), front,
        some (requestPathinfo con (slashChar :: tail))⟩ with ⟨hfound, hlink⟩ | ⟨hgo, hlink⟩
    · rw [hfound] at hcheck
      constructor
      · rintro ⟨r, hr, hexact, -⟩
        obtain rfl := Option.some.inj (hcheck.symm.trans hr)
        obtain ⟨info, hparts, -, -, hcase, -⟩ := hexact ⟨rfl, _, h.missing⟩
        obtain rfl := List.append_cancel_left (h.parts.symm.trans hparts)
        exact ⟨⟨hle, hcase⟩, hlink⟩
      · rintro ⟨⟨-, hcase⟩, -⟩
        refine ⟨_, hcheck, fun _ => ?_, fun hc => absurd ⟨rfl, _, h.missing⟩ hc⟩
        refine ⟨slashChar :: tail, h.parts, rfl, h.file, hcase, ⟨_, rfl, ?_⟩, h.directories⟩
        rw [requestPathinfo]
        split_ifs with hrest
        · exact .inr ⟨hrest.1, hrest.2.2⟩
        · exact .inl rfl
    · refine iff_of_false ?_ fun hc => hlink hc.2
      rintro ⟨r, hr, -, hsame⟩
      obtain rfl := Option.some.inj (hcheck.symm.trans hr)
      refine hshort ((uriPath_checkFound t con .regular _).symm.trans (hsame ?_))
      rintro ⟨hgo', -⟩
      rw [hgo] at hgo'
      exact absurd hgo' Bool.false_ne_true
  · refine iff_of_false ?_ fun hc => hle hc.1.1
    rintro ⟨r, hr, -⟩
    simp only [physicalPathCheck, h.missing, hsplit, if_pos (Nat.not_le.mp hle)] at hr
    cases hr

theorem SplitAt.unique (hnul : (0 : UInt8) ∉ con.path) {front' info' : Bytes}
    (h : SplitAt t con front info) (h' : SplitAt t con front' info') :
    front' = front ∧ info' = info := by
  have hsplit := (pathinfoSplit_iff h.missing hnul front info).mpr h
  have hsplit' := (pathinfoSplit_iff h'.missing hnul front' info').mpr h'
  exact Prod.mk.inj (Option.some.inj (hsplit'.symm.trans hsplit))

/-- The check splits the path and `uri.path` of a request exactly, with no length below zero, if
and only if a file that `physical.basedir` itself names, without a slash at its end, is taken only
where `uri.path` ends in what follows, and the file is not a symbolic link that is refused. -/
theorem physicalPathCheck_exact_iff (t : PathTree) (conf : ResponseConf)
    (aliases : DataArray Buffer) (frontBytes : FrontBytes) (path requestUri : Bytes)
    (followSymlink : Bool) (hnul : (0 : UInt8) ∉ path)
    (hpath : (0 : UInt8) ∉ (aliasedCon conf aliases frontBytes path requestUri followSymlink).path) :
    ChecksExactly t (aliasedCon conf aliases frontBytes path requestUri followSymlink) ↔
      PathinfoFits t (aliasedCon conf aliases frontBytes path requestUri followSymlink) := by
  by_cases hex : ∃ front info, SplitAt t
      (aliasedCon conf aliases frontBytes path requestUri followSymlink) front info
  · obtain ⟨front, info, h⟩ := hex
    rw [checksExactly_of_split hpath h]
    constructor
    · rintro ⟨hends, hlink⟩ front' info' h'
      obtain ⟨rfl, rfl⟩ := h.unique hpath h'
      exact ⟨fun _ => hends, hlink⟩
    · intro hfits
      obtain ⟨hends, hlink⟩ := hfits front info h
      refine ⟨?_, hlink⟩
      by_cases hbase : front.length =
          (aliasedCon conf aliases frontBytes path requestUri followSymlink).baseLen
      · exact hends hbase
      · exact endsCaseless_of_splitAt hnul h hbase
  · have hno : ∀ front info, ¬ SplitAt t
        (aliasedCon conf aliases frontBytes path requestUri followSymlink) front info :=
      fun front info h => hex ⟨front, info, h⟩
    exact iff_of_true (checksExactly_of_no_split hpath hno)
      fun front info h => absurd h (hno front info)

/-- One regular file, with nothing below it, and directories. -/
def scriptTree (file : Bytes) : PathTree where
  stat name :=
    if name = file then .ok .regular
    else if file.isPrefixOf name then .error .enotdir
    else .ok .directory
  unreadable _ := none
  isSymlink _ := false

/-- The request `/a.php/b` for a script below the document root. -/
theorem physicalPathCheck_exact_script :
    ChecksExactly (scriptTree (str "/srv/a.php"))
        (aliasedCon (srvConf false) (oneAlias (str "/x/") (str "/y/")) ⟨0, 0⟩ (str "/a.php/b")
          (str "/a.php/b") true) ↔
      PathinfoFits (scriptTree (str "/srv/a.php"))
        (aliasedCon (srvConf false) (oneAlias (str "/x/") (str "/y/")) ⟨0, 0⟩ (str "/a.php/b")
          (str "/a.php/b") true) :=
  physicalPathCheck_exact_iff (scriptTree (str "/srv/a.php")) (srvConf false)
    (oneAlias (str "/x/") (str "/y/")) ⟨0, 0⟩ (str "/a.php/b") (str "/a.php/b") true
    (by decide +kernel) (by decide +kernel)

/-- The alias of `/foo` to a file, with a slash behind it, takes the last byte of its own name from
`/foobar`. -/
theorem not_checksExactly :
    physicalPathCheck (scriptTree (str "/data/f")) (aliasedCon (srvConf false)
        (oneAlias (str "/foo") (str "/data/f/")) ⟨0, 0⟩ (str "/foobar") (str "/foobar") true) =
      some ⟨true, none, str "/fo", str "/data/f", some (str "/bar")⟩ ∧
    ¬ ChecksExactly (scriptTree (str "/data/f")) (aliasedCon (srvConf false)
        (oneAlias (str "/foo") (str "/data/f/")) ⟨0, 0⟩ (str "/foobar") (str "/foobar") true) := by
  have hcheck : physicalPathCheck (scriptTree (str "/data/f")) (aliasedCon (srvConf false)
      (oneAlias (str "/foo") (str "/data/f/")) ⟨0, 0⟩ (str "/foobar") (str "/foobar") true) =
        some ⟨true, none, str "/fo", str "/data/f", some (str "/bar")⟩ := by decide +kernel
  have hentry : (scriptTree (str "/data/f")).entry (str "/data/f/bar") = .error .enotdir := by
    decide +kernel
  refine ⟨hcheck, ?_⟩
  rintro ⟨r, hr, hexact, -⟩
  obtain rfl := Option.some.inj (hcheck.symm.trans hr)
  obtain ⟨info, hparts, -, -, hcase, -⟩ := hexact ⟨rfl, _, hentry⟩
  obtain rfl : str "/bar" = info :=
    List.append_cancel_left (show str "/data/f" ++ str "/bar" = str "/data/f" ++ info from hparts)
  exact absurd hcase (by decide +kernel)

end Lighttpd
