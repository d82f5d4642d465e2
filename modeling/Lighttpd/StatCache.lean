import Lighttpd.Lib.LinkTree
import Lighttpd.Lib.Strtol

/-!
# The stat cache

`stat_cache_get_entry` finds what is at a path. For a connection that is not to follow symbolic links
it looks for a link in the path, unless the monitor of directories says that the entry it has is still
good (`statCacheGetEntry_spec`).
-/

namespace Lighttpd

open CString LinkTree

/-! ## Files -/

/-- A regular file. -/
structure FileData where
  bytes : Bytes
  readable : Bool
  small : bytes.length < 2 ^ 63

/-- What is at a path. -/
abbrev FileNode := Node Bytes FileData

/-- The files, and the `st_size` of a directory. -/
structure FileSys extends Tree Bytes FileData where
  dirSize : ℕ
  dirSmall : dirSize < 2 ^ 63

/-- A step of a path between two slashes. -/
def pathStep (s : Bytes) : Step Bytes :=
  if s = [] ∨ s = str "." then .here else if s = str ".." then .up else .name s

/-- The path that a C string names. -/
def pathOf (s : Bytes) : Path Bytes := ⟨s.head? = some 47, (s.splitOn 47).map pathStep⟩

/-- `stat` -/
def FileSys.stat (fs : FileSys) (name : Bytes) : Option FileNode :=
  if cstr name = [] then none else LinkTree.stat fs.toTree (pathOf (cstr name))

/-- `lstat` -/
def FileSys.lstat (fs : FileSys) (name : Bytes) : Option FileNode :=
  if cstr name = [] then none else LinkTree.lstat fs.toTree (pathOf (cstr name))

/-- `st_size`; what is neither a file nor a directory has no bytes. -/
def FileSys.size (fs : FileSys) : FileNode → ℕ
  | .file f => f.bytes.length
  | .dir => fs.dirSize
  | _ => 0

/-- `S_ISREG` -/
def isReg : FileNode → Bool
  | .file _ => true
  | _ => false

theorem FileSys.size_lt (fs : FileSys) (n : FileNode) : fs.size n < 2 ^ 63 := by
  cases n with
  | file f => exact f.small
  | dir => exact fs.dirSmall
  | link target => exact Nat.two_pow_pos 63
  | other => exact Nat.two_pow_pos 63

/-- `open` for reading, of files and directories. -/
def FileSys.openRdonly (fs : FileSys) (noFollow : Bool) (name : Bytes) : Option FileNode :=
  match if noFollow then fs.lstat name else fs.stat name with
  | some (.file f) => if f.readable then some (.file f) else none
  | some .dir => some .dir
  | _ => none

/-! ## The cache -/

/-- `stat_cache_entry`, with what is read of its `struct stat`. -/
structure StatCacheEntry where
  name : Bytes
  isSymlink : Bool
  isReg : Bool
  size : ℕ
  small : size < 2 ^ 63
  statTs : ℤ
  dirVersion : ℤ

/-- `fam_dir_entry` -/
structure FamDirEntry where
  name : Bytes
  version : ℤ

/-- `stat_cache`: the splay trees as maps. -/
structure StatCache where
  files : UInt32 → Option StatCacheEntry
  dirs : UInt32 → Option FamDirEntry

/-- The kinds of caches. -/
inductive StatCacheEngine
  | unset
  | none
  | simple
  | fam
  deriving DecidableEq, Repr

/-- What the cache works with; `monitors` says for which directories `FAMMonitorDirectory` does. -/
structure StatCacheSrv where
  engine : StatCacheEngine
  fs : FileSys
  curTs : ℤ
  monitors : Bytes → Bool

/-- A turn of the loop in `hashme`. -/
def hashStep (hash : UInt32) (c : UInt8) : UInt32 := (hash <<< 5 + hash) ^^^ c.toUInt32

/-- `hashme` -/
def hashme (s : Bytes) : UInt32 := (cstr s).foldl hashStep 5381 &&& 0x7fffffff

/-- The key of a name. -/
def hashKey (name : Bytes) (followSymlink : Bool) : UInt32 :=
  hashme (name ++ itostr followSymlink.toNat)

/-- `buffer_copy_dirname` -/
def bufferCopyDirname (file : Bytes) : Option Bytes :=
  ((List.range file.length).reverse.find? fun i => i ≠ 0 ∧ file[i]? = some 47).map file.take

/-- What `stat_cache_fam_dir_check` finds: no directory in the name, an entry that is still good, or
the directory, when it is monitored. -/
inductive FamDirCheck
  | error
  | finished
  | goOn (famDir : Option FamDirEntry)

/-- `stat_cache_fam_dir_check` -/
def statCacheFamDirCheck (cache : StatCache) (sce : Option StatCacheEntry) (name : Bytes)
    (followSymlink : Bool) : FamDirCheck :=
  match bufferCopyDirname name with
  | none => .error
  | some dirName =>
    match (cache.dirs (hashKey dirName followSymlink)).filter (·.name = dirName) with
    | none => .goOn none
    | some famDir =>
      if sce.map (·.dirVersion) = some famDir.version then .finished else .goOn (some famDir)

/-- `stat_cache_fam_dir_monitor`; where the directory cannot be monitored, the version is read of an
entry that was freed. -/
def statCacheFamDirMonitor (srv : StatCacheSrv) (cache : StatCache) (famDir : Option FamDirEntry)
    (sce : StatCacheEntry) (followSymlink : Bool) : StatCacheEntry × StatCache :=
  match famDir with
  | some famDir => ({ sce with dirVersion := famDir.version }, cache)
  | none =>
    let dirName := (bufferCopyDirname sce.name).getD []
    let key := hashKey dirName followSymlink
    ({ sce with dirVersion := 1 },
      if srv.monitors dirName then
        { cache with dirs := fun k => if k = key then some ⟨dirName, 1⟩ else cache.dirs k }
      else cache)

/-- `stat_cache_lstat`: whether it returned zero. -/
def statCacheLstat (fs : FileSys) (dname : Bytes) : Bool :=
  match fs.lstat dname with
  | some (.link _) => true
  | _ => false

/-- The loop over the directories above `dname`. -/
def linkAbove (fs : FileSys) : ℕ → Bytes → Bool
  | 0, _ => false
  | fuel + 1, dname =>
    match strrchr dname 47 with
    | none => false
    | some i =>
      if i = 0 then false
      else statCacheLstat fs (dname.take i) || linkAbove fs fuel (dname.take i)

/-- `sce->is_symlink` for a connection that does not follow links. -/
def findsSymlink (fs : FileSys) (name : Bytes) : Bool :=
  statCacheLstat fs name || (decide (1 < name.length) && linkAbove fs name.length name)

/-- What `stat` finds, when a regular file can be opened. -/
def statNode (fs : FileSys) (name : Bytes) : Option FileNode :=
  match fs.stat name with
  | some (.file f) =>
    if name.getLast? = some 47 then none
    else if (fs.openRdonly false name).isNone then none
    else some (.file f)
  | n => n

/-- The part of the function behind the cache. -/
def statCacheFill (srv : StatCacheSrv) (followSymlink : Bool) (name : Bytes) (cache : StatCache)
    (sce : Option StatCacheEntry) (famDir : Option FamDirEntry) :
    Option StatCacheEntry × StatCache :=
  match statNode srv.fs name with
  | none => (none, cache)
  | some n =>
    let e : StatCacheEntry :=
      ⟨name, !followSymlink && findsSymlink srv.fs name, isReg n, srv.fs.size n,
        srv.fs.size_lt n, srv.curTs, (sce.map (·.dirVersion)).getD 0⟩
    let r := if srv.engine = .fam then statCacheFamDirMonitor srv cache famDir e followSymlink
      else (e, cache)
    let key := hashKey name followSymlink
    (some r.1, { r.2 with files := fun k => if k = key then some r.1 else r.2.files k })

/-- The entry with the name, which another name with its key may have replaced. -/
def cachedEntry (cache : StatCache) (followSymlink : Bool) (name : Bytes) : Option StatCacheEntry :=
  (cache.files (hashKey name followSymlink)).filter (·.name = name)

/-- `stat_cache_get_entry`: the entry, unless it returned `HANDLER_ERROR`, and the cache. -/
def statCacheGetEntry (srv : StatCacheSrv) (followSymlink : Bool) (name : Bytes)
    (cache : StatCache) : Option StatCacheEntry × StatCache :=
  let sce := cachedEntry cache followSymlink name
  if srv.engine = .simple ∧ sce.map (·.statTs) = some srv.curTs ∧ followSymlink then (sce, cache)
  else if srv.engine = .fam then
    match statCacheFamDirCheck cache sce name followSymlink with
    | .error => (none, cache)
    | .finished => (sce, cache)
    | .goOn famDir => statCacheFill srv followSymlink name cache sce famDir
  else statCacheFill srv followSymlink name cache sce none

/-- A part of the path, up to a slash or to the end, is a symbolic link. -/
def HasLink (fs : FileSys) (name : Bytes) : Prop :=
  ∃ u, (cstr name = u ∨ ∃ rest, cstr name = u ++ 47 :: rest) ∧ statCacheLstat fs u = true

theorem statCacheLstat_nil (fs : FileSys) : statCacheLstat fs [] = false := rfl

/-- A part up to a slash ends at the last slash, or before it. -/
theorem exists_slash_iff {d v : Bytes} (hv : 47 ∉ v) {P : Bytes → Prop} :
    (∃ u rest, d ++ 47 :: v = u ++ 47 :: rest ∧ P u) ↔
      P d ∨ ∃ u rest, d = u ++ 47 :: rest ∧ P u := by
  constructor
  · rintro ⟨u, rest, h, hu⟩
    rcases List.append_eq_append_iff.mp h with ⟨as, rfl, has⟩ | ⟨bs, rfl, hbs⟩
    · cases as with
      | nil => exact .inl (by simpa using hu)
      | cons c as =>
        rw [(List.cons.inj has).2] at hv
        simp at hv
    · cases bs with
      | nil => exact .inl (by simpa using hu)
      | cons c bs =>
        obtain rfl := (List.cons.inj hbs).1
        exact .inr ⟨u, bs, rfl, hu⟩
  · rintro (hd | ⟨u, rest, rfl, hu⟩)
    · exact ⟨d, v, rfl, hd⟩
    · exact ⟨u, rest ++ 47 :: v, by simp, hu⟩

variable {fs : FileSys} {name : Bytes} {srv : StatCacheSrv} {cache : StatCache}
  {sce : StatCacheEntry} {f : FileData} {old : Option StatCacheEntry} {famDir : Option FamDirEntry}

theorem linkAbove_iff {fuel : ℕ} {dname : Bytes} (hfuel : dname.length ≤ fuel) :
    linkAbove fs fuel dname = true ↔
      ∃ u rest, cstr dname = u ++ 47 :: rest ∧ statCacheLstat fs u = true := by
  induction fuel generalizing dname with
  | zero =>
    obtain rfl := List.length_eq_zero_iff.mp (Nat.le_zero.mp hfuel)
    simp [linkAbove, cstr]
  | succ fuel ih =>
    unfold linkAbove
    cases hlast : strrchr dname 47 with
    | none =>
      have h47 := strrchr_eq_none_iff.mp hlast
      refine iff_of_false (by simp) ?_
      rintro ⟨u, rest, h, -⟩
      rw [h] at h47
      simp at h47
    | some i =>
      obtain ⟨v, hcs, hv⟩ := strrchr_eq_some hlast
      have hlt := strrchr_lt hlast
      have h0 : 0 ∉ dname.take i := fun h => notMem_cstr dname (by rw [hcs]; simp [h])
      have hlen : (dname.take i).length ≤ fuel := by
        rw [List.length_take]
        omega
      have hih := ih hlen
      rw [cstr_of_notMem h0] at hih
      dsimp only
      rw [hcs, exists_slash_iff hv]
      split_ifs with hi
      · -- only the root is above
        have hroot : dname.take i = [] := by rw [hi, List.take_zero]
        rw [hroot]
        simp [statCacheLstat_nil]
      · rw [Bool.or_eq_true, hih]

theorem findsSymlink_iff : findsSymlink fs name = true ↔ HasLink fs name := by
  have hname : statCacheLstat fs name = statCacheLstat fs (cstr name) := by
    unfold statCacheLstat FileSys.lstat
    rw [cstr_of_notMem (notMem_cstr name)]
  unfold findsSymlink
  rw [Bool.or_eq_true, Bool.and_eq_true, decide_eq_true_eq, linkAbove_iff le_rfl, hname]
  constructor
  · rintro (h | ⟨-, u, rest, hu, h⟩)
    · exact ⟨_, .inl rfl, h⟩
    · exact ⟨u, .inr ⟨rest, hu⟩, h⟩
  · rintro ⟨u, rfl | ⟨rest, hu⟩, h⟩
    · exact .inl h
    · refine .inr ⟨?_, u, rest, hu, h⟩
      by_contra hlen
      have hshort := (cstr_isPrefix name).length_le
      rw [hu, List.length_append, List.length_cons] at hshort
      obtain rfl := List.length_eq_zero_iff.mp (show u.length = 0 by omega)
      rw [statCacheLstat_nil] at h
      cases h

/-- The entry that the monitor of directories says is still good. -/
def famEntry (srv : StatCacheSrv) (cache : StatCache) (followSymlink : Bool) (name : Bytes) :
    Option StatCacheEntry :=
  if srv.engine = .fam then
    match statCacheFamDirCheck cache (cachedEntry cache followSymlink name) name followSymlink with
    | .finished => cachedEntry cache followSymlink name
    | _ => none
  else none

theorem statCacheGetEntry_famEntry {followSymlink : Bool}
    (h : famEntry srv cache followSymlink name = some sce) :
    (statCacheGetEntry srv followSymlink name cache).1 = some sce := by
  unfold famEntry at h
  split_ifs at h with hfam
  unfold statCacheGetEntry
  rw [if_neg (by simp [hfam]), if_pos hfam]
  cases hcheck : statCacheFamDirCheck cache (cachedEntry cache followSymlink name) name
    followSymlink with
  | finished =>
    rw [hcheck] at h
    exact h
  | error =>
    rw [hcheck] at h
    cases h
  | goOn famDir =>
    rw [hcheck] at h
    cases h

theorem statCacheFill_isSymlink (h : (statCacheFill srv false name cache old famDir).1 = some sce) :
    sce.isSymlink = findsSymlink srv.fs name := by
  unfold statCacheFill at h
  cases hn : statNode srv.fs name with
  | none =>
    rw [hn] at h
    cases h
  | some n =>
    rw [hn] at h
    dsimp only at h
    rw [← Option.some.inj h]
    split_ifs
    · cases famDir <;> rfl
    · rfl

/-- For a connection that is not to follow links, an entry is that of the monitor, or tells of a link
in the path. -/
theorem statCacheGetEntry_spec (h : (statCacheGetEntry srv false name cache).1 = some sce) :
    famEntry srv cache false name = some sce ∨ (sce.isSymlink = true ↔ HasLink srv.fs name) := by
  unfold statCacheGetEntry at h
  rw [if_neg (by simp)] at h
  split_ifs at h with hfam
  · cases hcheck : statCacheFamDirCheck cache (cachedEntry cache false name) name false with
    | error =>
      rw [hcheck] at h
      cases h
    | finished =>
      rw [hcheck] at h
      refine .inl ?_
      rw [famEntry, if_pos hfam, hcheck]
      exact h
    | goOn famDir =>
      rw [hcheck] at h
      exact .inr (by rw [statCacheFill_isSymlink h, findsSymlink_iff])
  · exact .inr (by rw [statCacheFill_isSymlink h, findsSymlink_iff])

/-- What is opened without following a link at the end is what `stat` finds. -/
theorem stat_of_openRdonly (h : fs.openRdonly true name = some (.file f)) :
    fs.stat name = some (.file f) ∧ f.readable = true := by
  unfold FileSys.openRdonly at h
  rw [if_pos rfl] at h
  cases hl : fs.lstat name with
  | none =>
    rw [hl] at h
    cases h
  | some n =>
    rw [hl] at h
    cases n with
    | dir => cases h
    | link target => cases h
    | other => cases h
    | file f' =>
      dsimp only at h
      split_ifs at h with hread
      cases h
      refine ⟨?_, hread⟩
      unfold FileSys.lstat at hl
      unfold FileSys.stat
      split_ifs at hl with hname
      rw [if_neg hname]
      exact stat_of_lstat hl fun target h => by cases h

/-- An entry is still good, or one can be made for a file: the name does not end in a slash, and for
the monitor of directories there is a directory in it. -/
def CacheHasEntry (srv : StatCacheSrv) (cache : StatCache) (name : Bytes) : Prop :=
  (famEntry srv cache false name).isSome ∨
    name.getLast? ≠ some 47 ∧ (srv.engine = .fam → (bufferCopyDirname name).isSome)

theorem statCacheFill_isSome_iff (hf : srv.fs.openRdonly true name = some (.file f)) :
    (statCacheFill srv false name cache old famDir).1.isSome ↔ name.getLast? ≠ some 47 := by
  obtain ⟨hstat, hread⟩ := stat_of_openRdonly hf
  have hopen : srv.fs.openRdonly false name = some (.file f) := by
    rw [FileSys.openRdonly, if_neg Bool.false_ne_true, hstat]
    exact if_pos hread
  unfold statCacheFill statNode
  rw [hstat, hopen]
  by_cases hlast : name.getLast? = some 47 <;> simp [hlast]

theorem statCacheFamDirCheck_cases (cache : StatCache) (sce : Option StatCacheEntry)
    (name : Bytes) (followSymlink : Bool) :
    statCacheFamDirCheck cache sce name followSymlink = .error ∧ bufferCopyDirname name = none ∨
      (bufferCopyDirname name).isSome ∧
        (statCacheFamDirCheck cache sce name followSymlink = .finished ∧ sce.isSome ∨
          ∃ famDir, statCacheFamDirCheck cache sce name followSymlink = .goOn famDir) := by
  unfold statCacheFamDirCheck
  cases bufferCopyDirname name with
  | none => exact .inl ⟨rfl, rfl⟩
  | some dirName =>
    refine .inr ⟨rfl, ?_⟩
    dsimp only
    split
    · exact .inr ⟨_, rfl⟩
    · split_ifs with hversion
      · exact .inl ⟨rfl, by cases sce <;> simp_all⟩
      · exact .inr ⟨_, rfl⟩

theorem statCacheGetEntry_isSome_iff (hf : srv.fs.openRdonly true name = some (.file f)) :
    (statCacheGetEntry srv false name cache).1.isSome ↔ CacheHasEntry srv cache name := by
  unfold statCacheGetEntry CacheHasEntry famEntry
  rw [if_neg (by simp)]
  by_cases hfam : srv.engine = .fam
  · rw [if_pos hfam, if_pos hfam]
    rcases statCacheFamDirCheck_cases cache (cachedEntry cache false name) name false with
      ⟨hcheck, hdir⟩ | ⟨hdir, ⟨hcheck, hsome⟩ | ⟨famDir, hcheck⟩⟩
    · simp [hcheck, hdir, hfam]
    · simp [hcheck, hsome]
    · simp [hcheck, hdir, statCacheFill_isSome_iff hf]
  · rw [if_neg hfam, if_neg hfam, statCacheFill_isSome_iff hf]
    simp [hfam]

end Lighttpd
