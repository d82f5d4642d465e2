import Lighttpd.SendFile
import Lighttpd.StatCache

/-!
# Files behind symbolic links

Three functions put a file into the write queue. `http_response_send_file` looks at what the cache
says of links in the path, and `http_chunk_append_file` and `http_chunk_append_file_range` do not: they
only ask the cache for an entry and open the file without following a link at the end of the path.
-/

namespace Lighttpd.FileLinks

open CString ByteRanges RangeRequest

/-- `http_chunk_append_file_open_fstat`: what was opened. -/
def httpChunkAppendFileOpenFstat (srv : StatCacheSrv) (followSymlink : Bool) (fn : Bytes)
    (cache : StatCache) : Option FileNode :=
  if ¬ followSymlink ∧ (statCacheGetEntry srv followSymlink fn cache).1.isNone then none
  else srv.fs.openRdonly (!followSymlink) fn

/-- `http_chunk_append_file` -/
def httpChunkAppendFile (srv : StatCacheSrv) (followSymlink : Bool) (fn : Bytes)
    (cache : StatCache) (cq : List RangeChunk) : List RangeChunk :=
  match httpChunkAppendFileOpenFstat srv followSymlink fn cache with
  | none => cq
  | some n => appendFile cq 0 (srv.fs.size n)

/-- The length of the range at `offset` in `size` bytes; `-1` is the rest. -/
def rangeLength (size offset len : ℤ) : ℤ :=
  if len = -1 then if offset ≥ size then 0 else size - offset
  else if size - offset < len then 0 else len

/-- `http_chunk_append_file_range` -/
def httpChunkAppendFileRange (srv : StatCacheSrv) (followSymlink : Bool) (fn : Bytes)
    (cache : StatCache) (offset len : ℤ) (cq : List RangeChunk) : List RangeChunk :=
  match httpChunkAppendFileOpenFstat srv followSymlink fn cache with
  | none => cq
  | some n => appendFile cq offset (rangeLength (srv.fs.size n) offset len)

/-- What the cache keeps of a file beside its `struct stat`. -/
structure FileAttributes where
  contentType : Bytes
  etag : Bytes
  mtime : Bytes

/-- What `http_response_send_file` reads of an entry. -/
def sendFileStat (attrs : FileAttributes) (enoent : Bool) : Option StatCacheEntry → SendFileStat
  | none => .error enoent
  | some sce =>
    .entry ⟨sce.isSymlink, sce.isReg, sce.size, attrs.contentType, attrs.etag, attrs.mtime⟩

/-- `http_response_send_file` with the cache. -/
def sendFileCached {Tm : Type} (lib : TimeLib Tm) (tm : Tm) (srv : StatCacheSrv)
    (conf : SendFileConf) (attrs : FileAttributes) (enoent : Bool) (path : Bytes)
    (cache : StatCache) (req : SendFileRequest) (con : SendFileCon) : SendFileCon :=
  let r := statCacheGetEntry srv conf.followSymlink path cache
  httpResponseSendFile lib tm conf (sendFileStat attrs enoent r.1)
    ((httpChunkAppendFileOpenFstat srv conf.followSymlink path r.2).map srv.fs.size) req con

/-! ## Routes to the queue -/

/-- A function that a path is given to. -/
inductive FileRoute
  | sendFile
  | appendFile
  | appendFileRange (offset len : ℤ)

/-- A part of a file is appended. -/
def AppendsFile (cq cq' : List RangeChunk) : Prop :=
  ∃ chunks start length, cq' = cq ++ chunks ∧ .file start length ∈ chunks

/-- When bytes of the file at `path` are appended for a connection that is not to follow links, there
is no link in the path. -/
def KeepsLinksOut (srv : StatCacheSrv) (cache : StatCache) (path : Bytes) : FileRoute → Prop
  | .sendFile => ∀ (Tm : Type) (lib : TimeLib Tm) (tm : Tm) (conf : SendFileConf)
      (attrs : FileAttributes) (enoent : Bool) (req : SendFileRequest) (con : SendFileCon),
      conf.followSymlink = false →
      AppendsFile con.writeQueue
        (sendFileCached lib tm srv conf attrs enoent path cache req con).writeQueue →
      ¬ HasLink srv.fs path
  | .appendFile => ∀ f cq, srv.fs.openRdonly true path = some (.file f) →
      AppendsFile cq (httpChunkAppendFile srv false path cache cq) → ¬ HasLink srv.fs path
  | .appendFileRange offset len => ∀ f cq, srv.fs.openRdonly true path = some (.file f) →
      AppendsFile cq (httpChunkAppendFileRange srv false path cache offset len cq) →
      ¬ HasLink srv.fs path

/-- A link would not be seen: the monitor of directories says that an old entry without a link is
still good, or the function asks for no more than an entry, and the file has bytes to append. -/
def Unchecked (srv : StatCacheSrv) (cache : StatCache) (path : Bytes) : FileRoute → Prop
  | .sendFile => ∃ sce, famEntry srv cache false path = some sce ∧ sce.isSymlink = false ∧
      sce.isReg = true ∧ 0 < sce.size
  | .appendFile => CacheHasEntry srv cache path ∧
      ∃ f, srv.fs.openRdonly true path = some (.file f) ∧ f.bytes ≠ []
  | .appendFileRange offset len => CacheHasEntry srv cache path ∧
      ∃ f, srv.fs.openRdonly true path = some (.file f) ∧
        rangeLength f.bytes.length offset len ≠ 0

variable {cq : List RangeChunk} {srv : StatCacheSrv} {fn : Bytes} {cache : StatCache}

theorem appendsFile_appendFile_iff {start length : ℤ} :
    AppendsFile cq (appendFile cq start length) ↔ length ≠ 0 := by
  unfold appendFile
  split_ifs with h
  · refine iff_of_false ?_ (not_not.mpr h)
    rintro ⟨chunks, start', length', heq, hmem⟩
    rw [List.self_eq_append_right.mp heq] at hmem
    cases hmem
  · exact iff_of_true ⟨_, start, length, rfl, List.mem_singleton_self _⟩ h

theorem not_appendsFile_self (cq : List RangeChunk) : ¬ AppendsFile cq cq := by
  rintro ⟨chunks, start, length, heq, hmem⟩
  rw [List.self_eq_append_right.mp heq] at hmem
  cases hmem

theorem openFstat_eq_some_iff {n : FileNode} :
    httpChunkAppendFileOpenFstat srv false fn cache = some n ↔
      (statCacheGetEntry srv false fn cache).1.isSome ∧ srv.fs.openRdonly true fn = some n := by
  unfold httpChunkAppendFileOpenFstat
  cases (statCacheGetEntry srv false fn cache).1 <;> simp

theorem openFstat_eq_none (h : ¬ (statCacheGetEntry srv false fn cache).1.isSome) :
    httpChunkAppendFileOpenFstat srv false fn cache = none :=
  Option.eq_none_iff_forall_not_mem.mpr fun _ hn => h (openFstat_eq_some_iff.mp hn).1

theorem appends_httpChunkAppendFile_iff {f : FileData}
    (hf : srv.fs.openRdonly true fn = some (.file f)) :
    AppendsFile cq (httpChunkAppendFile srv false fn cache cq) ↔
      CacheHasEntry srv cache fn ∧ f.bytes ≠ [] := by
  rw [← statCacheGetEntry_isSome_iff hf]
  unfold httpChunkAppendFile
  by_cases hentry : (statCacheGetEntry srv false fn cache).1.isSome
  · rw [openFstat_eq_some_iff.mpr ⟨hentry, hf⟩]
    dsimp only
    rw [appendsFile_appendFile_iff, and_iff_right hentry, FileSys.size]
    simp
  · rw [openFstat_eq_none hentry]
    exact iff_of_false (not_appendsFile_self cq) fun h => hentry h.1

theorem appends_httpChunkAppendFileRange_iff {offset len : ℤ} {f : FileData}
    (hf : srv.fs.openRdonly true fn = some (.file f)) :
    AppendsFile cq (httpChunkAppendFileRange srv false fn cache offset len cq) ↔
      CacheHasEntry srv cache fn ∧ rangeLength f.bytes.length offset len ≠ 0 := by
  rw [← statCacheGetEntry_isSome_iff hf]
  unfold httpChunkAppendFileRange
  by_cases hentry : (statCacheGetEntry srv false fn cache).1.isSome
  · rw [openFstat_eq_some_iff.mpr ⟨hentry, hf⟩]
    dsimp only
    rw [appendsFile_appendFile_iff, and_iff_right hentry, FileSys.size]
  · rw [openFstat_eq_none hentry]
    exact iff_of_false (not_appendsFile_self cq) fun h => hentry h.1

theorem rangeTurn_zero_ne_range (s rest : Bytes) (minus : ℕ) (start stop : ℤ) (multi : Bool) :
    rangeTurn 0 s minus ≠ .range start stop multi rest := by
  unfold rangeTurn
  cases rangeRead 0 s minus with
  | unsatisfiable => simp
  | malformed => simp
  | range start' stop' multi' rest' =>
    dsimp only
    rw [if_pos (by omega)]
    simp

theorem rangeLoop_zero (contentType : Bytes) (fuel : ℕ) (v : RangeLoop) (s : Bytes) :
    rangeLoop 0 contentType fuel v s = (true, v) ∨
      (rangeLoop 0 contentType fuel v s).1 = false ∧
        (rangeLoop 0 contentType fuel v s).2.con.writeQueue = v.con.writeQueue := by
  cases fuel with
  | zero => exact .inl rfl
  | succ fuel =>
    rw [rangeLoop]
    cases strchr s 45 with
    | none => exact .inl rfl
    | some minus =>
      dsimp only
      cases hturn : rangeTurn 0 s minus with
      | unsatisfiable => exact .inr ⟨rfl, rfl⟩
      | malformed => exact .inr ⟨rfl, rfl⟩
      | range start stop multi rest =>
        exact absurd hturn (rangeTurn_zero_ne_range s rest minus start stop multi)

theorem writeQueue_httpResponseParseRange_zero (range : Bytes) (contentType : Buffer)
    (con : RangeCon) :
    (httpResponseParseRange 0 range contentType con).2.con.writeQueue = con.writeQueue := by
  have hloop := rangeLoop_zero contentType.string (cstr range).length
    ⟨false, 0, 0 - 1, { con with contentLength := 0 }, [0 - 1]⟩ (cstr range)
  unfold httpResponseParseRange
  dsimp only
  rcases hloop with h | ⟨h, hqueue⟩
  · rw [h]
    rfl
  · rw [h, if_pos Bool.false_ne_true]
    exact hqueue

/-- A file of which a part is sent is regular, has bytes and no link that the cache tells of. -/
theorem exists_entry_of_appendsFile {Tm : Type} {lib : TimeLib Tm} {tm : Tm}
    {conf : SendFileConf} (hconf : conf.followSymlink = false) {stat : SendFileStat}
    {opened : Option ℕ} {req : SendFileRequest} {con : SendFileCon}
    (h : AppendsFile con.writeQueue
      (httpResponseSendFile lib tm conf stat opened req con).writeQueue) :
    ∃ sce, stat = .entry sce ∧ sce.isSymlink = false ∧ sce.isRegular = true ∧ 0 < sce.size := by
  unfold httpResponseSendFile at h
  rcases sendFileStart_cases lib tm conf stat req con with
    ⟨u, hu, hqueue⟩ | ⟨sce, u, mtime, rfl, hlink, hregular, hqueue, hu⟩
  · rw [hu] at h
    dsimp only at h
    rw [hqueue] at h
    exact absurd h (not_appendsFile_self _)
  · refine ⟨sce, rfl, ?_, hregular, ?_⟩
    · simpa [hconf] using hlink
    · by_contra hsize
      have hzero : sce.size = 0 := by omega
      rw [hu, sendFileRange] at h
      refine not_appendsFile_self con.writeQueue ?_
      cases hrange : req.httpRange with
      | none =>
        rw [hrange] at h
        dsimp only at h
        rwa [if_pos hzero, SendFileCon.setStatus, hqueue] at h
      | some range =>
        rw [hrange] at h
        dsimp only at h
        split_ifs at h with hcond
        · have hempty := writeQueue_httpResponseParseRange_zero range u.contentType u.toRangeCon
          dsimp only at h
          rw [hzero, Nat.cast_zero] at h
          rw [hqueue] at hempty
          rw [← hempty] at h ⊢
          split_ifs at h <;> exact h
        · dsimp only at h
          rwa [if_pos hzero, SendFileCon.setStatus, hqueue] at h

/-- A regular file with bytes whose entry tells of no link is sent to a request for all of it. -/
theorem appendsFile_of_unlinked {size : ℕ} (hsize : size < 2 ^ 63) (hpos : 0 < size)
    (opened : Option ℕ) :
    AppendsFile freshCon.writeQueue
      (httpResponseSendFile noDates () ⟨false, true, 0⟩
        (.entry ⟨false, true, size, str "text/plain", [], str "now"⟩) opened
        (getRanges (str "0-")) freshCon).writeQueue := by
  have hstart : sendFileStart noDates () ⟨false, true, 0⟩
      (.entry ⟨false, true, size, str "text/plain", [], str "now"⟩) (getRanges (str "0-"))
      freshCon = .range ⟨false, true, size, str "text/plain", [], str "now"⟩ (str "0-")
        rangesCon := rfl
  have htext : RangeText (cstr (str "0-")) [.start 0] := .last (.start spells_zero (by decide))
  have hsat : ∀ r ∈ [RangeSpec.start 0], r.Satisfiable size := by
    intro r hr
    rw [List.mem_singleton.mp hr]
    exact hpos
  obtain ⟨v, hv, hqueue, -, -⟩ := httpResponseParseRange_of_rangeText hsize (by decide) htext hsat
    rangesCon.contentType rangesCon.toRangeCon
  rw [httpResponseSendFile, hstart]
  dsimp only
  rw [hv, if_pos rfl]
  exact ⟨_, _, _, hqueue, List.mem_singleton_self _⟩

/-- A route keeps links out if and only if it does not come to a file behind a link unchecked. -/
theorem keepsLinksOut_iff {srv : StatCacheSrv} {cache : StatCache} {path : Bytes}
    (route : FileRoute) :
    KeepsLinksOut srv cache path route ↔
      ¬ (HasLink srv.fs path ∧ Unchecked srv cache path route) := by
  cases route with
  | appendFile =>
    constructor
    · rintro h ⟨hlink, hentry, f, hf, hbytes⟩
      exact h f [] hf ((appends_httpChunkAppendFile_iff hf).mpr ⟨hentry, hbytes⟩) hlink
    · intro h f cq hf happends hlink
      obtain ⟨hentry, hbytes⟩ := (appends_httpChunkAppendFile_iff hf).mp happends
      exact h ⟨hlink, hentry, f, hf, hbytes⟩
  | appendFileRange offset len =>
    constructor
    · rintro h ⟨hlink, hentry, f, hf, hlength⟩
      exact h f [] hf ((appends_httpChunkAppendFileRange_iff hf).mpr ⟨hentry, hlength⟩) hlink
    · intro h f cq hf happends hlink
      obtain ⟨hentry, hlength⟩ := (appends_httpChunkAppendFileRange_iff hf).mp happends
      exact h ⟨hlink, hentry, f, hf, hlength⟩
  | sendFile =>
    constructor
    · rintro h ⟨hlink, sce, hfam, hsymlink, hreg, hsize⟩
      refine h Unit noDates () ⟨false, true, 0⟩ ⟨str "text/plain", [], str "now"⟩ false
        (getRanges (str "0-")) freshCon rfl ?_ hlink
      unfold sendFileCached
      dsimp only
      rw [statCacheGetEntry_famEntry hfam, sendFileStat, hsymlink, hreg]
      exact appendsFile_of_unlinked sce.small hsize _
    · intro h Tm lib tm conf attrs enoent req con hconf happends hlink
      unfold sendFileCached at happends
      rw [hconf] at happends
      obtain ⟨e, hstat, hsymlink, hregular, hsize⟩ := exists_entry_of_appendsFile hconf happends
      cases hentry : (statCacheGetEntry srv false path cache).1 with
      | none =>
        rw [hentry] at hstat
        cases hstat
      | some sce =>
        rw [hentry] at hstat
        cases hstat
        rcases statCacheGetEntry_spec hentry with hfam | hiff
        · exact h ⟨hlink, sce, hfam, hsymlink, hregular, hsize⟩
        · rw [hiff.mpr hlink] at hsymlink
          cases hsymlink

/-- An error document of two bytes in `/data`, to which `/srv` is a link. -/
def linkedPage : FileData := ⟨str "no", true, by decide⟩

def linkedNode (p : List Bytes) : Option FileNode :=
  if p = [] ∨ p = [str "data"] then some .dir
  else if p = [str "srv"] then some (.link (pathOf (str "/data")))
  else if p = [str "data", str "404.html"] then some (.file linkedPage)
  else none

def linkedSrv : StatCacheSrv := ⟨.simple, ⟨⟨linkedNode, []⟩, 4096, by decide⟩, 0, fun _ => false⟩

def emptyCache : StatCache := ⟨fun _ => none, fun _ => none⟩

/-- The error document is sent, although there is a link in its path. -/
theorem not_keepsLinksOut_errorPage :
    ¬ KeepsLinksOut linkedSrv emptyCache (str "/srv/404.html") .appendFile := by
  intro h
  have hopen : linkedSrv.fs.openRdonly true (str "/srv/404.html") = some (.file linkedPage) := rfl
  refine h linkedPage [] hopen ((appends_httpChunkAppendFile_iff hopen).mpr ⟨?_, ?_⟩) ?_
  · exact .inr ⟨by decide, fun h => by cases h⟩
  · decide
  · exact ⟨str "/srv", .inr ⟨str "404.html", rfl⟩, rfl⟩

end Lighttpd.FileLinks
