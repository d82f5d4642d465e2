import Lighttpd.HandleCachable
import Lighttpd.ParseRange

/-!
# Sending a file

`http_response_send_file` answers with a file or, to a range request, with parts of it. The ranges are
appended to the queue while they are read, and what was appended stays there when a later range fails.
-/

namespace Lighttpd.RangeRequest

open CString ByteRanges

/-- The entry of a file in the cache; `etag` and `contentType` as the cache makes them of the file. -/
structure SendFileEntry where
  isSymlink : Bool
  isRegular : Bool
  size : ℕ
  contentType : Bytes
  etag : Bytes
  mtime : Bytes

/-- What `stat_cache_get_entry` finds; `enoent` is `errno == ENOENT`. -/
inductive SendFileStat
  | error (enoent : Bool)
  | entry (sce : SendFileEntry)

/-- The settings of the connection. -/
structure SendFileConf where
  followSymlink : Bool
  rangeRequests : Bool
  etagFlags : ℕ

/-- What is read of the request. -/
structure SendFileRequest where
  httpMethod : HttpMethod
  ifNoneMatch : Option Bytes
  ifModifiedSince : Option Bytes
  httpRange : Option Bytes
  ifRange : Option Bytes

/-- What is set of the connection, and the headers of the response that are read; `direct` is
`mode == DIRECT`. -/
structure SendFileCon extends RangeCon where
  direct : Bool
  fileFinished : Bool
  physicalEtag : Buffer
  contentType : Option Bytes
  etag : Option Bytes
  lastModified : Option Bytes
  contentEncoding : Bool

/-- `con->http_status = status` -/
def SendFileCon.setStatus (con : SendFileCon) (status : ℕ) : SendFileCon :=
  { con with httpStatus := status }

/-- `response_header_overwrite` -/
def SendFileCon.overwrite (con : SendFileCon) (key value : Bytes) : SendFileCon :=
  { con with headers := con.headers ++ [.overwrite key value] }

/-! ## The function -/

/-- A turn of the loop in `etag_mutate`; the bytes of the tag are signed. -/
def etagHash (h : UInt32) (c : UInt8) : UInt32 :=
  h <<< 5 ^^^ h >>> 27 ^^^ c.toInt8.toInt32.toUInt32

/-- `etag_mutate` -/
def etagMutate (etag : Bytes) : Bytes :=
  str "\"" ++ itostr (etag.foldl etagHash 0).toNat ++ str "\""

/-- The type of the content; the file is not cached when it has none. -/
def sendFileContentType (sce : SendFileEntry) (con : SendFileCon) : Bool × SendFileCon :=
  if con.contentType.isSome then (true, con)
  else if sce.contentType = [] then
    let octets := str "application/octet-stream"
    (false, { con with contentType := some octets }.overwrite (str "Content-Type") octets)
  else
    (true, { con with contentType := some sce.contentType }.overwrite (str "Content-Type")
      sce.contentType)

/-- The tag of the file. -/
def sendFileEtag (conf : SendFileConf) (sce : SendFileEntry) (con : SendFileCon) : SendFileCon :=
  if conf.etagFlags ≠ 0 ∧ sce.etag ≠ [] ∧ con.etag = none then
    let etag := etagMutate sce.etag
    { con with physicalEtag := some etag, etag := some etag }.overwrite (str "ETag") etag
  else con

/-- `mtime`, which is set as `Last-Modified` when there is none. -/
def sendFileMtime (sce : SendFileEntry) (con : SendFileCon) : Bytes × SendFileCon :=
  match con.lastModified with
  | some mtime => (mtime, con)
  | none =>
    (sce.mtime, { con with lastModified := some sce.mtime }.overwrite (str "Last-Modified")
      sce.mtime)

/-- `do_range_request` -/
def doRangeRequest (req : SendFileRequest) (con : SendFileCon) (mtime : Option Bytes) : Bool :=
  match req.ifRange with
  | none => true
  | some value =>
    if value.head? = some 34 then value = con.physicalEtag.string
    else mtime = some value

/-- How the function goes on behind the headers: it is done, at the ranges or at the whole file. -/
inductive SendFileStep
  | answered (con : SendFileCon)
  | range (sce : SendFileEntry) (range : Bytes) (con : SendFileCon)
  | body (sce : SendFileEntry) (con : SendFileCon)

/-- Whether the request is for ranges. -/
def sendFileRange (conf : SendFileConf) (sce : SendFileEntry) (req : SendFileRequest)
    (con : SendFileCon) (mtime : Option Bytes) : SendFileStep :=
  match req.httpRange with
  | none => .body sce con
  | some range =>
    if conf.rangeRequests ∧ (con.httpStatus = 200 ∨ con.httpStatus = 0) ∧
        con.contentEncoding = false ∧ doRangeRequest req con mtime then
      .range sce range { con with fileFinished := true }
    else .body sce con

/-- The function up to the ranges. -/
def sendFileStart {Tm : Type} (lib : TimeLib Tm) (tm : Tm) (conf : SendFileConf)
    (stat : SendFileStat) (req : SendFileRequest) (con : SendFileCon) : SendFileStep :=
  match stat with
  | .error enoent => .answered (con.setStatus (if enoent then 404 else 403))
  | .entry sce =>
    if sce.isSymlink ∧ ¬ conf.followSymlink then .answered (con.setStatus 403)
    else if ¬ sce.isRegular then .answered (con.setStatus 403)
    else
      let allowCaching := con.httpStatus = 0 ∨ con.httpStatus = 200
      let t := sendFileContentType sce con
      let con :=
        if conf.rangeRequests then t.2.overwrite (str "Accept-Ranges") (str "bytes") else t.2
      if allowCaching ∧ t.1 then
        let m := sendFileMtime sce (sendFileEtag conf sce con)
        let cachable : CachableRequest :=
          ⟨req.httpMethod, m.2.physicalEtag, req.ifNoneMatch, req.ifModifiedSince⟩
        let r := httpResponseHandleCachable lib tm cachable m.1 ⟨m.2.httpStatus, m.2.direct⟩
        let con := { m.2.setStatus r.2.httpStatus with direct := r.2.direct }
        match r.1 with
        | .finished => .answered con
        | .goOn => sendFileRange conf sce req con (some m.1)
      else sendFileRange conf sce req con none

/-- `http_response_send_file`; `opened` is the size of the file that `http_chunk_append_file` opens, if
it can. -/
def httpResponseSendFile {Tm : Type} (lib : TimeLib Tm) (tm : Tm) (conf : SendFileConf)
    (stat : SendFileStat) (opened : Option ℕ) (req : SendFileRequest) (con : SendFileCon) :
    SendFileCon :=
  match sendFileStart lib tm conf stat req con with
  | .answered con => con
  | .range sce range con =>
    let r := httpResponseParseRange sce.size range con.contentType con.toRangeCon
    let con := { con with toRangeCon := r.2.con }
    if r.1 then con.setStatus 206 else con
  | .body sce con =>
    if sce.size = 0 then { con.setStatus 200 with fileFinished := true }
    else
      match opened with
      | none => con.setStatus 403
      | some size =>
        { con.setStatus 200 with
          writeQueue := appendFile con.writeQueue 0 size
          fileFinished := true }

/-! ## A failing list of ranges -/

/-- The text starts with a range that is read and is not satisfiable, or with a `-` that is not before
a positive number. -/
def FirstUnsatisfiable (n : ℕ) (s : Bytes) : Prop :=
  s.head? = some 45 ∧ (strtol 10 s).1 = 0 ∨
    ∃ w r multi rest, SpecText w r ∧ Readable r ∧ ¬ r.Satisfiable n ∧ EndsRange s w multi rest

theorem rangeEnd_ne_unsatisfiable (start stop : ℤ) (s : Bytes) (err : ℕ) :
    rangeEnd start stop s err ≠ .unsatisfiable := by
  unfold rangeEnd
  cases s[err]? with
  | none => simp
  | some c =>
    dsimp only
    split_ifs <;> simp

variable {s range : Bytes} {n : ℕ} {conf : SendFileConf} {sce : SendFileEntry}
  {req : SendFileRequest} {con con' : SendFileCon}

theorem rangeRead_eq_unsatisfiable_iff {size : ℤ} {minus : ℕ} :
    rangeRead size s minus = .unsatisfiable ↔ minus = 0 ∧ (strtol 10 s).1 = 0 := by
  unfold rangeRead
  dsimp only
  split_ifs <;> simp_all [rangeEnd_ne_unsatisfiable]

theorem rangeTurn_eq_unsatisfiable_iff (hn : n < 2 ^ 63) (h0 : 0 ∉ s) {minus : ℕ}
    (hminus : strchr s 45 = some minus) :
    rangeTurn n s minus = .unsatisfiable ↔ FirstUnsatisfiable n s := by
  constructor
  · intro h
    unfold rangeTurn at h
    cases hread : rangeRead n s minus with
    | malformed =>
      rw [hread] at h
      cases h
    | unsatisfiable =>
      obtain ⟨rfl, hzero⟩ := rangeRead_eq_unsatisfiable_iff.mp hread
      obtain ⟨u, v, rfl, hu, -, -⟩ := strchr_eq_some hminus
      obtain rfl := List.length_eq_zero_iff.mp hu
      exact .inl ⟨rfl, hzero⟩
    | range start stop multi rest =>
      obtain ⟨w, r, hspec, hr, hend, hstart, -⟩ := exists_specText_of_rangeRead hn hminus hread
      refine .inr ⟨w, r, multi, rest, hspec, hr, fun hsat => ?_, hend⟩
      rw [hread] at h
      dsimp only at h
      have hlt := ((satisfiable_iff_readable hn).mp hsat).2
      rw [← hstart] at hlt
      rw [if_neg (not_lt.mpr hlt)] at h
      cases h
  · rintro (⟨hhead, hzero⟩ | ⟨w, r, multi, rest, hspec, hr, hsat, hend⟩)
    · cases s with
      | nil => cases hhead
      | cons c t =>
        cases hhead
        have hfirst := strchr_append_cons (u := []) (c := 45) (by simp) (by simp) (by decide) t
        obtain rfl : minus = 0 := Option.some.inj (hminus.symm.trans hfirst)
        rw [rangeTurn, rangeRead_eq_unsatisfiable_iff.mpr ⟨rfl, hzero⟩]
    · obtain ⟨minus', hminus', hread⟩ := rangeRead_of_specText hn hspec hr hend h0
      obtain rfl := Option.some.inj (hminus.symm.trans hminus')
      have hlt : ¬ max (readBounds n r).1 0 ≤ (n : ℤ) - 1 :=
        fun hlt => hsat ((satisfiable_iff_readable hn).mpr ⟨hr, hlt⟩)
      rw [rangeTurn, hread]
      dsimp only
      rw [if_pos (not_le.mp hlt)]

theorem isPrefix_appendFile (cq : List RangeChunk) (start length : ℤ) :
    cq <+: appendFile cq start length := by
  unfold appendFile
  split_ifs
  · exact List.prefix_rfl
  · exact List.prefix_append _ _

/-- A turn of a multipart body starts with the header of a part. -/
theorem isPrefix_append (v : RangeLoop) (size : ℤ) (contentType : Bytes) (start stop : ℤ)
    (multi : Bool) :
    v.con.writeQueue ++
        (if v.multipart || multi then [.mem (partHeader contentType start stop size)] else []) <+:
      (v.append size contentType start stop multi).con.writeQueue := by
  let u : RangeLoop := ⟨v.multipart || multi, start, stop, v.con, v.computed⟩
  have hform : v.append size contentType start stop multi =
      (if u.multipart then u.appendBuffer (partHeader contentType start stop size)
        else u).appendPart := rfl
  rw [hform]
  split_ifs with hm
  · have hqueue : (u.appendBuffer (partHeader contentType start stop size)).con.writeQueue =
        v.con.writeQueue ++ [.mem (partHeader contentType start stop size)] :=
      (appended_appendBuffer u (partHeader_ne_nil contentType start stop size)).queue
    rw [← hqueue]
    exact isPrefix_appendFile _ _ _
  · rw [List.append_nil]
    exact isPrefix_appendFile _ _ _

theorem writeQueue_isPrefix_rangeLoop (size : ℤ) (contentType : Bytes) (fuel : ℕ)
    (v : RangeLoop) (s : Bytes) :
    v.con.writeQueue <+: (rangeLoop size contentType fuel v s).2.con.writeQueue := by
  induction fuel generalizing v s with
  | zero => exact List.prefix_rfl
  | succ fuel ih =>
    rw [rangeLoop]
    cases strchr s 45 with
    | none => exact List.prefix_rfl
    | some minus =>
      dsimp only
      cases rangeTurn size s minus with
      | unsatisfiable => exact List.prefix_rfl
      | malformed => exact List.prefix_rfl
      | range start stop multi rest =>
        let u : RangeLoop := { v with computed := v.computed ++ turnComputed size s minus }
        have hturn := (List.prefix_append _ _).trans
          (isPrefix_append u size contentType start stop multi)
        exact hturn.trans (ih _ _)

/-- How the loop fails: at the first range, or with the header of a part in the queue. -/
inductive RangeFails (n : ℕ) (s : Bytes) (con con' : RangeCon) : Prop
  | unsatisfiable : FirstUnsatisfiable n s → con' = { con with httpStatus := 416 } →
      RangeFails n s con con'
  | malformed : ¬ FirstUnsatisfiable n s → con' = con → RangeFails n s con con'
  | later {header : Bytes} : ¬ FirstUnsatisfiable n s → 0 < n →
      con.writeQueue ++ [.mem header] <+: con'.writeQueue → RangeFails n s con con'

theorem rangeFails_of_rangeLoop (hn : n < 2 ^ 63) {contentType : Bytes} {fuel : ℕ}
    {v v' : RangeLoop} (h0 : 0 ∉ s) (h : rangeLoop n contentType fuel v s = (false, v')) :
    RangeFails n s v.con v'.con := by
  cases fuel with
  | zero => cases h
  | succ fuel =>
    rw [rangeLoop] at h
    cases hminus : strchr s 45 with
    | none =>
      rw [hminus] at h
      cases h
    | some minus =>
      rw [hminus] at h
      dsimp only at h
      have hiff := rangeTurn_eq_unsatisfiable_iff hn h0 hminus
      cases hturn : rangeTurn n s minus with
      | unsatisfiable =>
        rw [hturn] at h
        cases h
        exact .unsatisfiable (hiff.mp hturn) rfl
      | malformed =>
        rw [hturn] at h hiff
        cases h
        exact .malformed (fun hfirst => absurd (hiff.mpr hfirst) (by decide)) rfl
      | range start stop multi rest =>
        rw [hturn] at h hiff
        dsimp only at h
        obtain ⟨w, r, hspec, hsat, hend⟩ := exists_specText_of_rangeTurn hn hminus hturn
        have hpos : 0 < n := (Nat.zero_le _).trans_lt (RangeSpec.clamp_bounds hsat).2
        rcases hend with ⟨rfl, rfl, rfl⟩ | ⟨rfl, rfl⟩
        · rw [rangeLoop_of_notMem List.not_mem_nil] at h
          cases h
        · let u : RangeLoop :=
            { v with computed := v.computed ++ turnComputed n (w ++ 44 :: rest) minus }
          have hqueue := isPrefix_append u n contentType start stop true
          rw [Bool.or_true, if_pos rfl] at hqueue
          have hrest := writeQueue_isPrefix_rangeLoop n contentType fuel
            (u.append n contentType start stop true) rest
          rw [h] at hrest
          exact .later (fun hfirst => by cases hiff.mpr hfirst) hpos (hqueue.trans hrest)

theorem rangeFails_of_httpResponseParseRange (hn : n < 2 ^ 63) {contentType : Buffer}
    {con : RangeCon} (h : (httpResponseParseRange n range contentType con).1 = false) :
    RangeFails n (cstr range) { con with contentLength := 0 }
      (httpResponseParseRange n range contentType con).2.con := by
  unfold httpResponseParseRange at h ⊢
  dsimp only at h ⊢
  split_ifs at h ⊢ with hloop hmultipart
  exact rangeFails_of_rangeLoop hn (notMem_cstr range) (Prod.ext (by simpa using hloop) rfl)

/-! ## What is left behind a failure -/

/-- The status that the response is sent with. -/
def SendFileCon.finalStatus (con : SendFileCon) : ℕ :=
  if con.httpStatus = 0 then 200 else con.httpStatus

/-- A whole file of `n` bytes in the queue. -/
def wholeFile (n : ℕ) : List RangeChunk := if n = 0 then [] else [.file 0 n]

/-- The response is an error without a part of the file, or the whole file. -/
def NoPartialBody (con con' : SendFileCon) (n : ℕ) : Prop :=
  con'.finalStatus = 416 ∧ con'.writeQueue = con.writeQueue ∨
    con'.finalStatus = 200 ∧ con'.writeQueue = con.writeQueue ++ wholeFile n

/-- The function is at the ranges with the queue it had, and without an error. -/
structure AtRanges (con con' : SendFileCon) : Prop where
  queue : con'.writeQueue = con.writeQueue
  status : con'.httpStatus = 200 ∨ con'.httpStatus = 0

theorem atRanges_of_sendFileRange {sce' : SendFileEntry} {mtime : Option Bytes}
    (h : sendFileRange conf sce req con mtime = .range sce' range con') :
    sce' = sce ∧ AtRanges con con' := by
  unfold sendFileRange at h
  cases hrange : req.httpRange with
  | none =>
    rw [hrange] at h
    cases h
  | some value =>
    rw [hrange] at h
    dsimp only at h
    split_ifs at h with hcond
    cases h
    exact ⟨rfl, rfl, hcond.2.1⟩

theorem writeQueue_sendFileContentType (sce : SendFileEntry) (con : SendFileCon) :
    (sendFileContentType sce con).2.writeQueue = con.writeQueue := by
  unfold sendFileContentType
  split_ifs <;> rfl

theorem writeQueue_sendFileEtag (conf : SendFileConf) (sce : SendFileEntry) (con : SendFileCon) :
    (sendFileEtag conf sce con).writeQueue = con.writeQueue := by
  unfold sendFileEtag
  split_ifs <;> rfl

theorem writeQueue_sendFileMtime (sce : SendFileEntry) (con : SendFileCon) :
    (sendFileMtime sce con).2.writeQueue = con.writeQueue := by
  unfold sendFileMtime
  cases con.lastModified <;> rfl

/-- The function is done without a part of the file, or comes to the ranges of a regular file that is
no link, or may be one. -/
theorem sendFileStart_cases {Tm : Type} (lib : TimeLib Tm) (tm : Tm) (conf : SendFileConf)
    (stat : SendFileStat) (req : SendFileRequest) (con : SendFileCon) :
    (∃ con', sendFileStart lib tm conf stat req con = .answered con' ∧
        con'.writeQueue = con.writeQueue) ∨
      ∃ sce con' mtime, stat = .entry sce ∧ ¬ (sce.isSymlink ∧ ¬ conf.followSymlink) ∧
        sce.isRegular = true ∧ con'.writeQueue = con.writeQueue ∧
        sendFileStart lib tm conf stat req con = sendFileRange conf sce req con' mtime := by
  unfold sendFileStart
  cases stat with
  | error enoent => exact .inl ⟨_, rfl, rfl⟩
  | entry sce =>
    dsimp only
    obtain ⟨u, hu⟩ : ∃ u, u = if conf.rangeRequests then
        (sendFileContentType sce con).2.overwrite (str "Accept-Ranges") (str "bytes")
      else (sendFileContentType sce con).2 := ⟨_, rfl⟩
    have hqueue : u.writeQueue = con.writeQueue := by
      rw [← writeQueue_sendFileContentType sce con, hu]
      split_ifs <;> rfl
    rw [← hu]
    split_ifs with hlink hregular hcaching
    · exact .inl ⟨_, rfl, rfl⟩
    · -- behind the conditional request
      obtain ⟨m, hm⟩ : ∃ m, m = sendFileMtime sce (sendFileEtag conf sce u) := ⟨_, rfl⟩
      have hqueue' : m.2.writeQueue = con.writeQueue := by
        rw [hm, writeQueue_sendFileMtime, writeQueue_sendFileEtag, hqueue]
      rw [← hm]
      cases (httpResponseHandleCachable lib tm ⟨req.httpMethod, m.2.physicalEtag,
        req.ifNoneMatch, req.ifModifiedSince⟩ m.1 ⟨m.2.httpStatus, m.2.direct⟩).1 with
      | finished => exact .inl ⟨_, rfl, hqueue'⟩
      | goOn =>
        refine .inr ⟨sce, _, some m.1, rfl, hlink, hregular, ?_, rfl⟩
        exact hqueue'
    · exact .inr ⟨sce, u, none, rfl, hlink, hregular, hqueue, rfl⟩
    · exact .inl ⟨_, rfl, rfl⟩

theorem atRanges_of_sendFileStart {Tm : Type} {lib : TimeLib Tm} {tm : Tm} {stat : SendFileStat}
    (h : sendFileStart lib tm conf stat req con = .range sce range con') : AtRanges con con' := by
  rcases sendFileStart_cases lib tm conf stat req con with
    ⟨u, hu, -⟩ | ⟨sce', u, mtime, -, -, -, hqueue, hu⟩
  · rw [hu] at h
    cases h
  · obtain ⟨-, hat⟩ := atRanges_of_sendFileRange (hu.symm.trans h)
    exact ⟨hat.queue.trans hqueue, hat.status⟩

/-- A failing list of ranges leaves no part of the file if and only if the file is empty or the first
range is not satisfiable. -/
theorem httpResponseSendFile_noPartialBody_iff {Tm : Type} {lib : TimeLib Tm} {tm : Tm}
    {conf : SendFileConf} {stat : SendFileStat} {sce : SendFileEntry} (hn : sce.size < 2 ^ 63)
    {req : SendFileRequest} {con con' : SendFileCon} {range : Bytes}
    (hstart : sendFileStart lib tm conf stat req con = .range sce range con')
    (hfail : (httpResponseParseRange sce.size range con'.contentType con'.toRangeCon).1 = false)
    (opened : Option ℕ) :
    NoPartialBody con (httpResponseSendFile lib tm conf stat opened req con) sce.size ↔
      sce.size = 0 ∨ FirstUnsatisfiable sce.size (cstr range) := by
  obtain ⟨hqueue, hstatus⟩ := atRanges_of_sendFileStart hstart
  have hsend : httpResponseSendFile lib tm conf stat opened req con =
      { con' with toRangeCon :=
        (httpResponseParseRange sce.size range con'.contentType con'.toRangeCon).2.con } := by
    rw [httpResponseSendFile, hstart]
    dsimp only
    rw [hfail, if_neg (by simp)]
  have hfails := rangeFails_of_httpResponseParseRange hn hfail
  rw [hsend]
  obtain ⟨u, hu⟩ : ∃ u, u =
      (httpResponseParseRange sce.size range con'.contentType con'.toRangeCon).2.con := ⟨_, rfl⟩
  rw [← hu] at hfails ⊢
  cases hfails with
  | unsatisfiable hfirst heq =>
    refine iff_of_true (.inl ⟨?_, ?_⟩) (.inr hfirst) <;> rw [heq]
    · rfl
    · exact hqueue
  | malformed hfirst heq =>
    have hfinal : { con' with toRangeCon := u }.finalStatus = 200 := by
      rw [heq]
      rcases hstatus with h | h <;> simp [SendFileCon.finalStatus, h]
    have hsame : u.writeQueue = con.writeQueue := by rw [heq, ← hqueue]
    unfold NoPartialBody
    rw [hfinal, or_iff_left hfirst]
    constructor
    · rintro (⟨h, -⟩ | ⟨-, h⟩)
      · cases h
      · have hnil := List.self_eq_append_right.mp (hsame.symm.trans h)
        by_contra hne
        rw [wholeFile, if_neg hne] at hnil
        cases hnil
    · intro hzero
      refine .inr ⟨rfl, ?_⟩
      rw [wholeFile, if_pos hzero, List.append_nil]
      exact hsame
  | @later header hfirst hpos hprefix =>
    obtain ⟨t, ht⟩ := hprefix
    have hlater : u.writeQueue = con.writeQueue ++ .mem header :: t := by
      rw [← ht, ← hqueue, List.append_assoc, List.singleton_append]
    refine iff_of_false ?_ (not_or.mpr ⟨hpos.ne', hfirst⟩)
    rintro (⟨-, h⟩ | ⟨-, h⟩)
    · have hnil := List.self_eq_append_right.mp (h.symm.trans hlater)
      cases hnil
    · rw [wholeFile, if_neg hpos.ne'] at h
      have hchunk := List.append_cancel_left (hlater.symm.trans h)
      cases hchunk

/-- A library without dates. -/
def noDates : TimeLib Unit := ⟨fun _ t => (false, t), id, fun t => (0, t)⟩

/-- A file of ten bytes. -/
def tenBytes : SendFileEntry := ⟨false, true, 10, str "text/plain", [], str "now"⟩

/-- A request for ranges. -/
def getRanges (range : Bytes) : SendFileRequest := ⟨.get, none, none, some range, none⟩

/-- A connection before the function. -/
def freshCon : SendFileCon := ⟨⟨0, [], -1, []⟩, true, false, none, none, none, none, false⟩

/-- The connection at the ranges. -/
def rangesCon : SendFileCon :=
  ⟨⟨0, [], -1, [.overwrite (str "Content-Type") (str "text/plain"),
    .overwrite (str "Accept-Ranges") (str "bytes"), .overwrite (str "Last-Modified") (str "now")]⟩,
    true, true, none, some (str "text/plain"), none, some (str "now"), false⟩

theorem sendFileStart_tenBytes (range : Bytes) :
    sendFileStart noDates () ⟨true, true, 0⟩ (.entry tenBytes) (getRanges range) freshCon =
      .range tenBytes range rangesCon := rfl

theorem httpResponseSendFile_behind :
    NoPartialBody freshCon
        (httpResponseSendFile noDates () ⟨true, true, 0⟩ (.entry tenBytes) (some 10)
          (getRanges (str "10-")) freshCon) 10 ↔
      10 = 0 ∨ FirstUnsatisfiable 10 (cstr (str "10-")) :=
  httpResponseSendFile_noPartialBody_iff (show tenBytes.size < 2 ^ 63 by decide)
    (sendFileStart_tenBytes _) (by decide) (some 10)

/-- Two bytes of the file are left, and the status is 200. -/
theorem httpResponseSendFile_inverted :
    httpRange (str "bytes=0-1,5-2") = some (str "0-1,5-2") ∧
      (httpResponseParseRange tenBytes.size (str "0-1,5-2") rangesCon.contentType
        rangesCon.toRangeCon).1 = false ∧
      ¬ NoPartialBody freshCon
        (httpResponseSendFile noDates () ⟨true, true, 0⟩ (.entry tenBytes) (some 10)
          (getRanges (str "0-1,5-2")) freshCon) 10 := by
  refine ⟨by decide, by decide, ?_⟩
  unfold NoPartialBody
  decide

end Lighttpd.RangeRequest
