import Lighttpd.ResponseFraming

/-!
# Assertions on the types of headers

`array_insert_unique` asserts that an element it merges into has the type of the entry. The
headers of a backend are `TYPE_RESPONSE`, and the server inserts its own as `TYPE_FIXED_HEADER`
without a look at what is there: `Connection` when it ends or keeps the connection, and the
header for `Accept-Ranges`, which has no name and gets a number.

`headerAssertions_iff` says for which headers of a backend an assertion fails.
-/

namespace Lighttpd

open CString ResponseHeaders

/-! ## Sending a file -/

/-- What `http_response_parse_range` finds. -/
inductive RangeOutcome
  | failed
  | multipart
  | single (start stop : ℕ)

/-- `http_response_parse_range`: the queue and the status it leaves, and its outcome. -/
structure RangeResult where
  writeQueue : Chunkqueue
  httpStatus : ℕ
  outcome : RangeOutcome

/-- What `http_response_send_file` finds out about a regular file and the request: its contents,
content type, etag when it is to be sent, modification time, whether ranges are allowed, the status
with which `http_response_handle_cachable` ends the response, and the range that is asked for. -/
structure SendFile where
  contents : Bytes
  contentType : Bytes
  etag : Option Bytes
  mtime : Bytes
  rangeRequests : Bool
  cachable : Option ℕ
  range : Option RangeResult
  opens : Bool

/-- `response_header_overwrite` when there is no header of this name. -/
def setIfAbsent (con : ResponseCon) (key value : Bytes) : Option ResponseCon :=
  if (con.headers.getElement key).isSome then some con
  else (responseHeaderOverwrite con.headers key value).map fun headers =>
    { con with headers := headers }

/-- The headers for a range. -/
def sendRange (file : SendFile) (con : ResponseCon) (range : RangeResult) : Option ResponseCon :=
  let con :=
    { con with
      fileFinished := true
      writeQueue := range.writeQueue
      httpStatus := range.httpStatus }
  match range.outcome with
  | .failed => some con
  | .multipart =>
    (responseHeaderOverwrite con.headers (str "Content-Type")
      (str "multipart/byteranges; boundary=fkj49sn38dcn3")).map fun headers =>
        { con with headers := headers, httpStatus := 206 }
  | .single start stop =>
    (responseHeaderInsert con.headers (str "Content-Range")
      (str "bytes " ++ itostr start ++ str "-" ++ itostr stop ++ str "/" ++
        itostr file.contents.length)).map fun headers =>
        { con with headers := headers, httpStatus := 206 }

/-- The whole file as the body. -/
def sendContents (conf : WriteConf) (file : SendFile) (con : ResponseCon) : ResponseCon :=
  if file.contents.length = 0 then { con with httpStatus := 200, fileFinished := true }
  else
    let r := httpChunkAppendFile (con.chunkConf conf) con.writeQueue
      (if file.opens then some file.contents else none)
    if r.1 then { con with writeQueue := r.2, httpStatus := 200, fileFinished := true }
    else { con with writeQueue := r.2, httpStatus := 403 }

/-- The headers for caches. -/
def sendCacheHeaders (file : SendFile) (con : ResponseCon) : Option ResponseCon :=
  (match file.etag with
    | some etag => setIfAbsent con (str "ETag") etag
    | none => some con).bind fun con => setIfAbsent con (str "Last-Modified") file.mtime

/-- `response_header_fixed_overwrite` of the header for ranges. -/
def sendAcceptRanges (file : SendFile) (con : ResponseCon) : Option ResponseCon :=
  if file.rangeRequests then
    (responseHeaderFixedOverwrite con.headers .acceptRangesBytes).map fun headers =>
      { con with headers := headers }
  else some con

/-- The range, when one is asked for and the body is not encoded, or the whole file. -/
def sendBody (conf : WriteConf) (file : SendFile) (con : ResponseCon) : Option ResponseCon :=
  match file.range with
  | some range =>
    if file.rangeRequests ∧ (con.httpStatus = 200 ∨ con.httpStatus = 0) ∧
        con.headers.getElement (str "Content-Encoding") = none then
      sendRange file con range
    else some (sendContents conf file con)
  | none => some (sendContents conf file con)

/-- The part behind the headers for every request: a response that is cached by the client ends
here. -/
def sendCached (conf : WriteConf) (file : SendFile) (allowCaching : Bool) (con : ResponseCon) :
    Option ResponseCon :=
  if allowCaching then
    (sendCacheHeaders file con).bind fun con =>
      match file.cachable with
      | some status => some { con with httpStatus := status, direct := con.direct ∨ status = 412 }
      | none => sendBody conf file con
  else sendBody conf file con

/-- `http_response_send_file` of a regular file, or with the status for what is not one. -/
def httpResponseSendFile (conf : WriteConf) (file : Except ℕ SendFile) (con : ResponseCon) :
    Option ResponseCon :=
  match file with
  | .error status => some { con with httpStatus := status }
  | .ok file =>
    let allowCaching := (con.httpStatus = 0 ∨ con.httpStatus = 200) ∧
      ((con.headers.getElement (str "Content-Type")).isSome ∨ file.contentType ≠ [])
    let contentType :=
      if file.contentType = [] then str "application/octet-stream" else file.contentType
    (setIfAbsent con (str "Content-Type") contentType).bind fun con =>
      (sendAcceptRanges file con).bind (sendCached conf file allowCaching)

/-! ## Headers that are already there -/

/-- The response has a header with this name. -/
def hasHeader (con : ResponseCon) (name : Bytes) : Bool := (con.headers.getElement name).isSome

/-- The response is complete before it is framed. -/
def preparedFinished (conf : WriteConf) (con : ResponseCon) : Bool :=
  con.fileFinished || dropsBody con || preparesErrorDocument conf con

/-- A body of which more is to come is not framed. -/
def isUnframed (con : ResponseCon) (httpStatus : ℕ) : Bool :=
  ¬ (con.parsedResponse.contentLength ∨ con.parsedResponse.transferEncoding ∨
      con.parsedResponse.upgrade) ∧
    ¬ (con.httpMethod = .connect ∧ httpStatus = 200) ∧ con.httpVersion ≠ .http11

/-- The framing of a body of which more is to come ends keep-alive. -/
def endsKeepAlive (con : ResponseCon) (httpStatus : ℕ) : Bool :=
  isUnframed con httpStatus || (con.parsedResponse.connection && !con.responseKeepAlive)

/-- Keep-alive when the header block is written. -/
def preparedKeepAlive (conf : WriteConf) (con : ResponseCon) : Bool :=
  con.keepAlive && (preparedFinished conf con || !endsKeepAlive con (preparedStatus con))

/-- The fixed header for the end of the connection that `http_response_write_header` inserts. -/
def writtenConnectionHeader (conf : WriteConf) (con : ResponseCon) : Option FixedType :=
  connectionHeader (limitKeepAlive conf con)

/-- No assertion of the three functions fails. -/
structure AssertionsHold (conf : WriteConf) (file : Except ℕ SendFile) (con : ResponseCon) :
    Prop where
  writeHeader : httpResponseWriteHeader conf con ≠ none
  writePrepare : connectionHandleWritePrepare conf con ≠ none
  sendFile : httpResponseSendFile conf file con ≠ none

/-- The headers of the backend do not have a name that the server is to insert. -/
structure NoClash (conf : WriteConf) (file : Except ℕ SendFile) (con : ResponseCon) : Prop where
  writeHeader : hasHeader con (str "Connection") → writtenConnectionHeader conf con = none
  writePrepare : hasHeader con (str "Connection") → preparesErrorDocument conf con ∨
    writtenConnectionHeader conf { con with keepAlive := preparedKeepAlive conf con } = none
  sendFile : hasHeader con (str "0") → ∀ f, file = .ok f → f.rangeRequests = false

variable {con : ResponseCon} {h : ResponseHeaders} {conf : WriteConf}

/-- An assertion of `http_response_write_header` fails exactly when the header for the end of the
connection meets one of the connection's own. -/
theorem writeHeader_eq_none_iff (conf : WriteConf) (hi : Indexed con.headers.view)
    (hown : ∀ e, con.headers.getElement (str "Connection") = some e → e.type = .response) :
    httpResponseWriteHeader conf con = none ↔
      hasHeader con (str "Connection") ∧ writtenConnectionHeader conf con ≠ none := by
  obtain ⟨b, hb⟩ := limitKeepAlive_eq conf con
  rw [httpResponseWriteHeader, Option.map_eq_none_iff, insertConnectionHeader,
    writtenConnectionHeader]
  split
  · next t ht =>
    obtain ⟨value, hreg⟩ : ∃ value, t.registered = some (str "Connection", value) := by
      unfold connectionHeader at ht
      split_ifs at ht <;> cases ht <;> exact ⟨_, rfl⟩
    rw [Option.map_eq_none_iff, hb, fixedOverwrite_eq_none_iff hi hreg, hasHeader,
      Option.isSome_iff_exists]
    constructor
    · rintro ⟨old, hold, -⟩
      refine ⟨⟨old, hold⟩, ?_⟩
      rw [← hb, ht]
      exact Option.some_ne_none t
    · rintro ⟨⟨old, hold⟩, -⟩
      exact ⟨old, hold, by rw [hown old hold]; decide⟩
  · next ht => simp [ht]

/-! ## The preparation -/

/-- What the first two parts of the preparation leave. -/
structure StatusPrepared (conf : WriteConf) (con con' : ResponseCon) : Prop where
  eq : con' = { con with
    httpStatus := preparedStatus con
    headers := con'.headers
    writeQueue := con'.writeQueue
    io := con'.io
    chunked := con'.chunked
    parsedResponse := { con.parsedResponse with
      contentLength := con.parsedResponse.contentLength && !dropsBody con }
    fileFinished := preparedFinished conf con }
  own : OwnHeaders con'.headers
  hasConnection : hasHeader con' (str "Connection") =
    (hasHeader con (str "Connection") && !preparesErrorDocument conf con)

theorem statusPrepared (conf : WriteConf) (ho : OwnHeaders con.headers) :
    ∃ con', (prepareDirect con).bind (prepareStatus conf) = some con' ∧
      StatusPrepared conf con con' := by
  unfold prepareStatus
  rcases prepareDirect_spec ho with ⟨hopt, h₁⟩ | ⟨hopt, headers, ho', hc, h₁⟩
  · rw [h₁, Option.bind_some]
    dsimp only
    by_cases honly : isHeaderOnly (preparedStatus con)
    · have herr : preparesErrorDocument conf con = false :=
        not_isErrorDocument (lt_of_isHeaderOnly honly)
      have hdrops : dropsBody con = true := by simp [dropsBody, honly]
      rw [if_pos honly]
      refine ⟨_, rfl, ?_, ho, by simp [herr, hasHeader]⟩
      simp [hdrops, preparedFinished]
    · have hdrops : dropsBody con = false := by simp [dropsBody, hopt, honly]
      rw [if_neg honly]
      by_cases herr : preparesErrorDocument conf con
      · rw [if_pos (show isErrorDocument conf _ = true from herr)]
        obtain ⟨con₀, hinit, herror₀⟩ := errdocInit_spec
          { con with httpStatus := preparedStatus con, fileFinished := false }
        obtain ⟨con₃, hbody, herror, hfin⟩ := errorBody_spec conf herror₀
        rw [hinit, Option.bind_some, hbody]
        refine ⟨con₃, rfl, ?_, herror.own, ?_⟩
        · conv_lhs => rw [herror.eq]
          simp [hdrops, preparedFinished, herr, hfin]
        · simp [hasHeader, herror.absent (str "Connection") (by decide) (by decide), herr]
      · rw [if_neg (show ¬ isErrorDocument conf _ = true from herr)]
        refine ⟨_, rfl, ?_, ho, by simp [herr, hasHeader]⟩
        simp [hdrops, preparedFinished, herr]
  · have hstatus : preparedStatus con = 200 := if_pos hopt
    have herr : preparesErrorDocument conf con = false := not_isErrorDocument (by simp [hstatus])
    have hdrops : dropsBody con = true := by simp [dropsBody, hopt]
    have honly : ¬ isHeaderOnly (preparedStatus con) := by
      rw [hstatus]
      decide
    rw [h₁, Option.bind_some]
    dsimp only
    rw [if_neg honly, not_isErrorDocument (by simp [hstatus]), if_neg Bool.false_ne_true]
    refine ⟨_, rfl, by simp [hdrops, preparedFinished], ho', ?_⟩
    simp [hasHeader, hc.others (str "Connection") (by decide), herr]

theorem changedAt_clearHeader (hi : Indexed h.view) (key : Bytes) :
    ChangedAt key h (clearHeader h key) := by
  unfold clearHeader
  rcases arrayGetIndex_fst hi key with ⟨ndx, e, hget, helem, -, hk⟩ | ⟨hget, -⟩
  · rw [hget]
    exact (setValueAt_spec hi helem hk none).1
  · rw [hget]
    exact ⟨hi, fun _ _ => rfl, rfl⟩

/-- `response_header_fixed_append` does not fail: it inserts the header when there is none. -/
theorem fixedAppend_spec (hi : Indexed h.view) {t : FixedType} {key value : Bytes}
    (ht : t.registered = some (key, value)) :
    ∃ h', responseHeaderFixedAppend h key value t = some h' ∧ ChangedAt key h h' := by
  unfold responseHeaderFixedAppend
  rcases arrayGetIndex_fst hi key with ⟨ndx, e, hget, helem, -, hk⟩ | ⟨hget, hnone⟩
  · rw [hget]
    exact ⟨_, rfl, (setValueAt_spec hi helem hk _).1⟩
  · have hspec := fixedOverwrite_spec hi ht
    rw [hnone] at hspec
    obtain ⟨h', hins, hc, -⟩ := hspec
    rw [hget]
    exact ⟨h', hins, hc⟩

/-- What the third part leaves. -/
structure FramingPrepared (con con' : ResponseCon) : Prop where
  eq : con' = { con with
    headers := con'.headers
    writeQueue := con'.writeQueue
    chunked := con'.chunked
    keepAlive := con.keepAlive && (con.fileFinished || !endsKeepAlive con con.httpStatus) }
  indexed : Indexed con'.headers.view
  connection : con'.headers.getElement (str "Connection") =
    con.headers.getElement (str "Connection")

theorem frameFinished_prepared (ho : OwnHeaders con.headers) (hfin : con.fileFinished) :
    ∃ con', frameFinished con = some con' ∧ FramingPrepared con con' := by
  have hkeep : (con.keepAlive && (con.fileFinished || !endsKeepAlive con con.httpStatus)) =
      con.keepAlive := by simp [hfin]
  unfold frameFinished
  dsimp only
  split_ifs
  · exact ⟨_, rfl, by rw [hkeep], ho.indexed, rfl⟩
  · have hc := changedAt_clearHeader ho.indexed (str "Content-Length")
    exact ⟨_, rfl, by rw [hkeep], hc.indexed, hc.others _ (by decide)⟩
  · obtain ⟨h', e, hover, ho', hc, -⟩ := ho.overwrite (str "Content-Length")
      (itostr (chunkqueueLength con.writeQueue))
    rw [hover]
    exact ⟨_, rfl, by rw [hkeep], hc.indexed, hc.others _ (by decide)⟩
  · exact ⟨_, rfl, by rw [hkeep], ho.indexed, rfl⟩

theorem followBackend_eq (con : ResponseCon) :
    followBackend con = { con with
      keepAlive := con.keepAlive && !(con.parsedResponse.connection && !con.responseKeepAlive) } := by
  unfold followBackend
  split_ifs with h
  · simp [h.1, h.2.2]
  · by_cases hk : con.keepAlive
    · rw [show (con.parsedResponse.connection && !con.responseKeepAlive) = false by
        simpa [hk] using h]
      simp
    · rw [show con.keepAlive = false by simpa using hk, Bool.false_and,
        ← show con.keepAlive = false by simpa using hk]

theorem frameStarted_prepared (hi : Indexed con.headers.view) (hfin : con.fileFinished = false) :
    ∃ con', (frameStarted con).map followBackend = some con' ∧ FramingPrepared con con' := by
  have hstays : isUnframed con con.httpStatus = false →
      (con.keepAlive && (con.fileFinished || !endsKeepAlive con con.httpStatus)) =
        (con.keepAlive && !(con.parsedResponse.connection && !con.responseKeepAlive)) := by
    intro h
    rw [hfin, endsKeepAlive, h]
    simp
  unfold frameStarted
  split_ifs with hflags hconnect hversion
  · have hkeep := hstays (by simp [isUnframed, hflags])
    exact ⟨_, rfl, by rw [followBackend_eq, hkeep], by rwa [followBackend_eq],
      by rw [followBackend_eq]⟩
  · have hkeep := hstays (by simp [isUnframed, hconnect])
    exact ⟨_, rfl, by rw [followBackend_eq, hkeep], by rwa [followBackend_eq],
      by rw [followBackend_eq]⟩
  · obtain ⟨h', hins, hc⟩ := fixedAppend_spec hi (t := .transferEncodingChunked) rfl
    have hkeep := hstays (by simp [isUnframed, hversion])
    rw [hins, Option.map_some, Option.map_some, followBackend_eq]
    exact ⟨_, rfl, by rw [hkeep], hc.indexed, hc.others _ (by decide)⟩
  · have hkeep : (con.keepAlive && (con.fileFinished || !endsKeepAlive con con.httpStatus)) =
        false := by
      simp [hfin, endsKeepAlive, isUnframed, hflags, hconnect, hversion]
    rw [Option.map_some, followBackend_eq]
    exact ⟨_, rfl, by rw [hkeep, Bool.false_and], hi, rfl⟩

theorem framingPrepared (ho : OwnHeaders con.headers) :
    ∃ con', prepareFraming con = some con' ∧ FramingPrepared con con' := by
  unfold prepareFraming
  by_cases hfin : con.fileFinished
  · rw [if_pos hfin]
    exact frameFinished_prepared ho hfin
  · rw [if_neg hfin]
    exact frameStarted_prepared ho.indexed (by simpa using hfin)

/-- The header for the end of the connection depends on four fields. -/
theorem writtenConnectionHeader_congr {con' : ResponseCon}
    (hu : con'.parsedResponse.upgrade = con.parsedResponse.upgrade)
    (hv : con'.httpVersion = con.httpVersion) (hk : con'.keepAlive = con.keepAlive)
    (hr : con'.requestCount = con.requestCount) :
    writtenConnectionHeader conf con' = writtenConnectionHeader conf con := by
  unfold writtenConnectionHeader limitKeepAlive connectionHeader
  rw [hr]
  split_ifs <;> simp_all

theorem keepAlive_prepared {con₂ con₃ : ResponseCon} (hstatus : StatusPrepared conf con con₂)
    (hframing : FramingPrepared con₂ con₃) : con₃.keepAlive = preparedKeepAlive conf con := by
  rw [hframing.eq]
  dsimp only
  rw [hstatus.eq]
  dsimp only
  unfold preparedKeepAlive
  by_cases hfin : preparedFinished conf con
  · simp [hfin]
  · have hdrops : dropsBody con = false := by
      simp only [preparedFinished, Bool.or_eq_true, not_or] at hfin
      simpa using hfin.1.2
    simp [endsKeepAlive, isUnframed, hdrops]

theorem prepareHead_spec (hi : Indexed con.headers.view) :
    Indexed (prepareHead con).headers.view ∧
      (prepareHead con).headers.getElement (str "Connection") =
        con.headers.getElement (str "Connection") ∧
      ∀ conf, writtenConnectionHeader conf (prepareHead con) = writtenConnectionHeader conf con := by
  have hc := changedAt_clearHeader hi (str "Transfer-Encoding")
  unfold prepareHead
  split_ifs
  · exact ⟨hc.indexed, hc.others _ (by decide),
      fun conf => writtenConnectionHeader_congr rfl rfl rfl rfl⟩
  · exact ⟨hi, rfl, fun conf => writtenConnectionHeader_congr rfl rfl rfl rfl⟩
  · exact ⟨hi, rfl, fun conf => rfl⟩

/-- An assertion of `connection_handle_write_prepare` fails exactly when one fails in the header
block. -/
theorem writePrepare_eq_none_iff (conf : WriteConf) (ho : OwnHeaders con.headers) :
    connectionHandleWritePrepare conf con = none ↔
      hasHeader con (str "Connection") ∧ preparesErrorDocument conf con = false ∧
        writtenConnectionHeader conf { con with keepAlive := preparedKeepAlive conf con } ≠ none := by
  obtain ⟨con₂, h₂, hstatus⟩ := statusPrepared conf ho
  obtain ⟨con₃, h₃, hframing⟩ := framingPrepared hstatus.own
  have hprep : connectionHandleWritePrepare conf con =
      httpResponseWriteHeader conf (prepareHead con₃) := by
    obtain ⟨con₁, h₁, h₂⟩ := Option.bind_eq_some_iff.mp h₂
    simp only [connectionHandleWritePrepare, h₁, h₂, h₃, Option.bind_eq_bind, Option.bind_some]
  obtain ⟨hi, hconnection, hwritten⟩ := prepareHead_spec hframing.indexed
  have hown : ∀ e, (prepareHead con₃).headers.getElement (str "Connection") = some e →
      e.type = .response := by
    intro e he
    rw [hconnection, hframing.connection, getElement_eq_some_iff hstatus.own.indexed] at he
    exact (hstatus.own.own e he.1).1
  have hhas : hasHeader (prepareHead con₃) (str "Connection") = hasHeader con₂ (str "Connection") := by
    rw [hasHeader, hconnection, hframing.connection, hasHeader]
  have hheader : writtenConnectionHeader conf (prepareHead con₃) =
      writtenConnectionHeader conf { con with keepAlive := preparedKeepAlive conf con } := by
    rw [hwritten]
    refine writtenConnectionHeader_congr ?_ ?_ (keepAlive_prepared hstatus hframing) ?_ <;>
      rw [hframing.eq, hstatus.eq]
  rw [hprep, writeHeader_eq_none_iff conf hi hown, hhas, hstatus.hasConnection, hheader]
  simp [and_assoc]

/-! ## Sending a file -/

/-- The instance that has no header of its own gets the number of the array as its key, which no
element of the connection sees. -/
theorem generateKey_acceptRanges (ho : OwnHeaders h) :
    ∃ h₁, h.generateKey (.fixed .acceptRangesBytes) = (.fixed .acceptRangesBytes, h₁) ∧
      (h₁.fixed.instances .acceptRangesBytes).key.string = str "0" ∧
      (h₁.fixed.instances .acceptRangesBytes).type = .fixedHeader ∧
      Indexed h₁.view ∧ ∀ name, h₁.getElement name = h.getElement name := by
  have hkey : (h.fixed.instances .acceptRangesBytes).key = none ∨
      (h.fixed.instances .acceptRangesBytes).isIndexKey :=
    (h.fixed.hasKey .acceptRangesBytes).2
  refine ⟨_, dif_pos hkey, ?_⟩
  generalize hh₁ : ({ fixed := _, array := _ } : ResponseHeaders) = h₁
  have hdata : h₁.array.data = h.array.data := by rw [← hh₁]
  have helems : h₁.elements = h.elements := by
    unfold elements
    rw [hdata]
    refine List.map_congr_left fun ref hmem => ?_
    cases ref with
    | own key isIndexKey value => rfl
    | fixed t =>
      have hown := (ho.own _ (List.mem_map_of_mem (f := HeaderRef.get h.fixed) hmem)).1
      exact absurd ((h.fixed.hasKey t).1.symm.trans hown) (by decide)
  have hi : Indexed h₁.view := indexed_of_keys ho.indexed (by rw [← hh₁]) (by rw [helems])
  refine ⟨?_, (h₁.fixed.hasKey _).1, hi, fun name => Option.ext fun e => ?_⟩
  · rw [← hh₁]
    simp only [FixedHeaders.setIndexKey, Function.update_self, ho.uniqueNdx]
    decide
  · rw [getElement_eq_some_iff hi, getElement_eq_some_iff ho.indexed, helems]

/-- The headers behind the insertion of the header for ranges: the assertion fails on a header
with the name `0`, and other names are not touched. -/
theorem acceptRanges_spec (ho : OwnHeaders h) :
    if (h.getElement (str "0")).isSome then responseHeaderFixedOverwrite h .acceptRangesBytes = none
    else ∃ h', responseHeaderFixedOverwrite h .acceptRangesBytes = some h' ∧ Indexed h'.view ∧
      ∀ name, ¬ CaseEq name (str "0") → h'.getElement name = h.getElement name := by
  obtain ⟨h₁, hgen, hkey, htype, hi, hsame⟩ := generateKey_acceptRanges ho
  have hspec := insertUnique_generated hi hgen
  rw [show (HeaderRef.fixed .acceptRangesBytes).get h₁.fixed =
    h₁.fixed.instances .acceptRangesBytes from rfl, hkey, htype, hsame] at hspec
  rcases hfound : h.getElement (str "0") with _ | old
  · rw [hfound] at hspec
    obtain ⟨h', hins, hc, -⟩ := hspec
    exact ⟨h', hins, hc.indexed, fun name hne => (hc.others name hne).trans (hsame name)⟩
  · rw [hfound] at hspec
    have hold := (ho.own old ((getElement_eq_some_iff ho.indexed).mp hfound).1).1
    exact (if_neg (by rw [hold]; decide)).mp hspec

/-- Headers on which the calls for a file cannot fail. -/
structure RangeReady (h : ResponseHeaders) : Prop where
  indexed : Indexed h.view
  contentRange : ∀ e, h.getElement (str "Content-Range") = some e → e.type = .response

theorem RangeReady.changed {h' : ResponseHeaders} {key : Bytes} (hr : RangeReady h)
    (hc : ChangedAt key h h') (hne : ¬ CaseEq (str "Content-Range") key) : RangeReady h' :=
  ⟨hc.indexed, fun e he => hr.contentRange e (by rwa [hc.others _ hne] at he)⟩

theorem setIfAbsent_spec (hr : RangeReady con.headers) (key : Bytes) (value : Bytes)
    (hne : ¬ CaseEq (str "Content-Range") key) :
    ∃ con', setIfAbsent con key value = some con' ∧ RangeReady con'.headers := by
  unfold setIfAbsent
  split_ifs
  · exact ⟨con, rfl, hr⟩
  · obtain ⟨h', hover, hc⟩ := overwrite_changedAt hr.indexed key value
    rw [hover]
    exact ⟨_, rfl, hr.changed hc hne⟩

theorem sendBody_isSome {file : SendFile} (hr : RangeReady con.headers) :
    sendBody conf file con ≠ none := by
  unfold sendBody
  split
  · next range _ =>
    split_ifs
    · unfold sendRange
      dsimp only
      split
      · simp
      · obtain ⟨h', hover, -⟩ := overwrite_changedAt hr.indexed (str "Content-Type")
          (str "multipart/byteranges; boundary=fkj49sn38dcn3")
        rw [hover]
        exact Option.some_ne_none _
      · next start stop _ =>
        obtain ⟨h', hins, -⟩ := insert_changedAt hr.indexed (str "bytes " ++ itostr start ++ str "-" ++
          itostr stop ++ str "/" ++ itostr file.contents.length) hr.contentRange
        rw [hins]
        exact Option.some_ne_none _
    · simp
  · simp

theorem sendCacheHeaders_spec (file : SendFile) (hr : RangeReady con.headers) :
    ∃ con', sendCacheHeaders file con = some con' ∧ RangeReady con'.headers := by
  obtain ⟨con₁, h₁, hr₁⟩ : ∃ con', (match file.etag with
      | some etag => setIfAbsent con (str "ETag") etag
      | none => some con) = some con' ∧ RangeReady con'.headers := by
    split
    · next etag _ => exact setIfAbsent_spec hr _ etag (by decide)
    · exact ⟨con, rfl, hr⟩
  obtain ⟨con₂, h₂, hr₂⟩ := setIfAbsent_spec hr₁ (str "Last-Modified") file.mtime (by decide)
  exact ⟨con₂, by rw [sendCacheHeaders, h₁, Option.bind_some, h₂], hr₂⟩

theorem sendCached_isSome {conf : WriteConf} {file : SendFile} {allowCaching : Bool}
    {con : ResponseCon} (hr : RangeReady con.headers) :
    sendCached conf file allowCaching con ≠ none := by
  unfold sendCached
  split_ifs
  · obtain ⟨con', hcache, hr'⟩ := sendCacheHeaders_spec file hr
    rw [hcache, Option.bind_some]
    split
    · exact Option.some_ne_none _
    · exact sendBody_isSome hr'
  · exact sendBody_isSome hr

/-- `Content-Type` is set among headers that are all the connection's own. -/
theorem setIfAbsent_own (ho : OwnHeaders con.headers) (key : Bytes) (value : Bytes)
    (hne : ¬ CaseEq (str "0") key) :
    ∃ con', setIfAbsent con key value = some con' ∧ OwnHeaders con'.headers ∧
      con'.headers.getElement (str "0") = con.headers.getElement (str "0") := by
  unfold setIfAbsent
  split_ifs
  · exact ⟨con, rfl, ho, rfl⟩
  · obtain ⟨h', e, hover, ho', hc, -⟩ := ho.overwrite key value
    rw [hover]
    exact ⟨_, rfl, ho', hc.others _ hne⟩

/-- An assertion of `http_response_send_file` fails exactly when ranges are allowed and there is a
header with the name `0`. -/
theorem sendFile_eq_none_iff (conf : WriteConf) (file : Except ℕ SendFile)
    (ho : OwnHeaders con.headers) :
    httpResponseSendFile conf file con = none ↔
      hasHeader con (str "0") ∧ ∃ f, file = .ok f ∧ f.rangeRequests := by
  cases file with
  | error status => simp [httpResponseSendFile]
  | ok file =>
    unfold httpResponseSendFile
    dsimp only
    obtain ⟨con₁, h₁, ho₁, hzero⟩ := setIfAbsent_own ho (str "Content-Type")
      (if file.contentType = [] then str "application/octet-stream" else file.contentType)
      (by decide)
    have hspec := acceptRanges_spec ho₁
    rw [h₁, Option.bind_some, sendAcceptRanges, hasHeader, ← hzero]
    by_cases hranges : file.rangeRequests
    · rw [if_pos hranges]
      split_ifs at hspec with hfound
      · simp [hspec, hfound, hranges]
      · obtain ⟨h', hins, hi, hothers⟩ := hspec
        have hready : RangeReady h' := ⟨hi, fun e he => by
          rw [hothers _ (by decide), getElement_eq_some_iff ho₁.indexed] at he
          exact (ho₁.own e he.1).1⟩
        rw [hins, Option.map_some, Option.bind_some]
        simp [@sendCached_isSome conf file _ { con₁ with headers := h' } hready, hfound]
    · rw [if_neg hranges, Option.bind_some]
      have hready : RangeReady con₁.headers := ⟨ho₁.indexed, fun e he =>
        (ho₁.own e ((getElement_eq_some_iff ho₁.indexed).mp he).1).1⟩
      simp [sendCached_isSome hready, hranges]

/-- For the headers that backends produce, no assertion of the three functions fails exactly when
no header has a name that the server is to insert: `Connection` when it ends or keeps the
connection, and `0` when it allows ranges of a file. -/
theorem headerAssertions_iff (conf : WriteConf) (file : Except ℕ SendFile) (con : ResponseCon)
    (parsed : ParsedResponse) (hist : BackendHistory con.headers parsed) :
    AssertionsHold conf file con ↔ NoClash conf file con := by
  have ho : OwnHeaders con.headers :=
    (@BackendHistory.synced _ _ hist { con with parsedResponse := parsed } rfl rfl).own
  have hwrite := writeHeader_eq_none_iff conf ho.indexed fun e he =>
    (ho.own e ((getElement_eq_some_iff ho.indexed).mp he).1).1
  have hprep := writePrepare_eq_none_iff conf ho
  have hsend := sendFile_eq_none_iff conf file ho
  constructor
  · rintro ⟨h₁, h₂, h₃⟩
    rw [ne_eq, hwrite] at h₁
    rw [ne_eq, hprep] at h₂
    rw [ne_eq, hsend] at h₃
    refine ⟨fun hc => ?_, fun hc => ?_, fun hz f hf => ?_⟩
    · by_contra hne
      exact h₁ ⟨hc, hne⟩
    · by_contra hne
      rw [not_or] at hne
      exact h₂ ⟨hc, by simpa using hne.1, hne.2⟩
    · by_contra hne
      exact h₃ ⟨hz, f, hf, by simpa using hne⟩
  · rintro ⟨h₁, h₂, h₃⟩
    refine ⟨?_, ?_, ?_⟩
    · rw [ne_eq, hwrite]
      exact fun ⟨hc, hne⟩ => hne (h₁ hc)
    · rw [ne_eq, hprep]
      rintro ⟨hc, herr, hne⟩
      rcases h₂ hc with h | h
      · exact absurd h (by simp [herr])
      · exact hne h
    · rw [ne_eq, hsend]
      rintro ⟨hz, f, hf, hr⟩
      exact absurd (h₃ hz f hf) (by simp [hr])

theorem headerAssertions_iff_start :
    AssertionsHold plainConf (.ok ⟨str "text", [], none, str "now", true, none, none, true⟩)
      { ResponseCon.start .get .http11 (str "/") with keepAlive := false } := by
  have hnone : ∀ name, hasHeader (.start .get .http11 (str "/")) name = false := fun name => by
    rw [hasHeader, show (ResponseCon.start .get .http11 (str "/")).headers =
      ResponseHeaders.reset ⟨.register, ⟨[], [], 0⟩⟩ from rfl, getElement_reset]
    rfl
  refine (headerAssertions_iff plainConf _ _ .none (.reset ⟨.register, ⟨[], [], 0⟩⟩)).mpr
    ⟨fun h => ?_, fun h => ?_, fun h => ?_⟩
  all_goals exact absurd h (Bool.eq_false_iff.mp (hnone _))

/-- A backend that sends `Connection` to a client that closes the connection, and one that sends a
header with the name `0` and has the server send a file. -/
theorem headerAssertions_fail :
    (∃ con, httpResponseProcessHeaders ⟨.cgi, false⟩ (.start .get .http11 (str "/"))
        (str "Connection: close\r\n") = some (true, con) ∧
      httpResponseWriteHeader plainConf { con with keepAlive := false } = none ∧
      connectionHandleWritePrepare plainConf { con with httpStatus := 200 } = none) ∧
    ∃ con, httpResponseProcessHeaders ⟨.cgi, false⟩ (.start .get .http11 (str "/"))
        (str "0: x\r\n") = some (true, con) ∧
      httpResponseSendFile plainConf
        (.ok ⟨str "text", [], none, str "now", true, none, none, true⟩) con = none := by
  have hclose : ((httpResponseProcessHeaders ⟨.cgi, false⟩ (.start .get .http11 (str "/"))
      (str "Connection: close\r\n")).any fun p => p.1 &&
        (httpResponseWriteHeader plainConf { p.2 with keepAlive := false }).isNone &&
        (connectionHandleWritePrepare plainConf { p.2 with httpStatus := 200 }).isNone) := by
    decide +kernel
  have hzero : ((httpResponseProcessHeaders ⟨.cgi, false⟩ (.start .get .http11 (str "/"))
      (str "0: x\r\n")).any fun p => p.1 &&
        (httpResponseSendFile plainConf
          (.ok ⟨str "text", [], none, str "now", true, none, none, true⟩) p.2).isNone) := by
    decide +kernel
  obtain ⟨⟨ok, con⟩, hparsed, hfacts⟩ := (Option.any_eq_true _ _).mp hclose
  obtain ⟨⟨ok', con'⟩, hparsed', hfacts'⟩ := (Option.any_eq_true _ _).mp hzero
  simp only [Bool.and_eq_true, Option.isNone_iff_eq_none] at hfacts hfacts'
  exact ⟨⟨con, by rw [hparsed, hfacts.1.1], hfacts.1.2, hfacts.2⟩,
    con', by rw [hparsed', hfacts'.1], hfacts'.2⟩

end Lighttpd
