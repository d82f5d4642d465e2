import Lighttpd.Chunkqueue
import Lighttpd.RequestHeaders
import Lighttpd.ResponseHeaders
import Lighttpd.Tempfile

/-!
# Response headers of a backend

`http_response_process_headers` splits what a backend sent into lines, notes in
`parsed_response` which headers it saw, and puts the headers into the response.

`processHeaders_spec`: the flags for `Content-Length` and `Transfer-Encoding` are then those of
headers that are in the response, and every header is the connection's own.
-/

namespace Lighttpd

open CString ResponseHeaders

/-- The bits of `parsed_response`. -/
structure ParsedResponse where
  status : Bool
  connection : Bool
  contentLength : Bool
  date : Bool
  location : Bool
  transferEncoding : Bool
  contentLocation : Bool
  setCookie : Bool
  upgrade : Bool
  deriving DecidableEq, Repr

/-- No bit is set. -/
def ParsedResponse.none : ParsedResponse :=
  ⟨false, false, false, false, false, false, false, false, false⟩

/-- What a connection has of its response, and what the response depends on: `direct` is
`mode == DIRECT`, `savedStatus` is `error_handler_saved_status`, and `io` are the system calls on
tempfiles to come. -/
structure ResponseCon where
  direct : Bool
  httpMethod : HttpMethod
  httpVersion : HttpVersion
  uriPath : Bytes
  httpStatus : ℕ
  savedStatus : Bool
  keepAlive : Bool
  requestCount : ℕ
  fileFinished : Bool
  parsedResponse : ParsedResponse
  responseKeepAlive : Bool
  chunked : Bool
  headers : ResponseHeaders
  writeQueue : Chunkqueue
  io : TempIo

/-- A request of which nothing was answered, on a connection that may be kept alive. -/
def ResponseCon.start (httpMethod : HttpMethod) (httpVersion : HttpVersion) (uriPath : Bytes) :
    ResponseCon where
  direct := true
  httpMethod := httpMethod
  httpVersion := httpVersion
  uriPath := uriPath
  httpStatus := 0
  savedStatus := false
  keepAlive := true
  requestCount := 1
  fileFinished := false
  parsedResponse := .none
  responseKeepAlive := false
  chunked := false
  headers := ⟨.register, ⟨[], [], 0⟩⟩
  writeQueue := chunkqueueInit 0 0
  io := .success

/-- `opts->backend`. -/
inductive Backend
  | unset | proxy | cgi | fastcgi | scgi
  deriving DecidableEq, Repr

/-- What is read of `http_response_opts`. -/
structure HttpResponseOpts where
  backend : Backend
  authorizer : Bool
  deriving DecidableEq, Repr

/-! ## Lines -/

/-- The line without the carriage return in front of its end. -/
def stripCR (s : Bytes) : Bytes := if s.getLast? = some CR then s.dropLast else s

/-- The lines that the loop of `http_response_process_headers` sees; `line` is what `strchr` has
passed of the first one. It stops at the NUL. -/
def headerLines (line : Bytes) : Bytes → List Bytes
  | [] => []
  | c :: s =>
    if c = 0 then []
    else if c = LF then stripCR line :: headerLines [] s
    else headerLines (line ++ [c]) s

/-- `strtol` of a status, when it has three digits. -/
def statusOf (s : Bytes) : Option ℕ :=
  let status := toInt32 (strtol 10 s).1
  if 100 ≤ status ∧ status < 1000 then some status.toNat else none

/-- How a line leaves the loop. -/
inductive LineResult
  | goOn (con : ResponseCon)
  | stop (con : ResponseCon)
  | error (con : ResponseCon)

/-- A first line that begins with `HTTP/1.`. -/
def statusLine (con : ResponseCon) (s : Bytes) : LineResult :=
  let con :=
    if (s[7]? = some 49 ∨ s[7]? = some 48) ∧ s[8]? = some SP then
      match statusOf (s.drop 9) with
      | some status =>
        { con with
          parsedResponse := { con.parsedResponse with status := true }
          httpStatus := status }
      | none => con
    else con
  if con.httpStatus = 0 then .error { con with httpStatus := 502, direct := true } else .goOn con

/-- The header of an authorizer, while its status is that of success. -/
def authorizerHeader (con : ResponseCon) (key value : Bytes) : LineResult :=
  if CaseEq key (str "Status") then
    match statusOf value with
    | some status => .goOn { con with httpStatus := status }
    | none => .stop { con with httpStatus := 502 }
  else .goOn con

/-- The `switch` over the length of the key: the connection, and whether the header is put into
the response. -/
def noteHeader (opts : HttpResponseOpts) (con : ResponseCon) (key value : Bytes) :
    ResponseCon × Bool :=
  let parsed := con.parsedResponse
  if CaseEq key (str "Date") then ({ con with parsedResponse := { parsed with date := true } }, true)
  else if CaseEq key (str "Status") then
    if opts.backend = .proxy then (con, true)
    else
      match statusOf value with
      | some status =>
        ({ con with httpStatus := status, parsedResponse := { parsed with status := true } }, false)
      | none => ({ con with httpStatus := 502, direct := true }, false)
  else if CaseEq key (str "Upgrade") then
    if opts.backend = .proxy ∨ opts.backend = .cgi then
      ({ con with parsedResponse := { parsed with upgrade := true } }, true)
    else (con, true)
  else if CaseEq key (str "Location") then
    ({ con with parsedResponse := { parsed with location := true } }, true)
  else if CaseEq key (str "Connection") then
    if opts.backend = .proxy then (con, false)
    else
      ({ con with
        responseKeepAlive := strcaseeq value (str "Keep-Alive")
        parsedResponse := { parsed with connection := true } }, true)
  else if CaseEq key (str "Set-Cookie") then
    ({ con with parsedResponse := { parsed with setCookie := true } }, true)
  else if CaseEq key (str "Content-Length") then
    ({ con with parsedResponse := { parsed with contentLength := true } }, true)
  else if CaseEq key (str "Content-Location") then
    ({ con with parsedResponse := { parsed with contentLocation := true } }, true)
  else if CaseEq key (str "Transfer-Encoding") then
    if opts.backend = .proxy then (con, false)
    else ({ con with parsedResponse := { parsed with transferEncoding := true } }, true)
  else (con, true)

/-- A line of the loop; `none` when an assertion fails. -/
def processLine (opts : HttpResponseOpts) (con : ResponseCon) (isFirst : Bool) (s : Bytes) :
    Option LineResult :=
  if isFirst ∧ s.take 7 = str "HTTP/1." then some (statusLine con s)
  else
    match strchr s 58 with
    | none => some (.goOn con)
    | some keyLen =>
      let key := s.take keyLen
      let value := (s.drop (keyLen + 1)).dropWhile fun c => c = SP ∨ c = HT
      if opts.authorizer ∧ (con.httpStatus = 0 ∨ con.httpStatus = 200) then
        some (authorizerHeader con key value)
      else
        let r := noteHeader opts con key value
        if r.2 then
          (responseHeaderInsert r.1.headers key value).map fun headers =>
            .goOn { r.1 with headers := headers }
        else some (.goOn r.1)

/-- The loop of `http_response_process_headers`: whether it ended without an error. -/
def processLines (opts : HttpResponseOpts) (con : ResponseCon) (isFirst : Bool) :
    List Bytes → Option (Bool × ResponseCon)
  | [] => some (true, con)
  | s :: lines =>
    match processLine opts con isFirst s with
    | none => none
    | some (.goOn con) => processLines opts con false lines
    | some (.stop con) => some (true, con)
    | some (.error con) => some (false, con)

/-- `http_response_process_headers`: whether it returned zero, and the connection. -/
def httpResponseProcessHeaders (opts : HttpResponseOpts) (con : ResponseCon) (hdrs : Bytes) :
    Option (Bool × ResponseCon) :=
  match processLines opts con true (headerLines [] hdrs) with
  | some (true, con) =>
    some (true,
      if con.parsedResponse.location ∧ ¬ con.parsedResponse.status then
        { con with httpStatus := 302 }
      else con)
  | r => r

/-! ## Flags and headers -/

/-- The headers are the connection's own, and the flags for those that frame the body or end the
connection are set when there are such headers. -/
structure Synced (con : ResponseCon) : Prop where
  own : OwnHeaders con.headers
  contentLength : con.parsedResponse.contentLength =
    (con.headers.getElement (str "Content-Length")).isSome
  transferEncoding : con.parsedResponse.transferEncoding =
    (con.headers.getElement (str "Transfer-Encoding")).isSome
  connection : con.parsedResponse.connection =
    (con.headers.getElement (str "Connection")).isSome

/-- What a change of the connection leaves of a response: the headers and the flags for framing. -/
def SameFraming (con con' : ResponseCon) : Prop :=
  con'.headers = con.headers ∧
    con'.parsedResponse.contentLength = con.parsedResponse.contentLength ∧
    con'.parsedResponse.transferEncoding = con.parsedResponse.transferEncoding ∧
    con'.parsedResponse.connection = con.parsedResponse.connection

theorem Synced.congr {con con' : ResponseCon} (hs : Synced con) (h : SameFraming con con') :
    Synced con' := by
  obtain ⟨hh, hcl, hte, hc⟩ := h
  exact ⟨hh ▸ hs.own, by rw [hcl, hh, hs.contentLength], by rw [hte, hh, hs.transferEncoding],
    by rw [hc, hh, hs.connection]⟩

theorem synced_reset {con : ResponseCon} (hh : con.headers = con.headers.reset)
    (hp : con.parsedResponse = .none) : Synced con := by
  refine ⟨hh ▸ ownHeaders_reset _, ?_, ?_, ?_⟩ <;> rw [hp, hh, getElement_reset] <;> rfl

/-- The connection that a line leaves behind. -/
def LineResult.con : LineResult → ResponseCon
  | .goOn con | .stop con | .error con => con

theorem sameFraming_statusLine (con : ResponseCon) (s : Bytes) :
    SameFraming con (statusLine con s).con := by
  have hstatus : ∀ con' : ResponseCon, SameFraming con con' → SameFraming con
      (if con'.httpStatus = 0 then LineResult.error { con' with httpStatus := 502, direct := true }
        else .goOn con').con := by
    intro con' h
    split_ifs <;> exact h
  unfold statusLine
  refine hstatus _ ?_
  split_ifs
  · split <;> exact ⟨rfl, rfl, rfl, rfl⟩
  · exact ⟨rfl, rfl, rfl, rfl⟩

theorem sameFraming_authorizerHeader (con : ResponseCon) (key value : Bytes) :
    SameFraming con (authorizerHeader con key value).con := by
  unfold authorizerHeader
  split_ifs
  · split <;> exact ⟨rfl, rfl, rfl, rfl⟩
  · exact ⟨rfl, rfl, rfl, rfl⟩

/-- The flags are set with the headers that are put into the response. -/
theorem noteHeader_spec (opts : HttpResponseOpts) (con : ResponseCon) (key value : Bytes) :
    let r := noteHeader opts con key value
    r.1.headers = con.headers ∧
      (r.2 = false → SameFraming con r.1) ∧
      (r.2 = true →
        r.1.parsedResponse.contentLength =
          (decide (CaseEq (str "Content-Length") key) || con.parsedResponse.contentLength) ∧
        r.1.parsedResponse.transferEncoding =
          (decide (CaseEq (str "Transfer-Encoding") key) || con.parsedResponse.transferEncoding) ∧
        r.1.parsedResponse.connection =
          (decide (CaseEq (str "Connection") key) || con.parsedResponse.connection)) := by
  have hcongr : ∀ {name : Bytes}, CaseEq name key → ∀ n, CaseEq key n ↔ CaseEq name n :=
    fun h n => ⟨h.trans, h.symm.trans⟩
  have hcongr' : ∀ {name : Bytes}, CaseEq name key → ∀ n, CaseEq n key ↔ CaseEq n name :=
    fun h n => ⟨fun h' => h'.trans h.symm, fun h' => h'.trans h⟩
  dsimp only
  by_cases hcl : CaseEq (str "Content-Length") key
  · simp only [noteHeader, hcongr hcl, hcongr' hcl]
    simp +decide [SameFraming]
  · by_cases hte : CaseEq (str "Transfer-Encoding") key
    · simp only [noteHeader, hcongr hte, hcongr' hte]
      by_cases hproxy : opts.backend = .proxy <;> simp +decide [SameFraming, hproxy]
    · by_cases hc : CaseEq (str "Connection") key
      · simp only [noteHeader, hcongr hc, hcongr' hc]
        by_cases hproxy : opts.backend = .proxy <;> simp +decide [SameFraming, hproxy]
      · simp only [noteHeader, hcl, hte, hc, fun n => (⟨.symm, .symm⟩ : CaseEq key n ↔ CaseEq n key)]
        simp only [if_false, decide_false, Bool.false_or]
        split_ifs
        · exact ⟨rfl, fun _ => ⟨rfl, rfl, rfl, rfl⟩, fun _ => ⟨rfl, rfl, rfl⟩⟩
        · exact ⟨rfl, fun _ => ⟨rfl, rfl, rfl, rfl⟩, fun _ => ⟨rfl, rfl, rfl⟩⟩
        · split <;> exact ⟨rfl, fun _ => ⟨rfl, rfl, rfl, rfl⟩, fun _ => ⟨rfl, rfl, rfl⟩⟩
        all_goals exact ⟨rfl, fun _ => ⟨rfl, rfl, rfl, rfl⟩, fun _ => ⟨rfl, rfl, rfl⟩⟩

theorem Synced.processLine {opts : HttpResponseOpts} {con : ResponseCon} (hs : Synced con)
    (isFirst : Bool) (s : Bytes) :
    ∃ r, processLine opts con isFirst s = some r ∧ Synced r.con := by
  unfold Lighttpd.processLine
  by_cases hfirst : isFirst ∧ s.take 7 = str "HTTP/1."
  · rw [if_pos hfirst]
    exact ⟨_, rfl, hs.congr (sameFraming_statusLine con s)⟩
  · rw [if_neg hfirst]
    split
    · exact ⟨_, rfl, hs⟩
    · next keyLen _ =>
      dsimp only
      generalize s.take keyLen = key
      generalize ((s.drop (keyLen + 1)).dropWhile fun c => decide (c = SP ∨ c = HT)) = value
      split_ifs with hauth hstore
      · exact ⟨_, rfl, hs.congr (sameFraming_authorizerHeader con key value)⟩
      · obtain ⟨hh, -, hflags⟩ := noteHeader_spec opts con key value
        obtain ⟨hcl, hte, hc⟩ := hflags hstore
        generalize noteHeader opts con key value = r at hh hcl hte hc ⊢
        obtain ⟨h', hins, ho, hchanged, hkey, -⟩ := (hh ▸ hs.own).insert key value
        rw [hins]
        have hsome := hchanged.isSome_getElement hkey
        refine ⟨_, rfl, ho, ?_, ?_, ?_⟩
        · exact (hcl.trans (by rw [hs.contentLength, hh])).trans (hsome _).symm
        · exact (hte.trans (by rw [hs.transferEncoding, hh])).trans (hsome _).symm
        · exact (hc.trans (by rw [hs.connection, hh])).trans (hsome _).symm
      · exact ⟨_, rfl, hs.congr ((noteHeader_spec opts con key value).2.1 (by simpa using hstore))⟩

theorem Synced.processLines {opts : HttpResponseOpts} :
    ∀ {lines : List Bytes} {con : ResponseCon} (_ : Synced con) (isFirst : Bool),
      ∃ r, processLines opts con isFirst lines = some r ∧ Synced r.2
  | [], con, hs, isFirst => ⟨_, rfl, hs⟩
  | s :: lines, con, hs, isFirst => by
    obtain ⟨r, hr, hs'⟩ : ∃ r, Lighttpd.processLine opts con isFirst s = some r ∧ Synced r.con :=
      hs.processLine isFirst s
    rw [Lighttpd.processLines, hr]
    cases r with
    | goOn con' => exact hs'.processLines false
    | stop con' => exact ⟨_, rfl, hs'⟩
    | error con' => exact ⟨_, rfl, hs'⟩

/-- What a backend sends makes no assertion fail, and keeps flags and headers in step. -/
theorem Synced.processHeaders {con : ResponseCon} (hs : Synced con) (opts : HttpResponseOpts)
    (hdrs : Bytes) :
    ∃ r, httpResponseProcessHeaders opts con hdrs = some r ∧ Synced r.2 := by
  obtain ⟨⟨ok, con'⟩, hr, hs'⟩ : ∃ r, Lighttpd.processLines opts con true (headerLines [] hdrs) =
      some r ∧ Synced r.2 := hs.processLines true
  unfold httpResponseProcessHeaders
  rw [hr]
  cases ok with
  | true =>
    refine ⟨_, rfl, ?_⟩
    dsimp only
    split_ifs
    · exact hs'.congr ⟨rfl, rfl, rfl, rfl⟩
    · exact hs'
  | false => exact ⟨_, rfl, hs'⟩

end Lighttpd
