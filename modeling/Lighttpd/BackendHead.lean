import Lighttpd.HttpChunk
import Lighttpd.ProcessHeaders

/-!
# The response of a backend as it arrives

`http_response_read` reads what a CGI program, an SCGI server or a proxied server sends, and
`http_response_parse_headers` splits the head from the body as soon as the head is there. Until
then what was read stays in the buffer, and every read begins again from its first byte.

The first read decides for the whole response whether it begins with headers at all.
-/

namespace Lighttpd

open CString

/-! ## The head -/

/-- `strcspn` of a colon or a line feed. -/
def cspnColonLF (b : Bytes) : ℕ := (b.takeWhile fun c => c ≠ 0 ∧ c ≠ 58 ∧ c ≠ LF).length

/-- `is_nph`. -/
def isNph (b : Bytes) : Bool := b.take 7 = str "HTTP/1."

/-- How a response begins: with the end of its head, which is at `i`, with headers, the first colon
or the status line being at `i`, or with something else. -/
inductive HeadKind
  | noHeaders (i : ℕ)
  | headers (i : ℕ)
  | other
  deriving DecidableEq, Repr

/-- The cases of `http_response_parse_headers`. -/
def headKind (b : Bytes) : HeadKind :=
  if b.head? = some LF then .noHeaders 0
  else if b.head? = some CR ∧ b[1]? = some LF then .noHeaders 1
  else if isNph b then .headers 0
  else if b[cspnColonLF b]? = some 58 then .headers (cspnColonLF b)
  else .other

/-- The line feed that ends the head, from offset `i` on; `prev` is the byte before it, and
`strchr` stops at a NUL. -/
def headEndLoop (lastEol i : ℕ) (prev : UInt8) : Bytes → Option ℕ
  | [] => none
  | c :: s =>
    if c = 0 then none
    else if c = LF then
      if 0 < lastEol ∧ (i = lastEol + 1 ∨ i = lastEol + 2 ∧ prev = CR) then some i
      else headEndLoop i (i + 1) c s
    else headEndLoop lastEol (i + 1) c s

/-- The line feed that ends the head of a response with headers. -/
def headEnd (b : Bytes) (i : ℕ) : Option ℕ := headEndLoop 0 (i + 1) (b.getD i 0) (b.drop (i + 1))

/-- The head of the response, when its last line feed is at `i`. -/
def headText (b : Bytes) (i : ℕ) : Bytes := b.take (if 0 < i ∧ b[i - 1]? = some CR then i - 1 else i)

/-- `MAX_HTTP_REQUEST_HEADER`. -/
def maxBackendHead : ℕ := 32 * 1024

/-- The length of the head: up to its end, or everything when it does not end. -/
def headLength (b : Bytes) : ℕ :=
  match headKind b with
  | .noHeaders i => i + 1
  | .headers i => (headEnd b i).elim b.length (· + 1)
  | .other => 0

/-! ## Reading -/

/-- What is read of `http_response_opts` besides, and of the handler: the protocol, whether the
connection may be upgraded, and what `proxy_response_headers` makes of the headers that the proxy
rewrites. Only authorizers set `authorizer`, which do not read in this way. -/
structure BackendOpts where
  backend : Backend
  upgrade : Bool
  remap : ParsedResponse → ResponseHeaders → ResponseHeaders

def BackendOpts.toOpts (opts : BackendOpts) : HttpResponseOpts := ⟨opts.backend, false⟩

/-- A connection with the buffer for the head; `fileStarted` is `file_started`, and the last two
fields are the bits of `conf.stream_response_body`. -/
structure BackendCon where
  con : ResponseCon
  fileStarted : Bool
  buffer : Bytes
  streamResponse : Bool
  bufmin : Bool

/-- `handler_t`, as far as the functions return it. -/
inductive BackendRc
  | goOn
  | finished
  | error
  deriving DecidableEq, Repr

/-- Bytes are appended to the write queue. -/
def BackendCon.append (r : BackendCon) (s : Bytes) : Bool × BackendCon :=
  let t := httpChunkAppendMem ⟨r.con.chunked, r.bufmin⟩ r.con.writeQueue s r.con.io
  (t.ok, { r with con := { r.con with writeQueue := t.queue, io := t.io } })

/-- `con->http_status = 502; con->mode = DIRECT`. -/
def BackendCon.badGateway (r : BackendCon) : BackendCon :=
  { r with con := { r.con with httpStatus := 502, direct := true } }

/-- `opts->headers`: `cgi_response_headers` or `proxy_response_headers`. -/
def responseHeaders (opts : BackendOpts) (r : BackendCon) : BackendCon :=
  if opts.backend = .cgi ∨ opts.backend = .proxy then
    let r :=
      if r.con.parsedResponse.upgrade then
        if opts.upgrade ∧ r.con.httpStatus = 101 then
          { r with
            con := { r.con with keepAlive := false }
            streamResponse := true
            bufmin := r.bufmin || !r.streamResponse }
        else { r with con := { r.con with
          parsedResponse := { r.con.parsedResponse with upgrade := false } } }
      else r
    { r with con := { r.con with headers := opts.remap r.con.parsedResponse r.con.headers } }
  else r

/-- `http_response_parse_headers` from the end of the head on, which is at `i`; `none` when an
assertion fails. -/
def headComplete (opts : BackendOpts) (r : BackendCon) (i : ℕ) : Option (BackendRc × BackendCon) :=
  if opts.backend = .proxy ∧ ¬ isNph r.buffer then some (.finished, r.badGateway)
  else
    match httpResponseProcessHeaders opts.toOpts r.con (headText r.buffer i) with
    | none => none
    | some (false, con) => some (.error, { r with con := con })
    | some (true, con) =>
      let r := { r with con := con, fileStarted := true }
      if con.direct then some (.finished, r)
      else
        let t := r.append (r.buffer.drop (i + 1))
        if t.1 then some (.goOn, responseHeaders opts t.2) else some (.error, t.2)

/-- `http_response_parse_headers`. -/
def httpResponseParseHeaders (opts : BackendOpts) (r : BackendCon) :
    Option (BackendRc × BackendCon) :=
  match headKind r.buffer with
  | .noHeaders i => headComplete opts r i
  | .headers i =>
    match headEnd r.buffer i with
    | some i => headComplete opts r i
    | none =>
      if maxBackendHead < r.buffer.length then some (.finished, r.badGateway)
      else some (.goOn, r)
  | .other =>
    if opts.backend = .cgi then
      let t := r.append r.buffer
      if t.1 then
        some (.goOn, { t.2 with con := { t.2.con with httpStatus := 200 }, fileStarted := true })
      else some (.error, t.2)
    else some (.finished, r.badGateway)

/-- One turn of `http_response_read`, with what was read; nothing is read at the end of the file. -/
def httpResponseReadTurn (opts : BackendOpts) (r : BackendCon) (s : Bytes) :
    Option (BackendRc × BackendCon) :=
  if s = [] then some (.finished, r)
  else
    let r := { r with buffer := r.buffer ++ s }
    if ¬ r.fileStarted then
      (httpResponseParseHeaders opts r).map fun x =>
        if x.1 = .goOn ∧ x.2.fileStarted then (.goOn, { x.2 with buffer := [] }) else x
    else
      let t := r.append r.buffer
      if t.1 then some (.goOn, { t.2 with buffer := [] }) else some (.error, t.2)

/-- `http_response_read`, with what its turns read; it is left when nothing more is there. -/
def httpResponseRead (opts : BackendOpts) : BackendCon → List Bytes → Option (BackendRc × BackendCon)
  | r, [] => some (.goOn, r)
  | r, s :: reads =>
    match httpResponseReadTurn opts r s with
    | some (.goOn, r) => httpResponseRead opts r reads
    | result => result

/-- Calls of `http_response_read` until one is the last. -/
def responseCalls (opts : BackendOpts) :
    BackendCon → List (List Bytes) → Option (BackendRc × BackendCon)
  | r, [] => some (.goOn, r)
  | r, reads :: calls =>
    match httpResponseRead opts r reads with
    | some (.goOn, r) => responseCalls opts r calls
    | result => result

/-- A connection for which a backend was asked and nothing was read. -/
def BackendCon.start (con : ResponseCon) (streamResponse bufmin : Bool) : BackendCon :=
  ⟨con, false, [], streamResponse, bufmin⟩

/-- What the client will get. -/
structure BackendResponse where
  httpStatus : ℕ
  headers : ResponseHeaders
  parsedResponse : ParsedResponse
  body : Bytes

def BackendCon.response (r : BackendCon) : BackendResponse :=
  ⟨r.con.httpStatus, r.con.headers, r.con.parsedResponse, r.con.writeQueue.bytes⟩

/-- Calls are as good as one call with everything that they read. -/
theorem responseCalls_eq (opts : BackendOpts) : ∀ (calls : List (List Bytes)) (r : BackendCon),
    responseCalls opts r calls = httpResponseRead opts r calls.flatten
  | [], _ => rfl
  | [] :: calls, r => responseCalls_eq opts calls r
  | (s :: reads) :: calls, r => by
    have hcall : ∀ (reads : List Bytes) (r : BackendCon),
        httpResponseRead opts r (reads ++ calls.flatten) =
          match httpResponseRead opts r reads with
          | some (.goOn, r) => httpResponseRead opts r calls.flatten
          | result => result := by
      intro reads
      induction reads with
      | nil => exact fun _ => rfl
      | cons s reads ih =>
        intro r
        rw [List.cons_append, httpResponseRead, httpResponseRead]
        split
        · exact ih _
        · next hr => 
          split
          · next heq => exact absurd heq (hr _)
          · rfl
    rw [List.flatten_cons, hcall, responseCalls]
    split
    · exact responseCalls_eq opts calls _
    · rfl

end Lighttpd
