import Lighttpd.RequestHeaders

/-!
# Parsing a request

`http_request_parse` reads the request line, then the header (`headerLoop`), then decides
about keep-alive and about the body. It returns one when a body follows. A request is
accepted when its status is zero at the end.
-/

namespace Lighttpd

open CString

/-- The parse options of a connection, with `allow_http11`. -/
structure ParseOpts where
  headerStrict : Bool
  hostStrict : Bool
  hostNormalize : Bool
  allowHttp11 : Bool
  deriving DecidableEq, Repr

/-- The parse options with every check. -/
def strictOpts : ParseOpts := ⟨true, true, true, true⟩

/-- The parse options without any check. -/
def lenientOpts : ParseOpts := ⟨false, false, false, true⟩

/-! ## The request line -/

/-- How reading the request line ends. -/
inductive RequestLineScan
  | line (words : List Bytes) (last rest : Bytes)
  | missingCR
  | overlong
  | unterminated
  deriving DecidableEq, Repr

/-- The loop over the request line: `words` ended with a space, `cur` is the word that is
read; `last` is the word before the end of the line and `rest` what follows. -/
def requestLineLoop (strict : Bool) (words : List Bytes) (cur : Bytes) : Bytes → RequestLineScan
  | [] => .unterminated
  | c :: s =>
    if c = CR then
      match s with
      | [] => requestLineLoop strict words (cur ++ [c]) s
      | c' :: s' =>
        if c' = LF then .line words cur s' else requestLineLoop strict words (cur ++ [c]) s
    else if c = LF then if strict then .missingCR else .line words cur s
    else if c = SP then
      if 2 ≤ words.length then .overlong else requestLineLoop strict (words ++ [cur]) [] s
    else requestLineLoop strict words (cur ++ [c]) s

/-- `http_methods`. -/
def httpMethods : List (HttpMethod × Bytes) :=
  [(.get, str "GET"), (.head, str "HEAD"), (.post, str "POST"), (.put, str "PUT"),
    (.delete, str "DELETE"), (.connect, str "CONNECT"), (.options, str "OPTIONS"),
    (.trace, str "TRACE"), (.acl, str "ACL"), (.baselineControl, str "BASELINE-CONTROL"),
    (.bind, str "BIND"), (.checkin, str "CHECKIN"), (.checkout, str "CHECKOUT"),
    (.copy, str "COPY"), (.label, str "LABEL"), (.link, str "LINK"), (.lock, str "LOCK"),
    (.merge, str "MERGE"), (.mkactivity, str "MKACTIVITY"), (.mkcalendar, str "MKCALENDAR"),
    (.mkcol, str "MKCOL"), (.mkredirectref, str "MKREDIRECTREF"),
    (.mkworkspace, str "MKWORKSPACE"), (.move, str "MOVE"), (.orderpatch, str "ORDERPATCH"),
    (.patch, str "PATCH"), (.propfind, str "PROPFIND"), (.proppatch, str "PROPPATCH"),
    (.rebind, str "REBIND"), (.report, str "REPORT"), (.search, str "SEARCH"),
    (.unbind, str "UNBIND"), (.uncheckout, str "UNCHECKOUT"), (.unlink, str "UNLINK"),
    (.unlock, str "UNLOCK"), (.update, str "UPDATE"),
    (.updateredirectref, str "UPDATEREDIRECTREF"), (.versionControl, str "VERSION-CONTROL")]

/-- `get_http_method_key`. -/
def getHttpMethodKey (s : Bytes) : HttpMethod :=
  ((httpMethods.find? fun m => m.2 = cstr s).map Prod.fst).getD .unset

/-- What the protocol word says. -/
inductive ProtoScan
  | version (major minor : ℤ)
  | invalid
  | notHttp
  deriving DecidableEq, Repr

/-- The protocol word of the request line. -/
def scanProto (proto : Bytes) : ProtoScan :=
  let p := cstr proto
  if (str "HTTP/").isPrefixOf p then
    let major := p.drop 5
    match strchr major 46 with
    | none => .invalid
    | some minor =>
      if minor = 0 ∨ major.drop (minor + 1) = [] then .invalid
      else
        let maj := strtol 10 (major.take minor)
        let min := strtol 10 (major.drop (minor + 1))
        if maj.2 ≠ (major.take minor).length ∨ min.2 ≠ (major.drop (minor + 1)).length then .invalid
        else .version (toInt32 maj.1) (toInt32 min.1)
  else .notHttp

/-- A target that begins with a scheme: the URI from the slash behind the host on, and the
host. -/
def absoluteUri (target scheme : Bytes) : Option (Bytes × Option Bytes) :=
  if strncaseeq target scheme then
    (strchr (target.drop scheme.length) 47).map fun nuri =>
      (target.drop (scheme.length + nuri), some ((target.drop scheme.length).take nuri))
  else none

/-- What the request target gives: the URI and the host in it. -/
def scanUri (strict : Bool) (method : HttpMethod) (target : Bytes) :
    Option (Bytes × Option Bytes) :=
  if target.head? = some 47 then some (target, none)
  else
    match absoluteUri target (str "http://") with
    | some r => some r
    | none =>
      match absoluteUri target (str "https://") with
      | some r => some r
      | none =>
        let c := (cstr target).headD 0
        if ¬ strict ∨ (method = .connect ∧ (c = 58 ∨ isDigit c)) ∨
            (method = .options ∧ cstr target = str "*") then some (target, none)
        else none

/-- `request_uri_is_valid_char`. -/
def requestUriIsValidChar (c : UInt8) : Bool := ¬ (c ≤ 32 ∨ c = 127 ∨ c = 255)

/-- The check of the URI for invalid characters. -/
def requestUriIsValid (strict : Bool) (uri : Bytes) : Bool :=
  if strict then uri.all requestUriIsValidChar else uri.all fun c => c ≠ 0

/-- A request line of three words: the connection and the host in the target. -/
def endOfRequestLine (opts : ParseOpts) (con : RequestCon) (method target proto : Bytes) :
    Except RequestCon (RequestCon × Option Bytes) :=
  let m := getHttpMethodKey method
  if m = .unset then .error (con.rejectBoth 501)
  else
    let con := { con with httpMethod := m }
    match scanProto proto with
    | .notHttp => .error (con.reject 400)
    | .invalid => .error (con.reject 400)
    | .version major minor =>
      if ¬ (major = 1 ∧ (minor = 1 ∨ minor = 0)) then .error { con with httpStatus := 505 }
      else
        let version : HttpVersion := if minor = 1 ∧ opts.allowHttp11 then .http11 else .http10
        let con := { con with httpVersion := version }
        match scanUri opts.headerStrict m target with
        | none => .error (con.reject 400)
        | some (uri, host) =>
          let con := { con with uri := some uri }
          if ¬ requestUriIsValid opts.headerStrict uri then .error (con.reject 400)
          else .ok ({ con with origUri := some uri, httpStatus := 0 }, host)

/-- The first line of a request: the state before the header and the bytes behind the line. -/
def parseRequestLine (opts : ParseOpts) (con : RequestCon) (parseRequest : Bytes) :
    Except RequestCon (ParseState × Bytes) :=
  match requestLineLoop opts.headerStrict [] [] parseRequest with
  | .unterminated => .error (con.rejectBoth 400)
  | .overlong => .error (con.rejectBoth 400)
  | .missingCR => .error (httpRequestMissingCRBeforeLF con)
  | .line [method, target] proto rest =>
    match endOfRequestLine opts con method target proto with
    | .error con => .error con
    | .ok (con, host) =>
      if bufferStringIsEmpty con.uri then .error (con.rejectBoth 400)
      else
        let st : ParseState := ⟨con, .unset, false, host.isSome, none⟩
        match host with
        | none => .ok (st, rest)
        | some host =>
          let st := { st with con := { st.con with httpHost := true } }
          .ok (st.insert (str "Host") host, rest)
  | .line _ _ _ => .error (con.rejectBoth 400)

/-- The decision about keep-alive, and the check that HTTP/1.1 has a host. -/
def checkKeepAlive (st : ParseState) : Except RequestCon RequestCon :=
  if st.con.httpVersion = .http11 then
    let con := { st.con with keepAlive := st.keepAliveSet ≠ .close }
    if ¬ con.httpHost ∨ bufferStringIsEmpty con.httpHostValue then .error (con.rejectBoth 400)
    else .ok con
  else .ok { st.con with keepAlive := st.keepAliveSet = .keepAlive }

/-- The check of the host, which may rewrite it. -/
def checkHost (lib : AddrLib) (opts : ParseOpts) (proto : Buffer) (con : RequestCon) :
    Except RequestCon RequestCon :=
  match con.httpHost, con.httpHostValue with
  | true, some host =>
    let r := httpRequestHostPolicy lib opts.hostStrict opts.hostNormalize host proto
    let con := { con with
      headers := arrayModify con.headers (str "Host") fun _ => some r.2 }
    if r.1 then .ok con else .error (con.rejectBoth 400)
  | _, _ => .ok con

/-- The check of Transfer-Encoding: the connection, and whether a length is set. -/
def checkTransferEncoding (con : RequestCon) (conLengthSet : Bool) :
    Except RequestCon (RequestCon × Bool) :=
  match arrayGetElement con.headers (str "Transfer-Encoding") with
  | none => .ok (con, conLengthSet)
  | some value =>
    if con.httpVersion = .http10 then .error (con.reject 400)
    else if ¬ strcaseeq value.string (str "chunked") then .error (con.reject 501)
    else
      let headers := arrayModify con.headers (str "Transfer-Encoding") fun _ => none
      let headers := arrayModify headers (str "Content-Length") fun _ => none
      .ok ({ con with headers := headers, contentLength := -1 }, true)

/-- The check that the method allows the body that was announced. -/
def checkMethod (con : RequestCon) (conLengthSet : Bool) : Except RequestCon RequestCon :=
  if (con.httpMethod = .get ∨ con.httpMethod = .head) ∧ conLengthSet ∧ con.contentLength ≠ 0 then
    .error (con.reject 400)
  else if con.httpMethod = .post ∧ ¬ conLengthSet then .error (con.reject 411)
  else .ok con

/-- The end of `http_request_parse`: the connection and the value returned. -/
def finishRequest (lib : AddrLib) (opts : ParseOpts) (proto : Buffer) (st : ParseState) :
    Except RequestCon (RequestCon × ℕ) := do
  let con ← checkKeepAlive st
  let con ← checkHost lib opts proto con
  let (con, conLengthSet) ← checkTransferEncoding con st.conLengthSet
  let con ← checkMethod con conLengthSet
  return (con, if conLengthSet ∧ con.contentLength ≠ 0 then 1 else 0)

/-- The blank line that is skipped before a request, in `request.request`; an error when it
is not allowed. -/
def leadingSkip (opts : ParseOpts) (requestCount : ℕ) (request : Bytes) : Option ℕ :=
  if requestCount > 1 ∧ request[0]? = some CR ∧ request[1]? = some LF then some 2
  else if requestCount > 0 ∧ request[1]? = some LF then
    if opts.headerStrict then none else some 1
  else some 0

/-- The parts of `http_request_parse` before its checks: the state after the header. -/
def parseHeader (opts : ParseOpts) (con : RequestCon) (parseRequest : Bytes) :
    Except RequestCon ParseState := do
  let (st, rest) ← parseRequestLine opts con parseRequest
  let (st, rest) ← headerLoop opts.headerStrict st (.key []) rest
  return { st with con := { st.con with headerLen := parseRequest.length - rest.length } }

/-- `http_request_parse`: the connection afterwards and the value returned. `con` is a
connection after `connection_reset`. -/
def httpRequestParse (lib : AddrLib) (opts : ParseOpts) (requestCount : ℕ) (proto : Buffer)
    (con : RequestCon) (request : Bytes) : RequestCon × ℕ :=
  match leadingSkip opts requestCount request with
  | none => (httpRequestMissingCRBeforeLF con, 0)
  | some skip =>
    match parseHeader opts con (request.drop skip) >>= finishRequest lib opts proto with
    | .ok r => r
    | .error con => (con, 0)

/-- What `connection_reset` leaves of a connection. -/
def RequestCon.reset (keepAlive responseKeepAlive : Bool) : RequestCon where
  httpMethod := .unset
  httpVersion := .unset
  uri := none
  origUri := none
  headers := []
  httpHost := false
  httpContentType := false
  httpIfModifiedSince := false
  httpIfNoneMatch := false
  httpRange := false
  contentLength := 0
  headerLen := 0
  httpStatus := 0
  keepAlive := keepAlive
  responseKeepAlive := responseKeepAlive

end Lighttpd
