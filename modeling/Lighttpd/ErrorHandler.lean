import Lighttpd.GwRequest
import Lighttpd.ReadState
import Lighttpd.ResponseFraming
import Lighttpd.ResponsePrepare

/-!
# The error handler of a request

`connection_handle_handle_request_state` asks `http_response_prepare` for a response, and for an
error may start the request again with the URI of `server.error-handler` or
`server.error-handler-404`. What the plugins do is given: each of their hooks may change all of the
connection but the two fields of the error handler.

`handleRequestRun_keepsOutcome` says what the error handler keeps of the first outcome, over all
calls for one request.
-/

namespace Lighttpd

open CString

/-- The settings of a connection that are read here. -/
structure ErrorConf where
  errorHandler : Bytes
  errorHandler404 : Bytes
  errorIntercept : Bool
  streamResponseBody : Bool
  allowHttp11 : Bool
  documentRoot : Buffer
  forceLowercaseFilenames : Bool
  maxRequestSize : ℕ

/-- What a hook may change of a connection. The mode is `DIRECT` as zero or the id of a plugin, and
`contexts` has the ids of the backend plugins that have a context in `plugin_ctx`. -/
structure HandledCon where
  state : ConnectionState
  mode : ℕ
  httpMethod : HttpMethod
  httpVersion : HttpVersion
  httpStatus : ℕ
  keepAlive : Bool
  requestCount : ℕ
  requestUri : Bytes
  httpHost : Buffer
  proto : Buffer
  serverName : Buffer
  uri : RequestUri
  docRoot : Buffer
  basedir : Buffer
  relPath : Buffer
  physicalPath : Buffer
  contentLength : ℤ
  requestContentQueue : Chunkqueue
  environment : Headers
  contexts : List ℕ+
  isWritable : Bool
  fileStarted : Bool
  fileFinished : Bool
  parsedResponse : ParsedResponse
  responseKeepAlive : Bool
  responseContentLength : ℤ
  chunked : Bool
  headers : ResponseHeaders
  writeQueue : Chunkqueue
  io : TempIo

/-- A connection, with the status and the method that the error handler saved. -/
structure ErrorCon extends HandledCon where
  savedStatus : ℤ
  savedMethod : HttpMethod

/-- A hook, or the hooks of all plugins one after the other. -/
abbrev Handler := ErrorCon → HandlerT × HandledCon

/-- A call of a hook. -/
def Handler.call (h : Handler) (con : ErrorCon) : HandlerT × ErrorCon :=
  ((h con).1, { con with toHandledCon := (h con).2 })

/-- What `connection_handle_write_prepare` reads and writes of the connection. -/
def ErrorCon.responseCon (con : ErrorCon) : ResponseCon where
  direct := con.mode = 0
  httpMethod := con.httpMethod
  httpVersion := con.httpVersion
  uriPath := con.uri.path
  httpStatus := con.httpStatus
  savedStatus := con.savedStatus ≠ 0
  keepAlive := con.keepAlive
  requestCount := con.requestCount
  fileFinished := con.fileFinished
  parsedResponse := con.parsedResponse
  responseKeepAlive := con.responseKeepAlive
  chunked := con.chunked
  headers := con.headers
  writeQueue := con.writeQueue
  io := con.io

/-- The calls in `http_response_prepare`, in their order. -/
structure PrepareHandlers where
  uriRaw : Handler
  uriClean : Handler
  docroot : Handler
  physical : Handler
  physicalPathCheck : Handler
  subrequestStart : Handler
  subrequest : Handler

/-- A call whose result ends `http_response_prepare` unless it is `HANDLER_GO_ON` or unknown. -/
def callStage (h : Handler) (con : ErrorCon)
    (next : ErrorCon → Option (HandlerT × ErrorCon)) : Option (HandlerT × ErrorCon) :=
  let r := h.call con
  if r.1 = .goOn ∨ r.1 = .waitForFd then next r.2 else some r

/-- The strings of a request for the URI that it has. -/
def prepareStrings (conf : ErrorConf) (con : ErrorCon) : ErrorCon :=
  let split := splitQuery (cutFragment con.requestUri)
  { con with
    requestUri := cutFragment con.requestUri
    uri :=
      { scheme := con.proto
        authority := con.httpHost.map bufferToLower
        pathRaw := split.1
        path := uriPath con.httpMethod split.1
        query := split.2 }
    httpVersion := if conf.allowHttp11 then con.httpVersion else .http10 }

/-- The physical filename. -/
def preparePhysical (conf : ErrorConf) (con : ErrorCon) : ErrorCon :=
  let rel : Buffer :=
    if conf.forceLowercaseFilenames then con.relPath.map bufferToLower else con.relPath
  { con with
    relPath := rel
    serverName := if con.serverName.string = [] then con.uri.authority else con.serverName
    basedir := con.docRoot
    physicalPath := some (bufferAppendSlash con.docRoot.string ++
      if rel.string.head? = some slashChar then rel.string.tail else rel.string) }

/-- The end of `http_response_prepare`: who answers a request with a physical path. -/
def prepareSubrequest (hs : PrepareHandlers) (con : ErrorCon) : Option (HandlerT × ErrorCon) :=
  let last (con : ErrorCon) : HandlerT × ErrorCon :=
    let r := hs.subrequest.call con
    (if r.1 = .goOn then .finished else r.1, r.2)
  if con.mode = 0 then
    let r := hs.physicalPathCheck.call con
    if r.1 ≠ .goOn then some r
    else
      let r := hs.subrequestStart.call r.2
      if r.1 ≠ .goOn then some r
      else if r.2.mode = 0 ∧ r.2.httpStatus = 0 then
        some (.finished, { r.2 with
          httpStatus := if r.2.httpMethod ≠ .options then 403 else 200 })
      else some (last r.2)
  else some (last con)

/-- `http_response_prepare` for a request without a decision: everything is made from its URI. -/
def prepareFromUri (conf : ErrorConf) (hs : PrepareHandlers) (con : ErrorCon) :
    Option (HandlerT × ErrorCon) :=
  let con := prepareStrings conf con
  if conf.maxRequestSize ≠ 0 ∧ con.contentLength > conf.maxRequestSize * 1024 then
    some (.finished, { con with keepAlive := false, httpStatus := 413, fileFinished := true })
  else
    callStage hs.uriRaw con fun con =>
    callStage hs.uriClean con fun con =>
    if con.httpMethod = .options ∧ charAt con.uri.path 0 = 42 ∧ charAt con.uri.pathRaw 1 = 0 then
      (responseHeaderInsert con.headers (str "Allow") (str "OPTIONS, GET, HEAD, POST")).map
        fun headers =>
          (.finished, { con with headers := headers, httpStatus := 200, fileFinished := true })
    else
      let con := { con with docRoot := conf.documentRoot, relPath := some con.uri.path }
      callStage hs.docroot con fun con =>
      callStage hs.physical (preparePhysical conf con) (prepareSubrequest hs)

/-- `http_response_prepare`; `none` when an assertion fails. -/
def httpResponsePrepareWith (conf : ErrorConf) (hs : PrepareHandlers) (con : ErrorCon) :
    Option (HandlerT × ErrorCon) :=
  if con.mode = 0 ∧ con.httpStatus ≠ 0 ∧ con.httpStatus ≠ 200 then
    some (.finished,
      if con.fileFinished then con
      else { con with writeQueue := chunkqueueReset con.writeQueue })
  else if con.mode = 0 ∧ con.physicalPath = none then prepareFromUri conf hs con
  else prepareSubrequest hs con

/-! ## The error handler -/

/-- The part of `http_response_backend_done` for a response that was started. -/
def closeResponse (con : ErrorCon) : ErrorCon :=
  if con.fileFinished then con
  else
    { con with
      writeQueue := httpChunkClose ⟨con.chunked, false⟩ con.writeQueue
      fileFinished := true }

/-- `http_response_backend_done`. -/
def httpResponseBackendDone (con : ErrorCon) : ErrorCon :=
  match con.state with
  | .handleRequest | .readPost =>
    if ¬ con.fileStarted then { con with httpStatus := 500, mode := 0 } else closeResponse con
  | .write => closeResponse con
  | _ => con

/-- `connection_reset` of a backend plugin that has a context. -/
def closeContext (con : ErrorCon) (id : ℕ+) : ErrorCon :=
  if con.mode = id then httpResponseBackendDone con else con

/-- `plugins_call_connection_reset`. -/
def pluginsCallConnectionReset (con : ErrorCon) : ErrorCon :=
  { con.contexts.foldl closeContext con with contexts := [] }

/-- `connection_handle_errdoc_init`. -/
def errdocInit (con : ErrorCon) : Option ErrorCon :=
  (connectionHandleErrdocInit con.responseCon).map fun response =>
    { con with
      chunked := response.chunked
      physicalPath := none
      headers := response.headers
      writeQueue := response.writeQueue }

/-- A body that was not read completely ends the connection, and the rest of it is dropped. -/
def dropBody (con : ErrorCon) : ErrorCon :=
  if con.contentLength ≠ 0 then
    { con with
      keepAlive := con.keepAlive && decide (con.contentLength = con.requestContentQueue.bytesIn)
      contentLength := 0
      requestContentQueue := chunkqueueReset con.requestContentQueue }
  else con

/-- The part for `server.error-handler`: the request becomes a new GET. -/
def saveRequest (con : ErrorCon) : ErrorCon :=
  let con := dropBody (pluginsCallConnectionReset con)
  { con with
    isWritable := true
    fileFinished := false
    fileStarted := false
    parsedResponse := .none
    responseKeepAlive := false
    responseContentLength := -1
    chunked := false
    savedStatus := con.httpStatus
    savedMethod := con.httpMethod
    httpMethod := .get }

/-- The URI of the error handler for the status of the response. -/
def errorHandlerFor (conf : ErrorConf) (con : ErrorCon) : Option Bytes :=
  if con.httpStatus < 400 then none
  else if conf.errorHandler ≠ [] then some conf.errorHandler
  else if (con.httpStatus = 404 ∨ con.httpStatus = 403) ∧ conf.errorHandler404 ≠ [] then
    some conf.errorHandler404
  else none

/-- The environment for the error handler. -/
def setRedirectStatus (con : ErrorCon) : ErrorCon :=
  { con with
    environment :=
      arrayInsertUnique con.environment (str "REDIRECT_STATUS") (itostr con.httpStatus) }

/-- The call of the error handler. The status is negative for `server.error-handler-404`. -/
def callErrorHandler (conf : ErrorConf) (handler : Bytes) (con : ErrorCon) : Option ErrorCon :=
  let con := setRedirectStatus con
  let con :=
    if conf.errorHandler ≠ [] then saveRequest con
    else { con with savedStatus := -con.httpStatus }
  (errdocInit { con with requestUri := handler }).map fun con => { con with httpStatus := 0 }

/-- Where `connection_handle_handle_request_state` leaves. -/
inductive RequestOutcome
  | restart
  | comeback
  | respond
  | wait
  | waitForFd
  | error
  | unknown
  deriving DecidableEq, Repr

/-- The value returned: the state is handled again. -/
def RequestOutcome.done : RequestOutcome → ℤ
  | .restart | .comeback => -1
  | _ => 0

/-- The response goes on to the client. -/
def startResponse (con : ErrorCon) : ErrorCon :=
  { con with
    httpStatus := if con.httpStatus = 0 then 200 else con.httpStatus
    state := .responseStart }

/-- The status of a response behind the error handler. -/
def handlerStatus (con : ErrorCon) : ErrorCon :=
  if con.savedStatus > 0 then { con with httpStatus := con.savedStatus.toNat }
  else if con.httpStatus = 404 ∨ con.httpStatus = 403 then
    { con with httpStatus := (-con.savedStatus).toNat }
  else con

/-- The method of a response behind `server.error-handler`. -/
def restoreMethod (con : ErrorCon) : ErrorCon :=
  if con.savedStatus > 0 then { con with httpMethod := con.savedMethod } else con

/-- The part for a response. -/
def handleFinished (conf : ErrorConf) (con : ErrorCon) : Option (RequestOutcome × ErrorCon) :=
  let con := restoreMethod con
  if con.mode = 0 ∨ conf.errorIntercept then
    if con.savedStatus ≠ 0 then some (.respond, startResponse (handlerStatus con))
    else
      match errorHandlerFor conf con with
      | some handler => (callErrorHandler conf handler con).map fun con => (.restart, con)
      | none => some (.respond, startResponse con)
  else some (.respond, startResponse con)

/-- What is done with the result of `http_response_prepare`. -/
def handlePrepared (conf : ErrorConf) (r : HandlerT) (con : ErrorCon) :
    Option (RequestOutcome × ErrorCon) :=
  match r with
  | .waitForEvent =>
    if ¬ con.fileFinished ∧ (¬ con.fileStarted ∨ ¬ conf.streamResponseBody) then some (.wait, con)
    else handleFinished conf con
  | .finished => handleFinished conf con
  | .waitForFd => some (.waitForFd, con)
  | .comeback => some (.comeback, con)
  | .error => some (.error, { con with state := .error })
  | .goOn => some (.unknown, con)

/-- `connection_handle_handle_request_state`. -/
def connectionHandleHandleRequestState (conf : ErrorConf) (hs : PrepareHandlers)
    (con : ErrorCon) : Option (RequestOutcome × ErrorCon) := do
  let (r, con) ← httpResponsePrepareWith conf hs con
  handlePrepared conf r con

/-- What happens around one call: the settings, what a backend does before it, and the hooks. -/
structure RequestTurn where
  conf : ErrorConf
  event : ErrorCon → HandledCon
  handlers : PrepareHandlers

/-- A call, with the connection behind `http_response_prepare` and at the end. -/
structure HandledTurn where
  turn : RequestTurn
  prepared : ErrorCon
  outcome : RequestOutcome
  con : ErrorCon

/-- A call of `connection_handle_handle_request_state`. -/
def handleTurn (turn : RequestTurn) (con : ErrorCon) : Option HandledTurn :=
  (httpResponsePrepareWith turn.conf turn.handlers con).bind fun r =>
    (handlePrepared turn.conf r.1 r.2).map fun s => ⟨turn, r.2, s.1, s.2⟩

theorem connectionHandleHandleRequestState_eq (turn : RequestTurn) (con : ErrorCon) :
    connectionHandleHandleRequestState turn.conf turn.handlers con =
      (handleTurn turn con).map fun t => (t.outcome, t.con) := by
  unfold connectionHandleHandleRequestState handleTurn
  cases httpResponsePrepareWith turn.conf turn.handlers con with
  | none => rfl
  | some r => simp [Function.comp_def]

/-- The connection at a call. A request that comes back at once does so before a backend can do
anything. -/
def RequestTurn.before (turn : RequestTurn) (again : Bool) (con : ErrorCon) : ErrorCon :=
  if again then con else { con with toHandledCon := turn.event con }

/-- The calls for a request, up to a response or an error. -/
def handleRequestRun : Bool → List RequestTurn → ErrorCon → List HandledTurn
  | _, [], _ => []
  | again, turn :: turns, con =>
    let con := turn.before again con
    if con.state = .readPost ∨ con.state = .handleRequest then
      match handleTurn turn con with
      | some t =>
        if t.outcome = .respond ∨ t.outcome = .error then [t]
        else t :: handleRequestRun (t.outcome.done = -1) turns t.con
      | none => []
    else handleRequestRun false turns con

/-- `http_response_prepare` makes everything from this URI. -/
structure FromScratch (con : ErrorCon) (uri : Bytes) : Prop where
  uri_eq : con.requestUri = uri
  prepare_eq : ∀ conf hs, httpResponsePrepareWith conf hs con = prepareFromUri conf hs con

/-- What is sent for the response has no body. -/
def HeaderOnly (con : ErrorCon) : Prop :=
  ∀ conf r, connectionHandleWritePrepare conf con.responseCon = some r →
    r.writeQueue.bytes = headerBlock conf r

/-- The status of a response that keeps its own. -/
def ownStatus (page : ℕ) : ℕ := if page = 0 then 200 else page

/-- The status of a response behind `server.error-handler-404`. -/
def pageStatus (original page : ℕ) : ℕ :=
  if page = 404 ∨ page = 403 then original else ownStatus page

/-- The value of `REDIRECT_STATUS`, when it is in the environment. -/
def redirectStatus (con : ErrorCon) : Option Buffer :=
  arrayGetElement con.environment (str "REDIRECT_STATUS")

/-- The error handler of a request with this method runs at most once and keeps the outcome. -/
structure KeepsOutcome (method : HttpMethod) (trace : List HandledTurn) : Prop where
  once : (trace.filter fun t => t.outcome = .restart).length ≤ 1
  fromScratch : ∀ t ∈ trace, t.outcome = .restart →
    ∃ uri, errorHandlerFor t.turn.conf t.prepared = some uri ∧ FromScratch t.con uri
  redirected : ∀ t ∈ trace, t.outcome = .restart →
    redirectStatus t.con = some (some (itostr t.prepared.httpStatus))
  errorHandler : ∀ t ∈ trace, ∀ t' ∈ trace, t.outcome = .restart → t'.outcome = .respond →
    t.turn.conf.errorHandler ≠ [] → t'.con.mode = 0 →
      t'.con.httpStatus = t.prepared.httpStatus ∧ t'.con.httpMethod = method ∧
        (method = .head → HeaderOnly t'.con)
  errorHandler404 : ∀ t ∈ trace, ∀ t' ∈ trace, t.outcome = .restart → t'.outcome = .respond →
    t.turn.conf.errorHandler = [] →
      t'.con.httpStatus = pageStatus t.prepared.httpStatus t'.prepared.httpStatus

/-- The same as far as the code means it: of errors that the server itself found, in an environment
without `REDIRECT_STATUS`, and of pages whose status the server may replace. -/
structure KeepsDirectOutcome (trace : List HandledTurn) : Prop where
  once : (trace.filter fun t => t.outcome = .restart).length ≤ 1
  fromScratch : ∀ t ∈ trace, t.outcome = .restart → t.prepared.mode = 0 →
    ∃ uri, errorHandlerFor t.turn.conf t.prepared = some uri ∧ FromScratch t.con uri
  redirected : ∀ t ∈ trace, t.outcome = .restart → redirectStatus t.prepared = none →
    redirectStatus t.con = some (some (itostr t.prepared.httpStatus))
  errorHandler : ∀ t ∈ trace, ∀ t' ∈ trace, t.outcome = .restart → t'.outcome = .respond →
    t.turn.conf.errorHandler ≠ [] → t.prepared.mode = 0 → t'.con.mode = 0 →
      t'.con.httpStatus = t.prepared.httpStatus ∧ t'.con.httpMethod = t.prepared.httpMethod ∧
        (t.prepared.httpMethod = .head → HeaderOnly t'.con)
  errorHandler404 : ∀ t ∈ trace, ∀ t' ∈ trace, t.outcome = .restart → t'.outcome = .respond →
    t.turn.conf.errorHandler = [] →
      t'.con.httpStatus =
        if t'.prepared.mode = 0 ∨ t'.turn.conf.errorIntercept then
          pageStatus t.prepared.httpStatus t'.prepared.httpStatus
        else ownStatus t'.prepared.httpStatus

end Lighttpd
