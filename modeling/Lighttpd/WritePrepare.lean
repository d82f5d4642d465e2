import Lighttpd.HttpChunk
import Lighttpd.ProcessHeaders

/-!
# Preparing a response

`connection_handle_write_prepare` completes a response: it answers `OPTIONS`, drops the body of a
status without one, makes an error document, frames the body, and lets
`http_response_write_header` put the header block in front of the queue. A failed assertion is
`none`. The plugins that may change the headers in between are taken to change nothing.
-/

namespace Lighttpd

open CString ResponseHeaders

/-- What is read of the configuration, and what the system says: the error document of a status
with its content type, the name of a status, and the date. -/
structure WriteConf where
  errorIntercept : Bool
  errorfile : ℕ → Option (Bytes × Option Bytes)
  statusName : ℕ → Bytes
  maxKeepAliveRequests : ℕ
  maxKeepAliveIdle : ℕ
  serverTag : Bytes
  date : Bytes
  bufmin : Bool

/-- What the functions of `http_chunk.c` read of the connection. -/
def ResponseCon.chunkConf (conf : WriteConf) (con : ResponseCon) : HttpChunkConf :=
  ⟨con.chunked, conf.bufmin⟩

/-! ## The header block -/

/-- A header is written: it has a key and a value, and is not meant for the server. -/
def isWritten (httpStatus : ℕ) (ds : DataUnset Buffer) : Bool :=
  ¬ (ds.value.string = [] ∨ ds.key.string = []) ∧
    ¬ strncaseeq ds.key.string (str "X-Sendfile") ∧
    ¬ strncaseeq ds.key.string (str "X-LIGHTTPD-") ∧
    ¬ (strcaseeq ds.key.string (str "Content-Encoding") ∧ httpStatus = 304)

/-- The headers that `http_response_write_header` writes. -/
def headerFields (con : ResponseCon) : List (Bytes × Bytes) :=
  (con.headers.elements.filter (isWritten con.httpStatus)).map fun ds =>
    (ds.key.string, ds.value.string)

/-- A header with this name is written. -/
def haveField (con : ResponseCon) (name : Bytes) : Bool :=
  (headerFields con).any fun field => strcaseeq field.1 name

/-- The header block. -/
def headerBlock (conf : WriteConf) (con : ResponseCon) : Bytes :=
  (if con.httpVersion = .http11 then str "HTTP/1.1 " else str "HTTP/1.0 ") ++
    itostr con.httpStatus ++ str " " ++ conf.statusName con.httpStatus ++
    (headerFields con).flatMap (fun field => [CR, LF] ++ field.1 ++ str ": " ++ field.2) ++
    (if haveField con (str "Date") then [] else str "\r\nDate: " ++ conf.date) ++
    (if haveField con (str "Server") ∨ conf.serverTag = [] then []
      else str "\r\nServer: " ++ conf.serverTag) ++
    str "\r\n\r\n"

/-- The fixed header for the end of the connection. -/
def connectionHeader (con : ResponseCon) : Option FixedType :=
  if con.parsedResponse.upgrade ∧ con.httpVersion = .http11 then some .connectionUpgrage
  else if ¬ con.keepAlive then some .connectionClose
  else if con.httpVersion = .http10 then some .connectionKeepalive
  else none

/-- Keep-alive as far as the configuration allows it. -/
def limitKeepAlive (conf : WriteConf) (con : ResponseCon) : ResponseCon :=
  if con.requestCount > conf.maxKeepAliveRequests ∨ conf.maxKeepAliveIdle = 0 then
    { con with keepAlive := false }
  else con

/-- The insertion of the fixed header for the end of the connection. -/
def insertConnectionHeader (con : ResponseCon) : Option ResponseCon :=
  match connectionHeader con with
  | some headerType =>
    (responseHeaderFixedOverwrite con.headers headerType).map fun headers =>
      { con with headers := headers }
  | none => some con

/-- `http_response_write_header`. -/
def httpResponseWriteHeader (conf : WriteConf) (con : ResponseCon) : Option ResponseCon :=
  (insertConnectionHeader (limitKeepAlive conf con)).map fun con =>
    { con with writeQueue := chunkqueuePrependBuffer con.writeQueue (headerBlock conf con) }

/-- A request for the options of the server or of a resource, as far as nothing went wrong. -/
def isOptions (con : ResponseCon) : Bool :=
  con.direct ∧ con.httpMethod = .options ∧ (con.httpStatus = 0 ∨ con.httpStatus = 200) ∧
    con.uriPath ≠ [] ∧ con.uriPath.head? ≠ some 42

/-- The first part: what the server answers without a module, and the status when nobody set
one. -/
def prepareDirect (con : ResponseCon) : Option ResponseCon :=
  if isOptions con then
    (responseHeaderInsert con.headers (str "Allow") (str "OPTIONS, GET, HEAD, POST")).map
      fun headers =>
        { con with
          headers := headers
          chunked := false
          parsedResponse := { con.parsedResponse with contentLength := false }
          httpStatus := 200
          fileFinished := true
          writeQueue := chunkqueueReset con.writeQueue }
  else if con.httpStatus ≠ 0 then some con
  else if con.direct ∧ con.httpMethod ∉ [.get, .post, .head, .options] then
    some { con with httpStatus := 501 }
  else some { con with httpStatus := 403 }

/-- `connection_handle_errdoc_init`. -/
def connectionHandleErrdocInit (con : ResponseCon) : Option ResponseCon :=
  let wwwAuth :=
    if con.httpStatus = 401 then con.headers.getElement (str "WWW-Authenticate") else none
  let con :=
    { con with
      chunked := false
      headers := con.headers.reset
      writeQueue := chunkqueueReset con.writeQueue }
  match wwwAuth with
  | some ds =>
    (responseHeaderInsert con.headers (str "WWW-Authenticate") ds.value.string).map fun headers =>
      { con with headers := headers }
  | none => some con

/-- The default error page. -/
def errorPage (conf : WriteConf) (httpStatus : ℕ) : Bytes :=
  let title := itostr httpStatus ++ str " - " ++ conf.statusName httpStatus
  str ("<?xml version=\"1.0\" encoding=\"iso-8859-1\"?>\n" ++
    "<!DOCTYPE html PUBLIC \"-//W3C//DTD XHTML 1.0 Transitional//EN\"\n" ++
    "         \"http://www.w3.org/TR/xhtml1/DTD/xhtml1-transitional.dtd\">\n" ++
    "<html xmlns=\"http://www.w3.org/1999/xhtml\" xml:lang=\"en\" lang=\"en\">\n" ++
    " <head>\n" ++ "  <title>") ++ title ++
    str ("</title>\n" ++ " </head>\n" ++ " <body>\n" ++ "  <h1>") ++ title ++
    str ("</h1>\n" ++ " </body>\n" ++ "</html>\n")

/-- The body of an error document, behind `connection_handle_errdoc_init`. -/
def errorBody (conf : WriteConf) (con : ResponseCon) : Option ResponseCon :=
  match conf.errorfile con.httpStatus with
  | some (file, contentType) =>
    let r := httpChunkAppendFile (con.chunkConf conf) con.writeQueue (some file)
    let con := { con with writeQueue := r.2, fileFinished := true }
    match contentType with
    | some contentType =>
      (responseHeaderOverwrite con.headers (str "Content-Type") contentType).map fun headers =>
        { con with headers := headers }
    | none => some con
  | none =>
    let r := httpChunkAppendBuffer (con.chunkConf conf) con.writeQueue
      (some (errorPage conf con.httpStatus)) con.io
    (responseHeaderOverwrite con.headers (str "Content-Type") (str "text/html")).map fun headers =>
      { con with writeQueue := r.queue, io := r.io, fileFinished := true, headers := headers }

/-- The status is one without a body. -/
def isHeaderOnly (httpStatus : ℕ) : Bool := httpStatus ∈ [204, 205, 304]

/-- An error document takes the place of the response. -/
def isErrorDocument (conf : WriteConf) (con : ResponseCon) : Bool :=
  400 ≤ con.httpStatus ∧ con.httpStatus < 600 ∧
    (con.direct ∨ (conf.errorIntercept ∧ ¬ con.savedStatus))

/-- The second part, the `switch` over the status. -/
def prepareStatus (conf : WriteConf) (con : ResponseCon) : Option ResponseCon :=
  if isHeaderOnly con.httpStatus then
    some { con with
      chunked := false
      parsedResponse := { con.parsedResponse with contentLength := false }
      writeQueue := chunkqueueReset con.writeQueue
      fileFinished := true }
  else if isErrorDocument conf con then
    (connectionHandleErrdocInit { con with fileFinished := false }).bind (errorBody conf)
  else some con

/-- The value of a header, when there is one, is emptied and the header not written. -/
def clearHeader (h : ResponseHeaders) (key : Bytes) : ResponseHeaders :=
  match (arrayGetIndex h.view key).1 with
  | some ndx => h.setValueAt ndx none
  | none => h

/-- The status does not allow a `Content-Length`. -/
def hasNoContent (httpStatus : ℕ) : Bool :=
  (100 ≤ httpStatus ∧ httpStatus < 200) ∨ httpStatus = 204 ∨ httpStatus = 304

/-- All of the body is in the queue. -/
def frameFinished (con : ResponseCon) : Option ResponseCon :=
  if con.parsedResponse.contentLength ∨ con.parsedResponse.transferEncoding then some con
  else
    let qlen := chunkqueueLength con.writeQueue
    if hasNoContent con.httpStatus then
      some { con with headers := clearHeader con.headers (str "Content-Length") }
    else if qlen > 0 ∨ con.httpMethod ≠ .head then
      (responseHeaderOverwrite con.headers (str "Content-Length") (itostr qlen)).map fun headers =>
        { con with headers := headers }
    else some con

/-- Framing of a body of which more is to come. -/
def frameStarted (con : ResponseCon) : Option ResponseCon :=
  if con.parsedResponse.contentLength ∨ con.parsedResponse.transferEncoding ∨
      con.parsedResponse.upgrade then some con
  else if con.httpMethod = .connect ∧ con.httpStatus = 200 then some con
  else if con.httpVersion = .http11 then
    (responseHeaderFixedAppend con.headers (str "Transfer-Encoding") (str "chunked")
      .transferEncodingChunked).map fun headers =>
        { con with
          chunked := true
          writeQueue := initialChunk con.writeQueue
          headers := headers }
  else some { con with keepAlive := false }

/-- A backend that closes the connection. -/
def followBackend (con : ResponseCon) : ResponseCon :=
  if con.parsedResponse.connection ∧ con.keepAlive ∧ ¬ con.responseKeepAlive then
    { con with keepAlive := false }
  else con

/-- The third part: how the client finds the end of the body. -/
def prepareFraming (con : ResponseCon) : Option ResponseCon :=
  if con.fileFinished then frameFinished con
  else (frameStarted con).map followBackend

/-- A `HEAD` request is answered without the body. -/
def prepareHead (con : ResponseCon) : ResponseCon :=
  if con.httpMethod = .head then
    { con with
      fileFinished := true
      writeQueue := chunkqueueReset con.writeQueue
      chunked := false
      headers := if con.parsedResponse.transferEncoding then
          clearHeader con.headers (str "Transfer-Encoding")
        else con.headers }
  else con

/-- `connection_handle_write_prepare` when the plugins change nothing. -/
def connectionHandleWritePrepare (conf : WriteConf) (con : ResponseCon) :
    Option ResponseCon := do
  let con ← prepareDirect con
  let con ← prepareStatus conf con
  let con ← prepareFraming con
  httpResponseWriteHeader conf (prepareHead con)

end Lighttpd
