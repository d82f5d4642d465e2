import Lighttpd.ErrorHandler
import Mathlib.Data.Finset.Union

/-!
# The state machine of a connection

`connection_state_machine` runs the handler of the state of a connection until a handler leaves the
state as it is, and then `connection_handle_fdevent_set` registers the events to wait for. What
plugins, the client and the system do in a run is given to it; a run that needs more than is given
is `none`.
-/

namespace Lighttpd

/-! ## Event flags -/

/-- An `int` of flags, as the set of its bits. -/
abbrev EventFlags := Finset ℕ

/-- The bit of `FDEVENT_IN`. -/
def fdeventIn : ℕ := 0

/-- The bit of `FDEVENT_OUT`. -/
def fdeventOut : ℕ := 2

/-- The bit of `FDEVENT_ERR`. -/
def fdeventErr : ℕ := 3

/-- The bit of `FDEVENT_HUP`. -/
def fdeventHup : ℕ := 4

/-- The bit of `FDEVENT_RDHUP`. -/
def fdeventRdhup : ℕ := 13

/-- The bits of `EV_TPOOL_READ`, `EV_TPOOL_WRITE` and `EV_TPOOL_HUNGUP`. -/
structure TpoolBits where
  read : ℕ
  write : ℕ
  hungup : ℕ
  read_ne_write : read ≠ write
  read_ne_hungup : read ≠ hungup
  write_ne_hungup : write ≠ hungup

/-- `connection_fdevent2tpoolevent`. -/
def connectionFdevent2tpoolevent (bits : TpoolBits) (eventflag : EventFlags) : EventFlags :=
  (if fdeventIn ∈ eventflag then {bits.read} else ∅) ∪
    (if fdeventOut ∈ eventflag then {bits.write} else ∅) ∪
    (if fdeventHup ∈ eventflag then {bits.hungup} else ∅)

/-- What plugins may change of a connection. -/
structure MachineCon where
  isReadable : ℤ
  isWritable : ℤ
  keepAlive : Bool
  keepAliveIdle : ℤ
  maxReadIdle : ℕ
  maxWriteIdle : ℕ
  kbytesPerSecond : ℕ
  trafficLimitReached : Bool
  direct : Bool
  fileFinished : Bool
  readQueueEmpty : Bool
  writeQueueEmpty : Bool
  pollin : Bool
  deriving DecidableEq

/-- A connection. `eventflag` is that of its client handler; `released` says that the object went
back to `connspool`; `transferred` counts the bytes that were read and written; `requestReset` says
that `plugins_call_connection_reset` ran since the last request began. -/
structure TimedCon extends MachineCon where
  state : ConnectionState
  fd : Bool
  released : Bool
  eventflag : EventFlags
  requestCount : ℕ
  readIdleTs : ℤ
  writeRequestTs : ℤ
  closeTimeoutTs : ℤ
  connectionStart : ℤ
  bytesWritten : ℕ
  transferred : ℕ
  requestReset : Bool
  deriving DecidableEq

/-- What hooks of plugins do. -/
abbrev MachineHook := TimedCon → MachineCon

/-- The value of `network_read`: an error, a connection that the client closed, or neither. -/
inductive ReadRet
  | error
  | closed
  | ok
  deriving DecidableEq

/-- A call of `network_read`, with what it leaves in `is_readable`. -/
structure ReadResult where
  ret : ReadRet
  bytes : ℕ
  isReadable : ℤ
  readQueueEmpty : Bool

/-- The value of `connection_write_chunkqueue`: all was written, more is to be written, or an
error. -/
inductive WriteRet
  | done
  | more
  | error
  deriving DecidableEq

/-- A call of `connection_write_chunkqueue`. -/
structure QueueWrite where
  ret : WriteRet
  bytes : ℕ
  limited : Bool

/-- A call of `connection_handle_read_post_state`; `100 Continue` may be sent or fail. -/
structure ReadPostCall where
  read : ReadResult
  continueBytes : ℕ
  continueFailed : Bool
  ready : Bool
  hook : MachineHook

/-- What a plugin does while it handles a request. -/
inductive PluginCall
  | hook (h : MachineHook)
  | readPost (call : ReadPostCall)

/-- A turn of the loop of `connection_handle_write_state`. -/
structure WriteTurn where
  write : QueueWrite
  subrequest : List PluginCall
  failed : Bool

/-- What happens in a call of the handler of a state. -/
structure StateCall where
  hook : MachineHook
  read : ReadResult
  headerFound : Bool
  headerTooLong : Bool
  hasBody : Bool
  subrequest : List PluginCall
  outcome : RequestOutcome
  prepared : Bool
  writes : List WriteTurn
  bodyRead : Bool
  shutdownDone : Bool
  eos : Bool

namespace TimedCon

/-- The connection behind a call of hooks. -/
def hook (con : TimedCon) (h : MachineHook) : TimedCon := { con with toMachineCon := h con }

/-- `network_read`, and the time stamp in front of it. -/
def networkRead (now : ℤ) (read : ReadResult) (con : TimedCon) : TimedCon :=
  { con with
    readIdleTs := now
    isReadable := read.isReadable
    readQueueEmpty := read.readQueueEmpty
    transferred := con.transferred + read.bytes }

/-- `network_read` in a handler that calls it for a readable connection. -/
def readIfReadable (now : ℤ) (read : ReadResult) (con : TimedCon) : TimedCon :=
  if con.isReadable ≠ 0 then networkRead now read con else con

/-- `connection_handle_write`. -/
def connectionHandleWrite (now : ℤ) (call : QueueWrite) (con : TimedCon) : TimedCon :=
  let con :=
    { con with
      bytesWritten := con.bytesWritten + call.bytes
      transferred := con.transferred + call.bytes
      trafficLimitReached := con.trafficLimitReached || call.limited }
  match call.ret with
  | .done =>
    { con with
      writeQueueEmpty := true
      writeRequestTs := now
      state := if con.fileFinished then .responseEnd else con.state }
  | .more => { con with writeRequestTs := now, isWritable := 0 }
  | .error => { con with state := .error }

/-- `connection_handle_read_post_state`. -/
def connectionHandleReadPostState (now : ℤ) (call : ReadPostCall) (con : TimedCon) : TimedCon :=
  let r := readIfReadable now call.read con
  if con.isReadable ≠ 0 ∧ call.read.ret = .error then { r with state := .error }
  else
    let r : TimedCon := { r.hook call.hook with transferred := r.transferred + call.continueBytes }
    if call.continueFailed then { r with state := .error }
    else if call.ready ∧ r.state = .readPost then { r with state := .handleRequest }
    else r

/-- The connection behind a call of a plugin. -/
def pluginCall (now : ℤ) (con : TimedCon) : PluginCall → TimedCon
  | .hook h => con.hook h
  | .readPost call => connectionHandleReadPostState now call con

/-- The connection behind the calls of plugins. -/
def pluginCalls (now : ℤ) (calls : List PluginCall) (con : TimedCon) : TimedCon :=
  calls.foldl (pluginCall now) con

/-! ## The handlers of the states -/

/-- `connection_handle_request_start_state`. -/
def connectionHandleRequestStartState (now : ℤ) (con : TimedCon) : TimedCon :=
  { con with
    readIdleTs := now
    requestCount := con.requestCount + 1
    requestReset := false
    state := .read }

/-- `connection_handle_read_state`: whether it returns -1, and the connection. -/
def connectionHandleReadState (now : ℤ) (call : StateCall) (con : TimedCon) :
    Bool × TimedCon :=
  let r := readIfReadable now call.read con
  if con.isReadable ≠ 0 ∧ call.read.ret = .error then (true, { r with state := .error })
  else
    let isClosed := con.isReadable ≠ 0 ∧ call.read.ret = .closed
    let r :=
      { r with
        state :=
          if call.headerFound then .requestEnd else if isClosed then .error else r.state }
    (false, if call.headerTooLong then { r with keepAlive := false, state := .handleRequest } else r)

/-- `connection_handle_request_end_state`. -/
def connectionHandleRequestEndState (call : StateCall) (con : TimedCon) : TimedCon :=
  { con.hook call.hook with state := if call.hasBody then .readPost else .handleRequest }

/-- `connection_handle_handle_request_state`: whether it returns -1, and the connection. -/
def connectionHandleHandleRequestState (now : ℤ) (call : StateCall) (con : TimedCon) : Bool × TimedCon :=
  let con := pluginCalls now call.subrequest con
  (call.outcome.done = -1,
    match call.outcome with
    | .respond => { con with state := .responseStart }
    | .error => { con with state := .error }
    | _ => con)

/-- `connection_handle_response_start_state`. -/
def connectionHandleResponseStartState (call : StateCall) (con : TimedCon) : TimedCon :=
  { con.hook call.hook with state := if call.prepared then .write else .error }

/-- The part of the loop of `connection_handle_write_state` behind the write. -/
def writeSubrequest (now : ℤ) (turn : WriteTurn) (con : TimedCon) : TimedCon :=
  if ¬ con.direct ∧ ¬ con.fileFinished then
    let con := pluginCalls now turn.subrequest con
    if turn.failed then { con with state := .error } else con
  else con

/-- `connection_handle_write_state`. -/
def connectionHandleWriteState (now : ℤ) : List WriteTurn → TimedCon → Option TimedCon
  | [], _ => none
  | turn :: turns, con =>
    let again (con : TimedCon) : Option TimedCon :=
      let con := writeSubrequest now turn con
      if con.state = .write ∧ (if ¬ con.writeQueueEmpty then con.isWritable ≠ 0
          else con.fileFinished) then
        connectionHandleWriteState now turns con
      else some con
    if ¬ con.writeQueueEmpty then
      if con.isWritable ≠ 0 then
        let con := connectionHandleWrite now turn.write con
        if con.state ≠ .write then some con else again con
      else again con
    else if con.fileFinished then some { con with state := .responseEnd }
    else again con

/-- `connection_reset`. -/
def connectionReset (h : MachineHook) (con : TimedCon) : TimedCon :=
  { con.hook h with
    isReadable := 1
    isWritable := 1
    direct := true
    fileFinished := false
    writeQueueEmpty := true
    bytesWritten := 0
    requestReset := true }

/-- `connection_close`. -/
def connectionClose (con : TimedCon) : TimedCon :=
  { con with fd := false, released := true, state := .connect }

/-- `connection_handle_shutdown`. -/
def connectionHandleShutdown (now : ℤ) (call : StateCall) (con : TimedCon) : TimedCon :=
  let con := connectionReset call.hook con
  if con.fd ∧ call.shutdownDone then { con with closeTimeoutTs := now, state := .close }
  else connectionClose con

/-- `connection_handle_response_end_state`. -/
def connectionHandleResponseEndState (now : ℤ) (call : StateCall) (con : TimedCon) : TimedCon :=
  let con := { con with keepAlive := con.keepAlive && call.bodyRead && con.state ≠ .error }
  if con.keepAlive then { connectionReset call.hook con with state := .requestStart }
  else connectionHandleShutdown now call con

/-- `HTTP_LINGER_TIMEOUT`. -/
def httpLingerTimeout : ℤ := 5

/-- `connection_read_for_eos`; `eos` says that the client closed its side. -/
def connectionReadForEos (now : ℤ) (eos : Bool) (con : TimedCon) : TimedCon :=
  if eos then { con with closeTimeoutTs := now - (httpLingerTimeout + 1) } else con

/-- `connection_handle_close_state`. -/
def connectionHandleCloseState (now : ℤ) (call : StateCall) (con : TimedCon) : TimedCon :=
  let con := connectionReadForEos now call.eos con
  if now - con.closeTimeoutTs > httpLingerTimeout then connectionClose con else con

/-- `connection_handle_connect_state`. -/
def connectionHandleConnectState (con : TimedCon) : TimedCon :=
  { con with readQueueEmpty := true, requestCount := 0 }

/-- The handler of the state: whether it returns -1, and the connection. -/
def handleState (now : ℤ) (call : StateCall) (con : TimedCon) : Option (Bool × TimedCon) :=
  match con.state with
  | .requestStart => some (false, connectionHandleRequestStartState now con)
  | .read => some (connectionHandleReadState now call con)
  | .requestEnd => some (false, connectionHandleRequestEndState call con)
  | .readPost | .handleRequest => some (connectionHandleHandleRequestState now call con)
  | .responseStart => some (false, connectionHandleResponseStartState call con)
  | .write => (connectionHandleWriteState now call.writes con).map fun con => (false, con)
  | .responseEnd | .error => some (false, connectionHandleResponseEndState now call con)
  | .close => some (false, connectionHandleCloseState now call con)
  | .connect => some (false, connectionHandleConnectState con)

/-- `connection_fdevent_get_interest`. -/
def connectionFdeventGetInterest (bits : TpoolBits) (eventflag : EventFlags) : EventFlags :=
  connectionFdevent2tpoolevent bits eventflag

/-- The events that the state of the connection needs. -/
def stateEvents (con : TimedCon) : EventFlags :=
  let pollin : EventFlags := if con.pollin then {fdeventIn, fdeventRdhup} else ∅
  match con.state with
  | .read => {fdeventIn, fdeventRdhup}
  | .write =>
    (if ¬ con.writeQueueEmpty ∧ con.isWritable = 0 ∧ ¬ con.trafficLimitReached then {fdeventOut}
      else ∅) ∪ pollin
  | .readPost => pollin
  | .close => {fdeventIn}
  | _ => ∅

/-- The events to register, when `events` are registered. -/
def wantedEvents (con : TimedCon) (events : EventFlags) : EventFlags :=
  stateEvents con ∪ (if con.isReadable < 0 then {fdeventIn} else ∅) ∪
    (if con.isWritable < 0 then {fdeventOut} else ∅) ∪
    (if fdeventRdhup ∈ events then {fdeventRdhup} else ∅)

/-- `connection_handle_fdevent_set`. -/
def connectionHandleFdeventSet (bits : TpoolBits) (now : ℤ) (con : TimedCon) : TimedCon :=
  if con.fd then
    let events := connectionFdeventGetInterest bits con.eventflag
    let r := wantedEvents con events
    let con :=
      { con with
        isReadable := if con.isReadable < 0 then 0 else con.isReadable
        isWritable := if con.isWritable < 0 then 0 else con.isWritable }
    if r ≠ events then
      { con with
        readIdleTs := if fdeventIn ∈ r ∧ fdeventIn ∉ events then now else con.readIdleTs
        writeRequestTs := if fdeventOut ∈ r ∧ fdeventOut ∉ events then now else con.writeRequestTs
        eventflag := connectionFdevent2tpoolevent bits r }
    else con
  else con

/-- `connection_handle_base`, as often as the state machine calls it. -/
def connectionHandleBase (bits : TpoolBits) (now : ℤ) :
    ConnectionState → List StateCall → TimedCon → Option TimedCon
  | _, [], _ => none
  | ostate, call :: calls, con =>
    (handleState now call con).bind fun r =>
      if r.1 ∨ ostate ≠ r.2.state then connectionHandleBase bits now r.2.state calls r.2
      else some (connectionHandleFdeventSet bits now r.2)

/-- `connection_get_ostate`. -/
def connectionGetOstate (con : TimedCon) : ConnectionState :=
  if con.state = .readPost then .handleRequest else con.state

/-- `connection_state_machine`. -/
def connectionStateMachine (bits : TpoolBits) (now : ℤ) (calls : List StateCall)
    (con : TimedCon) : Option TimedCon :=
  connectionHandleBase bits now (connectionGetOstate con) calls con

end TimedCon

end Lighttpd
