import Lighttpd.Lib.PartialRuns
import Lighttpd.TimeLimits

/-!
# Graceful shutdown

Once `graceful_shutdown` is set, `server_graceful_shutdown_maint` and the check of
`server_main_loop` change the states of connections from outside of the state machine.
`ServedCon.gracefulRun` says which runs cut no response, and in which every connection that
goes back to `connspool` had its last request reset.
-/

namespace Lighttpd

namespace TimedCon

/-- What `server_graceful_shutdown_maint` changes of a connection, and whether the state machine is
to run. -/
def gracefulMaint (now : ℤ) (con : TimedCon) : Bool × TimedCon :=
  let r : Bool × TimedCon :=
    if con.state = .close then
      let con := { con with closeTimeoutTs := con.closeTimeoutTs - (httpLingerTimeout - 1) }
      (now - con.closeTimeoutTs > httpLingerTimeout, con)
    else if con.state = .read ∧ con.requestCount > 1 ∧ con.readQueueEmpty then
      (true, { con with state := .error })
    else (false, con)
  (r.1 || r.2.trafficLimitReached,
    { r.2 with keepAlive := false, kbytesPerSecond := 0, trafficLimitReached := false })

/-- `server_graceful_shutdown_maint`, for a connection. -/
def serverGracefulShutdownMaint (bits : TpoolBits) (now : ℤ) (calls : List StateCall)
    (con : TimedCon) : Option TimedCon :=
  let r := con.gracefulMaint now
  if r.1 then connectionStateMachine bits now calls r.2 else some r.2

/-! ## `connection_handle_fdevent` -/

/-- An event of the client's socket, with what reading and writing come to. -/
structure SocketCall where
  eventflag : EventFlags
  isSsl : Bool
  read : StateCall
  write : QueueWrite
  eos : Bool
  unixSocket : Bool
  halfClosed : Bool

/-- `connection_tpoolevent2fdevent`. -/
def connectionTpoolevent2fdevent (bits : TpoolBits) (eventflag : EventFlags) : EventFlags :=
  (if bits.read ∈ eventflag then {fdeventIn} else ∅) ∪
    (if bits.write ∈ eventflag then {fdeventOut} else ∅) ∪
    (if bits.hungup ∈ eventflag then {fdeventHup} else ∅)

/-- The socket is ready for what `revents` says. -/
def socketReady (isSsl : Bool) (revents : EventFlags) (con : TimedCon) : TimedCon :=
  if isSsl then
    if fdeventIn ∈ revents ∨ fdeventOut ∈ revents then { con with isReadable := 1, isWritable := 1 }
    else con
  else
    { con with
      isReadable := if fdeventIn ∈ revents then 1 else con.isReadable
      isWritable := if fdeventOut ∈ revents then 1 else con.isWritable }

/-- The events that are neither `FDEVENT_IN` nor `FDEVENT_OUT`. -/
def handleHangup (now : ℤ) (call : SocketCall) (revents : EventFlags) (con : TimedCon) : TimedCon :=
  if revents \ {fdeventIn, fdeventOut} ≠ ∅ ∧ con.state ≠ .error then
    if con.state = .close then { con with closeTimeoutTs := now - (httpLingerTimeout + 1) }
    else if fdeventHup ∈ revents then { con with state := .error }
    else if fdeventRdhup ∈ revents then
      if call.unixSocket ∨ call.halfClosed then { con with keepAlive := false }
      else { con with state := .error }
    else if fdeventErr ∈ revents then { con with state := .error }
    else con
  else con

/-- `connection_handle_fdevent`, up to the call of the state machine. -/
def handleRevents (now : ℤ) (call : SocketCall) (revents : EventFlags) (con : TimedCon) : TimedCon :=
  let con := con.socketReady call.isSsl revents
  let con := if con.state = .read then (connectionHandleReadState now call.read con).2 else con
  let con :=
    if con.state = .write ∧ ¬ con.writeQueueEmpty ∧ con.isWritable ≠ 0 then
      connectionHandleWrite now call.write con
    else con
  let con := if con.state = .close then connectionReadForEos now call.eos con else con
  handleHangup now call revents con

/-- `connection_handle_fdevent`. -/
def connectionHandleFdevent (bits : TpoolBits) (now : ℤ) (call : SocketCall)
    (calls : List StateCall) (con : TimedCon) : Option TimedCon :=
  connectionStateMachine bits now calls
    (handleRevents now call (connectionTpoolevent2fdevent bits call.eventflag) con)

/-- The connection of `connection_accepted`. -/
def connectionAccepted (now : ℤ) (con : TimedCon) : TimedCon :=
  { con with
    fd := true
    released := false
    connectionStart := now
    requestReset := true
    state := .requestStart }

/-- A request is handled or its response is sent. -/
def Responding (con : TimedCon) : Prop :=
  con.state = .readPost ∨ con.state = .handleRequest ∨ con.state = .responseStart ∨
    con.state = .write

instance (con : TimedCon) : Decidable con.Responding := by
  unfold Responding
  infer_instance

end TimedCon

/-! ## What happens to a connection -/

/-- An event of the server: the signal that sets `graceful_shutdown`, a new second in
`server_main_loop`, `server_graceful_state`, an event of the client's socket, or one of plugins that
appends the connection to the joblist. -/
inductive ServerEvent
  | shutdown
  | second (srvShutdown : Bool) (now : ℤ) (maint check : List StateCall)
  | gracefulState (srvShutdown : Bool) (now : ℤ) (calls : List StateCall)
  | socket (now : ℤ) (call : TimedCon.SocketCall) (calls : List StateCall)
  | job (now : ℤ) (plugins : List PluginCall) (calls : List StateCall)

/-- A connection while the server runs. `served` is the request that was responded to when
`graceful_shutdown` was set; `peerClosed` says that the client was seen to close its side. -/
structure ServedCon where
  con : TimedCon
  gracefulShutdown : Bool
  served : Option ℕ
  peerClosed : Bool
  deriving DecidableEq

/-- The read found the client's side closed. -/
def PluginCall.peerClosed : PluginCall → Bool
  | .hook _ => false
  | .readPost call => call.read.ret = .closed

/-- Some read of a run of the state machine found the client's side closed. -/
def StateCall.peerClosed (call : StateCall) : Bool :=
  call.read.ret = .closed || call.subrequest.any PluginCall.peerClosed ||
    call.writes.any fun turn => turn.subrequest.any PluginCall.peerClosed

/-- The client was seen to close its side. -/
def ServerEvent.peerClosed (bits : TpoolBits) : ServerEvent → Bool
  | .shutdown => false
  | .second _ _ maint check => maint.any StateCall.peerClosed || check.any StateCall.peerClosed
  | .gracefulState _ _ calls => calls.any StateCall.peerClosed
  | .socket _ call calls =>
    bits.hungup ∈ call.eventflag || call.read.peerClosed || calls.any StateCall.peerClosed
  | .job _ plugins calls => plugins.any PluginCall.peerClosed || calls.any StateCall.peerClosed

namespace ServedCon

/-- A connection that was accepted. -/
def accepted (now : ℤ) (con : TimedCon) : ServedCon := ⟨con.connectionAccepted now, false, none, false⟩

/-- `server_graceful_shutdown_maint`, when it is called. -/
def maintPass (bits : TpoolBits) (srvShutdown : Bool) (now : ℤ) (calls : List StateCall)
    (s : ServedCon) : Option TimedCon :=
  if s.gracefulShutdown ∧ ¬ srvShutdown then s.con.serverGracefulShutdownMaint bits now calls
  else some s.con

/-- The check of `server_main_loop` leaves out what is not in `connspool`. -/
def checkPass (bits : TpoolBits) (gracefulShutdown : Bool) (now : ℤ) (calls : List StateCall)
    (con : TimedCon) : Option TimedCon :=
  if con.released then some con else con.serverCheck bits gracefulShutdown now calls

/-- What an event does to a connection that is in use. -/
def stepCon (bits : TpoolBits) (s : ServedCon) : ServerEvent → Option TimedCon
  | .shutdown => some s.con
  | .second srvShutdown now maint check =>
    (s.maintPass bits srvShutdown now maint).bind (checkPass bits s.gracefulShutdown now check)
  | .gracefulState srvShutdown now calls => s.maintPass bits srvShutdown now calls
  | .socket now call calls => s.con.connectionHandleFdevent bits now call calls
  | .job now plugins calls =>
    TimedCon.connectionStateMachine bits now calls (TimedCon.pluginCalls now plugins s.con)

/-- What an event does. -/
def step (bits : TpoolBits) (s : ServedCon) (e : ServerEvent) : Option ServedCon :=
  if s.con.released then some s
  else
    (s.stepCon bits e).map fun con =>
      match e with
      | .shutdown =>
        { s with
          gracefulShutdown := true
          served :=
            if s.gracefulShutdown then s.served
            else if s.con.Responding then some s.con.requestCount else none }
      | _ => { s with con := con, peerClosed := s.peerClosed || e.peerClosed bits }

/-- The request that was responded to at the shutdown is still responded to. -/
def StillServed (s : ServedCon) (con : TimedCon) : Prop :=
  s.gracefulShutdown ∧ s.served = some con.requestCount ∧ con.Responding

/-- A pass at `now` that changes the connection from `con` to `con'` does not end a response, but
for a time limit or the client. -/
def Spared (bits : TpoolBits) (s : ServedCon) (now : ℤ) (con con' : TimedCon) : Prop :=
  s.StillServed con → con'.state = .close ∨ con'.state = .error →
    con.LimitExceeded bits now ∨ s.peerClosed

/-- No pass of the event ends a response. -/
def CutsNothing (bits : TpoolBits) (s : ServedCon) : ServerEvent → Prop
  | .second srvShutdown now maint _ =>
    (s.gracefulShutdown ∧ ¬ srvShutdown → s.Spared bits now s.con (s.con.gracefulMaint now).2) ∧
      ∀ con, s.maintPass bits srvShutdown now maint = some con → con.released = false →
        s.Spared bits now con (con.checkTimeouts bits s.gracefulShutdown now).2
  | .gracefulState srvShutdown now _ =>
    s.gracefulShutdown ∧ ¬ srvShutdown → s.Spared bits now s.con (s.con.gracefulMaint now).2
  | _ => True

/-- A new second does not meet a response that is still sent. -/
def MeetsNoResponse (bits : TpoolBits) (s : ServedCon) : ServerEvent → Prop
  | .second srvShutdown now maint _ =>
    ∀ con, s.maintPass bits srvShutdown now maint = some con → con.released = false →
      s.StillServed con → con.LimitExceeded bits now ∨ s.peerClosed
  | _ => True

/-- A new second meets only connections whose last request was reset. -/
def MeetsReset (bits : TpoolBits) (s : ServedCon) : ServerEvent → Prop
  | .second srvShutdown now maint _ =>
    ∀ con, s.maintPass bits srvShutdown now maint = some con → con.released = false →
      s.gracefulShutdown → con.requestReset = true
  | _ => True

end ServedCon

variable {now : ℤ} {con con' : TimedCon} {calls : List StateCall}

namespace TimedCon

/-- The check of a graceful shutdown takes every connection to the closing state. -/
theorem checkTimeouts_graceful (bits : TpoolBits) (now : ℤ) (con : TimedCon) :
    ∃ con', con.checkTimeouts bits true now = (true, con') ∧ con'.state = .close ∧
      con'.closeTimeoutTs = con.closeTimeoutTs ∧ con'.released = con.released ∧
      con'.requestReset = con.requestReset := by
  have hstate : con.checkState bits true now = (true, { con with state := .close }) := by
    rw [checkState, if_pos rfl, if_pos]
    by_cases hclose : con.state = .close
    · exact .inr (by rw [hclose]; decide)
    · exact .inl hclose
  rw [checkTimeouts, hstate, checkWrite_of_ne (by simp), checkRate]
  split_ifs <;> exact ⟨_, rfl, rfl, rfl, rfl, rfl⟩

/-- `server_graceful_shutdown_maint` spares responses. -/
theorem gracefulMaint_responding (h : con.Responding) :
    (con.gracefulMaint now).2.state = con.state := by
  have hclose : con.state ≠ .close := by rcases h with h | h | h | h <;> rw [h] <;> decide
  have hread : con.state ≠ .read := by rcases h with h | h | h | h <;> rw [h] <;> decide
  rw [gracefulMaint, if_neg hclose, if_neg fun hr => hread hr.1]

theorem Responding.not_ended (h : con.Responding) :
    ¬ (con.state = .close ∨ con.state = .error) := by
  rcases h with h | h | h | h <;> rw [h] <;> decide

/-! ## Resets -/

/-- The connection is neither about to close nor closed. -/
def InUse (con : TimedCon) : Prop := con.state ≠ .close ∧ con.state ≠ .connect

/-- A connection that is about to close had its last request reset. -/
structure Accounted (con : TimedCon) : Prop where
  connect_of_released : con.released = true → con.state = .connect
  reset : ¬ con.InUse → con.requestReset = true

/-- The connection is neither closed nor its request reset. -/
structure Serves (con con' : TimedCon) : Prop where
  released : con'.released = con.released
  requestReset : con'.requestReset = con.requestReset
  state : con'.state = con.state ∨ con'.InUse

theorem Serves.refl (con : TimedCon) : Serves con con := ⟨rfl, rfl, .inl rfl⟩

theorem Serves.of_state (hreleased : con'.released = con.released)
    (hreset : con'.requestReset = con.requestReset) (hstate : con'.state = con.state) :
    Serves con con' := ⟨hreleased, hreset, .inl hstate⟩

theorem Serves.of_inUse (hreleased : con'.released = con.released)
    (hreset : con'.requestReset = con.requestReset) (hclose : con'.state ≠ .close)
    (hconnect : con'.state ≠ .connect) : Serves con con' :=
  ⟨hreleased, hreset, .inr ⟨hclose, hconnect⟩⟩

theorem Serves.trans {con₁ con₂ con₃ : TimedCon} (h : Serves con₁ con₂) (h' : Serves con₂ con₃) :
    Serves con₁ con₃ := by
  refine ⟨h'.released.trans h.released, h'.requestReset.trans h.requestReset, ?_⟩
  rcases h'.state with hsame | huse
  · rcases h.state with hsame' | huse
    · exact .inl (hsame.trans hsame')
    · unfold InUse at huse ⊢
      rw [hsame]
      exact .inr huse
  · exact .inr huse

theorem Accounted.of_serves (h : con.Accounted) (hreleased : con.released = false)
    (hserves : Serves con con') : con'.Accounted := by
  refine ⟨fun hr => ?_, fun hn => ?_⟩
  · rw [hserves.released, hreleased] at hr
    exact absurd hr (by decide)
  · rw [hserves.requestReset]
    rcases hserves.state with hsame | huse
    · unfold InUse at hn
      rw [hsame] at hn
      exact h.reset hn
    · exact absurd huse hn

/-- A connection with the states and resets of one that is accounted for. -/
theorem Accounted.congr (h : con.Accounted) (hstate : con'.state = con.state)
    (hreleased : con'.released = con.released) (hreset : con'.requestReset = con.requestReset) :
    con'.Accounted := by
  refine ⟨fun hr => hstate.trans (h.connect_of_released (hreleased ▸ hr)), fun hn => ?_⟩
  unfold InUse at hn
  rw [hstate] at hn
  exact hreset.trans (h.reset hn)

theorem Accounted.released_eq_false (h : con.Accounted) (hstate : con.state ≠ .connect) :
    con.released = false :=
  Bool.eq_false_iff.mpr fun hr => hstate (h.connect_of_released hr)

theorem readIfReadable_serves (now : ℤ) (read : ReadResult) (con : TimedCon) :
    Serves con (readIfReadable now read con) := by
  unfold readIfReadable
  split_ifs
  · exact .of_state rfl rfl rfl
  · exact .refl con

theorem readPost_serves (now : ℤ) (call : ReadPostCall) (con : TimedCon) :
    Serves con (connectionHandleReadPostState now call con) := by
  refine (readIfReadable_serves now call.read con).trans ?_
  unfold connectionHandleReadPostState
  dsimp only
  split_ifs
  · exact .of_inUse rfl rfl (by simp) (by simp)
  · exact .of_inUse rfl rfl (by simp) (by simp)
  · exact .of_inUse rfl rfl (by simp) (by simp)
  · exact .of_state rfl rfl rfl

theorem pluginCalls_serves (now : ℤ) :
    ∀ (calls : List PluginCall) (con : TimedCon), Serves con (pluginCalls now calls con)
  | [], con => .refl con
  | call :: calls, con => by
    refine Serves.trans ?_ (pluginCalls_serves now calls (pluginCall now con call))
    cases call with
    | hook h => exact .of_state rfl rfl rfl
    | readPost call => exact readPost_serves now call con

theorem writeSubrequest_serves (now : ℤ) (turn : WriteTurn) (con : TimedCon) :
    Serves con (writeSubrequest now turn con) := by
  unfold writeSubrequest
  split_ifs
  · exact (pluginCalls_serves now turn.subrequest con).trans
      (.of_inUse rfl rfl (by simp) (by simp))
  · exact pluginCalls_serves now turn.subrequest con
  · exact .refl con

theorem handleWrite_serves (now : ℤ) (call : QueueWrite) (con : TimedCon) :
    Serves con (connectionHandleWrite now call con) := by
  unfold connectionHandleWrite
  cases call.ret with
  | done =>
    dsimp only
    split_ifs
    · exact .of_inUse rfl rfl (by simp) (by simp)
    · exact .of_state rfl rfl rfl
  | more => exact .of_state rfl rfl rfl
  | error => exact .of_inUse rfl rfl (by simp) (by simp)

/-- The turns of `connection_handle_write_state`. -/
theorem writeState_serves (now : ℤ) :
    ∀ (turns : List WriteTurn) (con con' : TimedCon),
      connectionHandleWriteState now turns con = some con' → Serves con con'
  | [], con, con', h => by simp [connectionHandleWriteState] at h
  | turn :: turns, con, con', h => by
    have hagain : ∀ con₁ : TimedCon,
        (if (writeSubrequest now turn con₁).state = .write ∧
            (if ¬ (writeSubrequest now turn con₁).writeQueueEmpty then
              (writeSubrequest now turn con₁).isWritable ≠ 0
            else (writeSubrequest now turn con₁).fileFinished) then
          connectionHandleWriteState now turns (writeSubrequest now turn con₁)
        else some (writeSubrequest now turn con₁)) = some con' → Serves con₁ con' := by
      intro con₁ h₁
      refine (writeSubrequest_serves now turn con₁).trans ?_
      by_cases hmore : (writeSubrequest now turn con₁).state = .write ∧
          (if ¬ (writeSubrequest now turn con₁).writeQueueEmpty then
            (writeSubrequest now turn con₁).isWritable ≠ 0
          else (writeSubrequest now turn con₁).fileFinished)
      · rw [if_pos hmore] at h₁
        exact writeState_serves now turns _ con' h₁
      · rw [if_neg hmore] at h₁
        obtain rfl := Option.some.inj h₁
        exact .refl _
    rw [connectionHandleWriteState] at h
    dsimp only at h
    by_cases hempty : ¬ con.writeQueueEmpty
    · rw [if_pos hempty] at h
      by_cases hwritable : con.isWritable ≠ 0
      · rw [if_pos hwritable] at h
        refine (handleWrite_serves now turn.write con).trans ?_
        by_cases hstate : (connectionHandleWrite now turn.write con).state ≠ .write
        · rw [if_pos hstate] at h
          obtain rfl := Option.some.inj h
          exact .refl _
        · rw [if_neg hstate] at h
          exact hagain _ h
      · rw [if_neg hwritable] at h
        exact hagain _ h
    · rw [if_neg hempty] at h
      by_cases hfinished : con.fileFinished
      · rw [if_pos hfinished] at h
        obtain rfl := Option.some.inj h
        exact .of_inUse rfl rfl (by simp) (by simp)
      · rw [if_neg hfinished] at h
        exact hagain _ h

theorem readState_serves (now : ℤ) (call : StateCall) (con : TimedCon) :
    Serves con (connectionHandleReadState now call con).2 := by
  refine (readIfReadable_serves now call.read con).trans ?_
  unfold connectionHandleReadState
  dsimp only
  split_ifs
  · exact .of_inUse rfl rfl (by simp) (by simp)
  · exact .of_inUse rfl rfl (by simp) (by simp)
  · exact .of_inUse rfl rfl (by simp) (by simp)
  · exact .of_inUse rfl rfl (by simp) (by simp)
  · exact .of_state rfl rfl rfl

theorem handleRequest_serves (now : ℤ) (call : StateCall) (con : TimedCon) :
    Serves con (connectionHandleHandleRequestState now call con).2 := by
  refine (pluginCalls_serves now call.subrequest con).trans ?_
  unfold connectionHandleHandleRequestState
  cases call.outcome with
  | respond => exact .of_inUse rfl rfl (by simp) (by simp)
  | error => exact .of_inUse rfl rfl (by simp) (by simp)
  | _ => exact .refl _

/-! ## The handlers account for resets -/

theorem connectionClose_accounted (h : con.requestReset = true) :
    con.connectionClose.Accounted := ⟨fun _ => rfl, fun _ => h⟩

theorem responseEnd_accounted (hreleased : con.released = false) (now : ℤ) (call : StateCall) :
    (connectionHandleResponseEndState now call con).Accounted := by
  have hin : ∀ {p : Prop}, con.released = true → p := fun hr => absurd (hreleased.symm.trans hr) (by decide)
  unfold connectionHandleResponseEndState connectionHandleShutdown
  dsimp only
  split_ifs
  · exact ⟨hin, fun _ => rfl⟩
  · exact ⟨hin, fun _ => rfl⟩
  · exact connectionClose_accounted rfl

theorem closeState_accounted (h : con.Accounted) (hclose : con.state = .close) (now : ℤ)
    (call : StateCall) : (connectionHandleCloseState now call con).Accounted := by
  have hreset : con.requestReset = true := h.reset fun huse => huse.1 hclose
  unfold connectionHandleCloseState connectionReadForEos
  dsimp only
  by_cases heos : call.eos
  · rw [if_pos heos]
    split_ifs
    · exact connectionClose_accounted hreset
    · exact h.congr rfl rfl rfl
  · rw [if_neg heos]
    split_ifs
    · exact connectionClose_accounted hreset
    · exact h

theorem requestEnd_serves (call : StateCall) (con : TimedCon) :
    Serves con (connectionHandleRequestEndState call con) := by
  unfold connectionHandleRequestEndState
  refine .of_inUse rfl rfl ?_ ?_ <;> dsimp only <;> split_ifs <;> simp

theorem responseStart_serves (call : StateCall) (con : TimedCon) :
    Serves con (connectionHandleResponseStartState call con) := by
  unfold connectionHandleResponseStartState
  refine .of_inUse rfl rfl ?_ ?_ <;> dsimp only <;> split_ifs <;> simp

theorem handleState_accounted {call : StateCall} {r : Bool × TimedCon} (hcon : con.Accounted)
    (h : handleState now call con = some r) : r.2.Accounted := by
  have hin : con.state ≠ .connect → con.released = false := hcon.released_eq_false
  unfold handleState at h
  cases hstate : con.state with
  | connect =>
    rw [hstate] at h
    obtain rfl := Option.some.inj h
    exact hcon.congr rfl rfl rfl
  | requestStart =>
    rw [hstate] at h hin
    obtain rfl := Option.some.inj h
    refine ⟨fun hr => ?_, fun hn => absurd ⟨?_, ?_⟩ hn⟩
    · exact absurd ((hin (by decide)).symm.trans hr) (by decide)
    · simp [connectionHandleRequestStartState]
    · simp [connectionHandleRequestStartState]
  | read =>
    rw [hstate] at h hin
    obtain rfl := Option.some.inj h
    exact hcon.of_serves (hin (by decide)) (readState_serves now call con)
  | requestEnd =>
    rw [hstate] at h hin
    obtain rfl := Option.some.inj h
    exact hcon.of_serves (hin (by decide)) (requestEnd_serves call con)
  | readPost =>
    rw [hstate] at h hin
    obtain rfl := Option.some.inj h
    exact hcon.of_serves (hin (by decide)) (handleRequest_serves now call con)
  | handleRequest =>
    rw [hstate] at h hin
    obtain rfl := Option.some.inj h
    exact hcon.of_serves (hin (by decide)) (handleRequest_serves now call con)
  | responseStart =>
    rw [hstate] at h hin
    obtain rfl := Option.some.inj h
    exact hcon.of_serves (hin (by decide)) (responseStart_serves call con)
  | write =>
    rw [hstate] at h hin
    obtain ⟨con', hwrite, rfl⟩ := Option.map_eq_some_iff.mp h
    exact hcon.of_serves (hin (by decide)) (writeState_serves now call.writes con con' hwrite)
  | responseEnd =>
    rw [hstate] at h hin
    obtain rfl := Option.some.inj h
    exact responseEnd_accounted (hin (by decide)) now call
  | error =>
    rw [hstate] at h hin
    obtain rfl := Option.some.inj h
    exact responseEnd_accounted (hin (by decide)) now call
  | close =>
    rw [hstate] at h
    obtain rfl := Option.some.inj h
    exact closeState_accounted hcon hstate now call

theorem fdeventSet_requestReset (bits : TpoolBits) (now : ℤ) (con : TimedCon) :
    (connectionHandleFdeventSet bits now con).requestReset = con.requestReset := by
  unfold connectionHandleFdeventSet
  dsimp only
  split_ifs <;> rfl

theorem fdeventSet_accounted (h : con.Accounted) (bits : TpoolBits) (now : ℤ) :
    (connectionHandleFdeventSet bits now con).Accounted := by
  obtain ⟨hstate, -, hreleased⟩ := fdeventSet_same bits now con
  exact h.congr hstate hreleased (fdeventSet_requestReset bits now con)

theorem base_accounted (bits : TpoolBits) (now : ℤ) :
    ∀ (calls : List StateCall) (ostate : ConnectionState) (con con' : TimedCon), con.Accounted →
      connectionHandleBase bits now ostate calls con = some con' → con'.Accounted
  | [], ostate, con, con', _, h => by simp [connectionHandleBase] at h
  | call :: calls, ostate, con, con', hcon, h => by
    obtain ⟨r, hr, hrun⟩ := base_cons h
    have hr' := handleState_accounted hcon hr
    rcases hrun with ⟨-, hbase⟩ | ⟨-, rfl⟩
    · exact base_accounted bits now calls r.2.state r.2 con' hr' hbase
    · exact fdeventSet_accounted hr' bits now

variable {bits : TpoolBits}

theorem stateMachine_accounted (hcon : con.Accounted)
    (h : connectionStateMachine bits now calls con = some con') : con'.Accounted :=
  base_accounted bits now calls _ con con' hcon h

theorem gracefulMaint_serves (now : ℤ) (con : TimedCon) : Serves con (con.gracefulMaint now).2 := by
  unfold gracefulMaint
  dsimp only
  split_ifs
  · exact .of_state rfl rfl rfl
  · exact .of_inUse rfl rfl (by simp) (by simp)
  · exact .of_state rfl rfl rfl

theorem checkTimeouts_serves (bits : TpoolBits) (now : ℤ) (con : TimedCon) :
    Serves con (con.checkTimeouts bits false now).2 := by
  have hstate : Serves con (con.checkState bits false now).2 := by
    unfold checkState
    rw [if_neg Bool.false_ne_true]
    split_ifs
    · exact .refl con
    · exact .of_inUse rfl rfl (by simp) (by simp)
    · exact .refl con
    · exact .refl con
  have hwrite : ∀ r : Bool × TimedCon, Serves r.2 (checkWrite now r).2 := by
    intro r
    unfold checkWrite
    split_ifs
    · exact .of_inUse rfl rfl (by simp) (by simp)
    · exact .refl _
  have hrate : ∀ r : Bool × TimedCon, Serves r.2 (checkRate now r).2 := by
    intro r
    unfold checkRate
    split_ifs
    · exact .of_state rfl rfl rfl
    · exact .refl _
  exact (hstate.trans (hwrite _)).trans (hrate _)

theorem handleHangup_serves (now : ℤ) (call : SocketCall) (revents : EventFlags) (con : TimedCon) :
    Serves con (handleHangup now call revents con) := by
  unfold handleHangup
  split_ifs
  · exact .of_state rfl rfl rfl
  · exact .of_inUse rfl rfl (by simp) (by simp)
  · exact .of_state rfl rfl rfl
  · exact .of_inUse rfl rfl (by simp) (by simp)
  · exact .of_inUse rfl rfl (by simp) (by simp)
  · exact .refl con
  · exact .refl con

theorem socketReady_serves (isSsl : Bool) (revents : EventFlags) (con : TimedCon) :
    Serves con (con.socketReady isSsl revents) := by
  unfold socketReady
  split_ifs <;> exact .of_state rfl rfl rfl

theorem readForEos_serves (now : ℤ) (eos : Bool) (con : TimedCon) :
    Serves con (connectionReadForEos now eos con) := by
  unfold connectionReadForEos
  split_ifs <;> exact .of_state rfl rfl rfl

theorem Serves.ite {p : Prop} {_ : Decidable p} (h : Serves con con') :
    Serves con (if p then con' else con) := by
  split_ifs
  · exact h
  · exact .refl con

theorem handleRevents_serves (now : ℤ) (call : SocketCall) (revents : EventFlags)
    (con : TimedCon) : Serves con (handleRevents now call revents con) := by
  unfold handleRevents
  refine Serves.trans ?_ (handleHangup_serves now call revents _)
  refine Serves.trans ?_ (Serves.ite (readForEos_serves now call.eos _))
  refine Serves.trans ?_ (Serves.ite (handleWrite_serves now call.write _))
  refine Serves.trans ?_ (Serves.ite (readState_serves now call.read _))
  exact socketReady_serves call.isSsl revents con

theorem connectionAccepted_accounted (now : ℤ) (con : TimedCon) :
    (con.connectionAccepted now).Accounted :=
  ⟨fun hr => absurd hr (by simp [connectionAccepted]), fun _ => rfl⟩

/-! ## Connections that are closed without a reset -/

theorem base_connect_requestReset (hcon : con.state = .connect)
    (h : connectionHandleBase bits now .connect calls con = some con') :
    con'.requestReset = con.requestReset := by
  cases calls with
  | nil => simp [connectionHandleBase] at h
  | cons call calls =>
    obtain ⟨r, hr, hrun⟩ := base_cons h
    rw [handleState, hcon] at hr
    obtain rfl := Option.some.inj hr
    rcases hrun with ⟨hagain, -⟩ | ⟨-, rfl⟩
    · exact absurd hagain (by simp [connectionHandleConnectState, hcon])
    · exact fdeventSet_requestReset bits now con.connectionHandleConnectState

theorem base_close_requestReset (hcon : con.state = .close)
    (h : connectionHandleBase bits now .close calls con = some con') :
    con'.requestReset = con.requestReset := by
  cases calls with
  | nil => simp [connectionHandleBase] at h
  | cons call calls =>
    obtain ⟨r, hr, hrun⟩ := base_cons h
    rw [handleState, hcon] at hr
    obtain rfl := Option.some.inj hr
    have hclosed : (connectionHandleCloseState now call con).requestReset = con.requestReset ∧
        ((connectionHandleCloseState now call con).state = .close ∨
          (connectionHandleCloseState now call con).state = .connect) := by
      have heos := readForEos_serves now call.eos con
      have hstate : (connectionReadForEos now call.eos con).state = .close := by
        unfold connectionReadForEos
        split_ifs <;> exact hcon
      unfold connectionHandleCloseState
      dsimp only
      split_ifs
      · exact ⟨heos.requestReset, .inr rfl⟩
      · exact ⟨heos.requestReset, .inl hstate⟩
    rcases hrun with ⟨hagain, hbase⟩ | ⟨-, rfl⟩
    · rcases hclosed.2 with hclose | hconnect
      · exact absurd hagain (by simp [hclose])
      · dsimp only at hbase
        rw [hconnect] at hbase
        exact (base_connect_requestReset hconnect hbase).trans hclosed.1
    · exact (fdeventSet_requestReset bits now _).trans hclosed.1

/-- The check of a graceful shutdown gives a connection back as it is, when it did not shut down its
side lately. -/
theorem serverCheck_graceful (hover : httpLingerTimeout < now - con.closeTimeoutTs)
    (h : con.serverCheck bits true now calls = some con') :
    con'.released = true ∧ con'.requestReset = con.requestReset := by
  obtain ⟨con₁, heq, hclose, hts, -, hreset⟩ := checkTimeouts_graceful bits now con
  unfold serverCheck connectionStateMachine connectionGetOstate at h
  dsimp only at h
  rw [heq, if_pos rfl] at h
  dsimp only at h
  rw [if_neg (by rw [hclose]; decide), hclose] at h
  rw [← hts] at hover
  exact ⟨((base_close hclose h).2 hover).2.2, (base_close_requestReset hclose h).trans hreset⟩

end TimedCon

namespace ServedCon

variable {bits : TpoolBits} {s : ServedCon}

theorem maintPass_accounted {srvShutdown : Bool} (hs : s.con.Accounted)
    (hin : s.con.released = false) (h : s.maintPass bits srvShutdown now calls = some con) :
    con.Accounted := by
  unfold maintPass at h
  split_ifs at h with hpass
  · unfold TimedCon.serverGracefulShutdownMaint at h
    have hmaint := hs.of_serves hin (TimedCon.gracefulMaint_serves now s.con)
    dsimp only at h
    split_ifs at h with hrun
    · exact TimedCon.stateMachine_accounted hmaint h
    · obtain rfl := Option.some.inj h
      exact hmaint
  · obtain rfl := Option.some.inj h
    exact hs

/-- The check of a connection, which is one with its last request reset in a graceful shutdown. -/
theorem checkPass_accounted {graceful : Bool} (hcon : con.Accounted)
    (hreset : con.released = false → graceful = true → con.requestReset = true)
    (h : checkPass bits graceful now calls con = some con') : con'.Accounted := by
  unfold checkPass at h
  split_ifs at h with hreleased
  · obtain rfl := Option.some.inj h
    exact hcon
  · have hin : con.released = false := Bool.eq_false_iff.mpr hreleased
    have hcheck : (con.checkTimeouts bits graceful now).2.Accounted := by
      cases graceful with
      | false => exact hcon.of_serves hin (TimedCon.checkTimeouts_serves bits now con)
      | true =>
        obtain ⟨con₁, heq, -, -, hreleased₁, hreset₁⟩ := TimedCon.checkTimeouts_graceful bits now con
        rw [heq]
        exact ⟨fun hr => absurd ((hreleased₁.trans hin).symm.trans hr) (by decide),
          fun _ => hreset₁.trans (hreset hin rfl)⟩
    unfold TimedCon.serverCheck at h
    dsimp only at h
    split_ifs at h with hrun
    · exact TimedCon.stateMachine_accounted hcheck h
    · obtain rfl := Option.some.inj h
      exact hcheck

variable {e : ServerEvent}

theorem stepCon_accounted (hs : s.con.Accounted) (hin : s.con.released = false)
    (hreset : s.MeetsReset bits e) (h : s.stepCon bits e = some con) : con.Accounted := by
  cases e with
  | shutdown =>
    obtain rfl := Option.some.inj h
    exact hs
  | second srvShutdown now maint check =>
    obtain ⟨con₁, hmaint, hcheck⟩ := Option.bind_eq_some_iff.mp h
    exact checkPass_accounted (maintPass_accounted hs hin hmaint) (hreset con₁ hmaint) hcheck
  | gracefulState srvShutdown now calls => exact maintPass_accounted hs hin h
  | socket now call calls =>
    exact TimedCon.stateMachine_accounted (hs.of_serves hin (TimedCon.handleRevents_serves ..)) h
  | job now plugins calls =>
    exact TimedCon.stateMachine_accounted (hs.of_serves hin (TimedCon.pluginCalls_serves ..)) h

theorem step_con {s' : ServedCon} (h : s.step bits e = some s') :
    s.con.released = true ∧ s' = s ∨
      s.con.released = false ∧ s.stepCon bits e = some s'.con := by
  unfold step at h
  by_cases hreleased : s.con.released = true
  · rw [if_pos hreleased] at h
    exact .inl ⟨hreleased, (Option.some.inj h).symm⟩
  · rw [if_neg hreleased] at h
    refine .inr ⟨Bool.eq_false_iff.mpr hreleased, ?_⟩
    obtain ⟨con, hcon, rfl⟩ := Option.map_eq_some_iff.mp h
    cases e with
    | shutdown => rfl
    | _ => exact hcon

theorem step_accounted {s' : ServedCon} (hs : s.con.Accounted) (hreset : s.MeetsReset bits e)
    (h : s.step bits e = some s') : s'.con.Accounted := by
  rcases step_con h with ⟨-, rfl⟩ | ⟨hin, hcon⟩
  · exact hs
  · exact stepCon_accounted hs hin hreset hcon

theorem gracefulMaint_spared (now : ℤ) (con : TimedCon) :
    s.Spared bits now con (con.gracefulMaint now).2 := by
  intro hserved hended
  rw [TimedCon.gracefulMaint_responding hserved.2.2] at hended
  exact absurd hended hserved.2.2.not_ended

/-- The passes of an event cut no response exactly when the check meets none. -/
theorem cutsNothing_iff (s : ServedCon) (e : ServerEvent) :
    s.CutsNothing bits e ↔ s.MeetsNoResponse bits e := by
  cases e with
  | second srvShutdown now maint check =>
    unfold CutsNothing MeetsNoResponse
    dsimp only
    rw [and_iff_right fun _ => gracefulMaint_spared now s.con]
    refine forall₃_congr fun con _ _ => ?_
    constructor
    · intro hspared hserved
      obtain ⟨con₁, heq, hclose, -⟩ := TimedCon.checkTimeouts_graceful bits now con
      rw [hserved.1, heq] at hspared
      exact hspared hserved (.inl hclose)
    · exact fun h hserved _ => h hserved
  | gracefulState srvShutdown now calls =>
    exact iff_of_true (fun _ => gracefulMaint_spared now s.con) trivial
  | _ => exact Iff.rfl

/-! ## The claim about graceful shutdowns -/

/-- In a run from the accept on no pass ends a response exactly when no new second meets one that is
still sent; and when the new seconds of the shutdown meet only connections whose last request was
reset, then so was that of a connection that is given back. A new second that meets another
connection gives it back without, unless it shut down its side lately. -/
theorem gracefulRun (bits : TpoolBits) (now : ℤ) (con : TimedCon) (events : List ServerEvent) :
    (PartialRuns.Throughout (step bits) (CutsNothing bits) events (accepted now con) ↔
      PartialRuns.Throughout (step bits) (MeetsNoResponse bits) events (accepted now con)) ∧
    (PartialRuns.Throughout (step bits) (MeetsReset bits) events (accepted now con) →
      ∀ pre post s, events = pre ++ post → PartialRuns.run (step bits) pre (accepted now con) = some s →
        s.con.released = true → s.con.requestReset = true) ∧
    ∀ s s' srvShutdown time maint check met,
      PartialRuns.run (step bits) events (accepted now con) = some s →
        s.gracefulShutdown = true → s.con.released = false →
        s.maintPass bits srvShutdown time maint = some met → met.released = false →
        met.requestReset = false → TimedCon.httpLingerTimeout < time - met.closeTimeoutTs →
        s.step bits (.second srvShutdown time maint check) = some s' →
          s'.con.released = true ∧ s'.con.requestReset = false := by
  refine ⟨PartialRuns.throughout_congr cutsNothing_iff events _, ?_, ?_⟩
  · rintro hreset pre post s rfl hrun hreleased
    have haccounted : s.con.Accounted :=
      hreset.left.invariant (fun _ _ _ => step_accounted) (TimedCon.connectionAccepted_accounted now con)
        hrun
    refine haccounted.reset fun huse => huse.2 ?_
    exact haccounted.connect_of_released hreleased
  · intro s s' srvShutdown time maint check met _ hgraceful hin hmaint hmet hunreset hover hstep
    rcases step_con hstep with ⟨hreleased, -⟩ | ⟨-, hcon⟩
    · exact absurd (hin.symm.trans hreleased) (by decide)
    · unfold stepCon at hcon
      dsimp only at hcon
      rw [hmaint, hgraceful, Option.bind_some, checkPass, if_neg (by simp [hmet])] at hcon
      obtain ⟨hreleased, hsame⟩ := TimedCon.serverCheck_graceful hover hcon
      exact ⟨hreleased, hsame.trans hunreset⟩

/-- A connection that is accepted. -/
def newCon : TimedCon :=
  { TimedCon.blockedCon with
    isReadable := 1
    isWritable := 1
    requestCount := 0
    writeRequestTs := 0 }

/-- The client closes the connection, and what it sent is read. -/
def hangup : TimedCon.SocketCall :=
  ⟨{fdeventHup}, false, TimedCon.quietCall, ⟨.done, 0, false⟩, false, false, false⟩

/-- The events up to the shutdown, for a client that goes away without a request. -/
def idleEvents : List ServerEvent :=
  [.job 100 [] [TimedCon.quietCall, TimedCon.quietCall],
    .socket 100 hangup [TimedCon.quietCall, TimedCon.quietCall], .shutdown]

/-- The new second that closes the connection. -/
def lateSecond : ServerEvent := .second false 110 [TimedCon.quietCall, TimedCon.quietCall] []

/-- A client that goes away: the connection lingers until the new second of the shutdown. -/
theorem gracefulRun_idle :
    (PartialRuns.run (step TimedCon.agreeingBits) (idleEvents ++ [lateSecond])
        (accepted 100 newCon)).map (fun s => s.con.released) = some true ∧
      ∀ s, PartialRuns.run (step TimedCon.agreeingBits) (idleEvents ++ [lateSecond])
        (accepted 100 newCon) = some s → s.con.released = true → s.con.requestReset = true := by
  refine ⟨by decide +kernel, fun s => ?_⟩
  refine (gracefulRun TimedCon.agreeingBits 100 newCon (idleEvents ++ [lateSecond])).2.1 ?_ _ [] s
    (List.append_nil _).symm
  refine ⟨trivial, fun s₁ h₁ => ⟨trivial, fun s₂ h₂ => ⟨trivial, fun s₃ h₃ => ⟨?_, fun _ _ => trivial⟩⟩⟩⟩
  intro met hmet hin
  have hrun : PartialRuns.run (step TimedCon.agreeingBits) idleEvents (accepted 100 newCon) = some s₃ :=
    PartialRuns.run_cons.mpr ⟨s₁, h₁, PartialRuns.run_cons.mpr ⟨s₂, h₂,
      PartialRuns.run_cons.mpr ⟨s₃, h₃, rfl⟩⟩⟩
  have hreleased : (((PartialRuns.run (step TimedCon.agreeingBits) idleEvents
      (accepted 100 newCon)).bind (maintPass TimedCon.agreeingBits false 110
        [TimedCon.quietCall, TimedCon.quietCall])).map (fun con => con.released)) = some true := by
    decide +kernel
  rw [hrun, Option.bind_some, hmet, Option.map_some, hin] at hreleased
  exact absurd hreleased (by decide)

/-- A call in which a request is answered, until the client takes no more. -/
def answerCall : StateCall :=
  { TimedCon.quietCall with
    hook := fun con => { con.toMachineCon with writeQueueEmpty := false, fileFinished := true }
    headerFound := true
    outcome := .respond
    writes := [⟨⟨.more, 100, false⟩, [], false⟩] }

/-- The events up to the shutdown, for a client that takes its response slowly. -/
def slowEvents : List ServerEvent := [.job 100 [] (List.replicate 6 answerCall), .shutdown]

/-- The next second. -/
def nextSecond : ServerEvent := .second false 101 [] [TimedCon.quietCall, TimedCon.quietCall]

/-- The connection of the slow client, when the check meets it. -/
def slowCon : TimedCon :=
  { newCon with
    isReadable := 0
    isWritable := 0
    keepAlive := false
    requestCount := 1
    requestReset := false
    writeRequestTs := 100
    bytesWritten := 1100
    transferred := 2100 }

/-- The slow client behind the shutdown. -/
def slowServed : ServedCon := ⟨{ slowCon with keepAlive := true }, true, some 1, false⟩

/-- A response that is sent to a slow client is cut a second after the shutdown, and its request is
not reset. -/
theorem not_gracefulRun :
    (¬ ∀ (bits : TpoolBits) (now : ℤ) (con : TimedCon) (events : List ServerEvent),
      PartialRuns.Throughout (step bits) (CutsNothing bits) events (accepted now con)) ∧
    ¬ ∀ (bits : TpoolBits) (now : ℤ) (con : TimedCon) (events : List ServerEvent) (s : ServedCon),
      PartialRuns.run (step bits) events (accepted now con) = some s →
        s.con.released = true → s.con.requestReset = true := by
  constructor
  · intro h
    have hrun : (PartialRuns.run (step TimedCon.agreeingBits) slowEvents (accepted 100 newCon)).map
        (fun s => (s, s.maintPass TimedCon.agreeingBits false 101 [])) = some (slowServed, some slowCon) := by
      decide +kernel
    obtain ⟨s, hs, hsame⟩ := Option.map_eq_some_iff.mp hrun
    obtain ⟨rfl, hmaint⟩ := Prod.mk.inj hsame
    have hcuts := PartialRuns.throughout_iff.mp (h TimedCon.agreeingBits 100 newCon _) slowEvents
      nextSecond [] rfl slowServed hs
    have hlimit := hcuts.2 slowCon hmaint rfl ⟨rfl, rfl, by decide⟩ (Or.inl (by decide +kernel))
    rcases hlimit with (hlinger | hread | hwrite) | hclosed
    · exact absurd hlinger.1 (by decide)
    · exact absurd hread.2.1 (by decide)
    · exact absurd hwrite.2 (by decide)
    · exact absurd hclosed (by decide)
  · intro h
    have hrun : (PartialRuns.run (step TimedCon.agreeingBits) (slowEvents ++ [nextSecond])
        (accepted 100 newCon)).map (fun s => (s.con.released, s.con.requestReset)) =
        some (true, false) := by
      decide +kernel
    obtain ⟨s, hs, hsame⟩ := Option.map_eq_some_iff.mp hrun
    simp only [Prod.mk.injEq] at hsame
    have hreset := h _ _ _ _ s hs hsame.1
    rw [hsame.2] at hreset
    exact absurd hreset (by decide)

end ServedCon

end Lighttpd
