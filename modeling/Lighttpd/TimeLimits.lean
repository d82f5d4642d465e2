import Lighttpd.ConnectionMachine

/-!
# Time limits of connections

Once a second `server_main_loop` looks at every connection, and runs the state machine of those
that took too long. `TimedCon.timeLimits` says for which connections this is what the limits ask
for, and for which runs of the state machine the time stamps stay where they are.
-/

namespace Lighttpd

namespace TimedCon

/-- The limit of the time without anything read. -/
def readIdleLimit (con : TimedCon) : ℤ :=
  if con.requestCount = 1 ∨ con.state ≠ .read then con.maxReadIdle else con.keepAliveIdle

/-- The first part of the check: whether the state machine is to run, and the connection. -/
def checkState (bits : TpoolBits) (gracefulShutdown : Bool) (now : ℤ) (con : TimedCon) :
    Bool × TimedCon :=
  if gracefulShutdown then
    if con.state ≠ .close ∨ con.state ≠ .error then (true, { con with state := .close })
    else (false, con)
  else if con.state = .close then (-con.closeTimeoutTs > httpLingerTimeout, con)
  else if fdeventIn ∈ connectionFdeventGetInterest bits con.eventflag then
    if now - con.readIdleTs > con.readIdleLimit then (true, { con with state := .error })
    else (false, con)
  else (false, con)

/-- The limit for writing. -/
def checkWrite (now : ℤ) (r : Bool × TimedCon) : Bool × TimedCon :=
  if r.2.state = .write ∧ r.2.writeRequestTs ≠ 0 ∧ now - r.2.writeRequestTs > r.2.maxWriteIdle then
    (true, { r.2 with state := .error })
  else r

/-- `t_diff`. -/
def timeDiff (now : ℤ) (con : TimedCon) : ℤ :=
  let diff := (now - con.connectionStart).bmod (2 ^ 32)
  if diff = 0 then 1 else diff

/-- The connection may write again. -/
def rateLifted (now : ℤ) (con : TimedCon) : Bool :=
  con.trafficLimitReached ∧
    (con.kbytesPerSecond = 0 ∨
      (con.bytesWritten : ℤ).tdiv (con.timeDiff now) < con.kbytesPerSecond * 1024)

/-- The rate limit. -/
def checkRate (now : ℤ) (r : Bool × TimedCon) : Bool × TimedCon :=
  if r.2.rateLifted now then (true, { r.2 with trafficLimitReached := false }) else r

/-- The check of a connection, up to the call of the state machine. -/
def checkTimeouts (bits : TpoolBits) (gracefulShutdown : Bool) (now : ℤ) (con : TimedCon) :
    Bool × TimedCon :=
  checkRate now (checkWrite now (con.checkState bits gracefulShutdown now))

/-- The check of a connection. -/
def serverCheck (bits : TpoolBits) (gracefulShutdown : Bool) (now : ℤ) (calls : List StateCall)
    (con : TimedCon) : Option TimedCon :=
  let r := con.checkTimeouts bits gracefulShutdown now
  if r.1 then connectionStateMachine bits now calls r.2 else some r.2

/-- A closed side lingers for too long. -/
def LingerExceeded (now : ℤ) (con : TimedCon) : Prop :=
  con.state = .close ∧ httpLingerTimeout < now - con.closeTimeoutTs

/-- Nothing was read for too long, although the events are waited for. -/
def ReadExceeded (bits : TpoolBits) (now : ℤ) (con : TimedCon) : Prop :=
  con.state ≠ .close ∧ bits.read ∈ con.eventflag ∧ con.readIdleLimit < now - con.readIdleTs

/-- Nothing was written for too long. -/
def WriteExceeded (now : ℤ) (con : TimedCon) : Prop :=
  con.state = .write ∧ con.maxWriteIdle < now - con.writeRequestTs

/-- Some limit is exceeded. -/
def LimitExceeded (bits : TpoolBits) (now : ℤ) (con : TimedCon) : Prop :=
  con.LingerExceeded now ∨ con.ReadExceeded bits now ∨ con.WriteExceeded now

/-- `connection_fdevent_get_interest` is right about reading. -/
def ReadInterestSeen (bits : TpoolBits) (con : TimedCon) : Prop :=
  fdeventIn ∈ connectionFdeventGetInterest bits con.eventflag ↔ bits.read ∈ con.eventflag

/-- The check sees the limits as they are. -/
def LimitsSeen (bits : TpoolBits) (now : ℤ) (con : TimedCon) : Prop :=
  if con.state = .close then
    httpLingerTimeout < -con.closeTimeoutTs ↔ httpLingerTimeout < now - con.closeTimeoutTs
  else if con.state = .write ∧ con.maxWriteIdle < now - con.writeRequestTs then
    con.writeRequestTs ≠ 0 ∨
      fdeventIn ∈ connectionFdeventGetInterest bits con.eventflag ∧
        con.readIdleLimit < now - con.readIdleTs
  else con.readIdleLimit < now - con.readIdleTs → con.ReadInterestSeen bits

/-- The connection is closed. -/
def Closed (con : TimedCon) : Prop := con.state = .connect ∧ con.fd = false ∧ con.released = true

/-- The connection is closed, or is shut down and lingers. -/
def ShutDown (con : TimedCon) : Prop := con.state = .close ∨ con.Closed

/-- The check runs the state machine for what its first two parts find, and when the rate limit is
lifted. -/
theorem checkTimeouts_run (bits : TpoolBits) (now : ℤ) (con : TimedCon) :
    (con.checkTimeouts bits false now).1 = true ↔
      (con.state = .close ∧ httpLingerTimeout < -con.closeTimeoutTs) ∨
      (con.state ≠ .close ∧ fdeventIn ∈ connectionFdeventGetInterest bits con.eventflag ∧
        con.readIdleLimit < now - con.readIdleTs) ∨
      (con.state = .write ∧ con.writeRequestTs ≠ 0 ∧ con.maxWriteIdle < now - con.writeRequestTs) ∨
      con.rateLifted now := by
  have hrate : ∀ r : Bool × TimedCon, (checkRate now r).1 = true ↔ r.1 = true ∨ r.2.rateLifted now := by
    intro r
    unfold checkRate
    split_ifs with h
    · simp [h]
    · simp [h]
  have hwrite : ∀ r : Bool × TimedCon, (checkWrite now r).1 = true ↔
      r.1 = true ∨ r.2.state = .write ∧ r.2.writeRequestTs ≠ 0 ∧
        r.2.maxWriteIdle < now - r.2.writeRequestTs := by
    intro r
    unfold checkWrite
    split_ifs with h
    · simp [h.1, h.2.1, show (r.2.maxWriteIdle : ℤ) < now - r.2.writeRequestTs from h.2.2]
    · exact ⟨.inl, fun hr => hr.elim id fun hw => absurd hw h⟩
  have hlifted : ∀ r : Bool × TimedCon,
      (checkWrite now r).2.rateLifted now = r.2.rateLifted now := by
    intro r
    unfold checkWrite
    split_ifs <;> rfl
  rw [checkTimeouts, hrate, hwrite, hlifted]
  unfold checkState
  rw [if_neg Bool.false_ne_true]
  by_cases hclose : con.state = .close
  · simp [hclose]
  · rw [if_neg hclose]
    by_cases hin : fdeventIn ∈ connectionFdeventGetInterest bits con.eventflag
    · rw [if_pos hin]
      by_cases hover : now - con.readIdleTs > con.readIdleLimit
      · have hover' : con.readIdleLimit < now - con.readIdleTs := hover
        simp [hclose, hin, hover']
      · have hover' : ¬ con.readIdleLimit < now - con.readIdleTs := hover
        rw [if_neg hover]
        simp [hclose, hover']
    · rw [if_neg hin]
      simp [hclose, hin]

/-- The state machine runs for the exceeded limits exactly when the check sees them. -/
theorem checkTimeouts_iff (bits : TpoolBits) (now : ℤ) (con : TimedCon) :
    ((con.checkTimeouts bits false now).1 = true ↔
        con.LimitExceeded bits now ∨ con.rateLifted now) ↔
      con.rateLifted now ∨ con.LimitsSeen bits now := by
  rw [checkTimeouts_run]
  unfold LimitExceeded LingerExceeded ReadExceeded WriteExceeded LimitsSeen ReadInterestSeen
  by_cases hrate : con.rateLifted now
  · simp [hrate]
  by_cases hclose : con.state = .close
  · simp [hrate, hclose]
  · rw [if_neg hclose]
    by_cases hwrite : con.state = .write ∧ con.maxWriteIdle < now - con.writeRequestTs
    · rw [if_pos hwrite]
      simp [hrate, hwrite, or_comm]
    · have hnone : ¬ (con.state = .write ∧ con.writeRequestTs ≠ 0 ∧
          con.maxWriteIdle < now - con.writeRequestTs) := fun h => hwrite ⟨h.1, h.2.2⟩
      rw [if_neg hwrite]
      simp only [hrate, hclose, hwrite, hnone, false_and, not_false_eq_true, true_and, false_or,
        or_false, ne_eq, Bool.false_eq_true]
      exact and_congr_left_iff

/-- Whether the check sees a limit that is not the one of a closed side. -/
def LimitFound (bits : TpoolBits) (now : ℤ) (con : TimedCon) : Prop :=
  fdeventIn ∈ connectionFdeventGetInterest bits con.eventflag ∧
      con.readIdleLimit < now - con.readIdleTs ∨
    con.state = .write ∧ con.writeRequestTs ≠ 0 ∧ con.maxWriteIdle < now - con.writeRequestTs

theorem checkRate_same (now : ℤ) (r : Bool × TimedCon) :
    (checkRate now r).2.state = r.2.state ∧
      (checkRate now r).2.closeTimeoutTs = r.2.closeTimeoutTs := by
  unfold checkRate
  split_ifs <;> exact ⟨rfl, rfl⟩

variable {now : ℤ} {bits : TpoolBits} {con con' : TimedCon} {calls : List StateCall}
  {r : Bool × TimedCon} {call : StateCall}

theorem checkWrite_of_ne (h : r.2.state ≠ .write) : checkWrite now r = r := if_neg fun hw => h hw.1

theorem checkTimeouts_close {bits : TpoolBits} {now : ℤ} {con : TimedCon}
    (h : con.state = .close) : (con.checkTimeouts bits false now).2.state = .close ∧
      (con.checkTimeouts bits false now).2.closeTimeoutTs = con.closeTimeoutTs := by
  have hstate : con.checkState bits false now =
      (decide (-con.closeTimeoutTs > httpLingerTimeout), con) := by
    rw [checkState, if_neg Bool.false_ne_true, if_pos h]
  obtain ⟨hs, ht⟩ := checkRate_same now (checkWrite now (con.checkState bits false now))
  rw [checkTimeouts, hs, ht, hstate, checkWrite_of_ne (by rw [h]; decide)]
  exact ⟨h, rfl⟩

theorem checkTimeouts_error (hclose : con.state ≠ .close) (h : con.LimitFound bits now) :
    (con.checkTimeouts bits false now).2.state = .error := by
  rw [checkTimeouts, (checkRate_same now _).1, checkState, if_neg Bool.false_ne_true, if_neg hclose]
  by_cases hread : fdeventIn ∈ connectionFdeventGetInterest bits con.eventflag ∧
      con.readIdleLimit < now - con.readIdleTs
  · rw [if_pos hread.1, if_pos hread.2, checkWrite_of_ne (by simp)]
  · have hsame : (if fdeventIn ∈ connectionFdeventGetInterest bits con.eventflag then
        if now - con.readIdleTs > con.readIdleLimit then (true, { con with state := .error })
        else (false, con)
      else (false, con)) = (false, con) := by
      split_ifs with hin hover
      · exact absurd ⟨hin, hover⟩ hread
      · rfl
      · rfl
    rw [hsame, checkWrite, if_pos (h.resolve_left hread)]

/-- A limit that is exceeded and that the check sees as it is. -/
theorem limitFound (hclose : con.state ≠ .close) (hseen : con.LimitsSeen bits now)
    (h : con.LimitExceeded bits now) : con.LimitFound bits now := by
  rw [LimitsSeen, if_neg hclose] at hseen
  by_cases hwrite : con.state = .write ∧ con.maxWriteIdle < now - con.writeRequestTs
  · rw [if_pos hwrite] at hseen
    rcases hseen with hts | hread
    · exact .inr ⟨hwrite.1, hts, hwrite.2⟩
    · exact .inl hread
  · rw [if_neg hwrite] at hseen
    rcases h with hlinger | hread | hwrite'
    · exact absurd hlinger.1 hclose
    · exact .inl ⟨(hseen hread.2.2).mpr hread.2.1, hread.2.2⟩
    · exact absurd hwrite' hwrite

theorem fdeventSet_same (bits : TpoolBits) (now : ℤ) (con : TimedCon) :
    (connectionHandleFdeventSet bits now con).state = con.state ∧
      (connectionHandleFdeventSet bits now con).fd = con.fd ∧
      (connectionHandleFdeventSet bits now con).released = con.released := by
  unfold connectionHandleFdeventSet
  dsimp only
  split_ifs <;> exact ⟨rfl, rfl, rfl⟩

theorem base_cons {ostate : ConnectionState}
    (h : connectionHandleBase bits now ostate (call :: calls) con = some con') :
    ∃ r, handleState now call con = some r ∧
      ((r.1 = true ∨ ostate ≠ r.2.state) ∧
          connectionHandleBase bits now r.2.state calls r.2 = some con' ∨
        ¬ (r.1 = true ∨ ostate ≠ r.2.state) ∧
          con' = connectionHandleFdeventSet bits now r.2) := by
  rw [connectionHandleBase] at h
  obtain ⟨r, hr, h⟩ := Option.bind_eq_some_iff.mp h
  refine ⟨r, hr, ?_⟩
  split_ifs at h with hagain
  · exact .inl ⟨hagain, h⟩
  · exact .inr ⟨hagain, (Option.some.inj h).symm⟩

theorem base_closed (hcon : con.Closed)
    (h : connectionHandleBase bits now .connect calls con = some con') : con'.Closed := by
  cases calls with
  | nil => simp [connectionHandleBase] at h
  | cons call calls =>
    obtain ⟨r, hr, hrun⟩ := base_cons h
    rw [handleState, hcon.1] at hr
    obtain rfl := Option.some.inj hr
    have hstate : (connectionHandleConnectState con).state = .connect := hcon.1
    rcases hrun with ⟨hagain, -⟩ | ⟨-, rfl⟩
    · simp [hstate] at hagain
    · obtain ⟨hs, hf, hreleased⟩ := fdeventSet_same bits now (connectionHandleConnectState con)
      exact ⟨hs.trans hstate, hf.trans hcon.2.1, hreleased.trans hcon.2.2⟩

/-- A closed side is closed when it lingers for too long, and lingers on otherwise. -/
theorem base_close (hcon : con.state = .close)
    (h : connectionHandleBase bits now .close calls con = some con') :
    con'.ShutDown ∧ (httpLingerTimeout < now - con.closeTimeoutTs → con'.Closed) := by
  cases calls with
  | nil => simp [connectionHandleBase] at h
  | cons call calls =>
    obtain ⟨r, hr, hrun⟩ := base_cons h
    rw [handleState, hcon] at hr
    obtain rfl := Option.some.inj hr
    have hclosed : (connectionClose (connectionReadForEos now call.eos con)).Closed :=
      ⟨rfl, rfl, rfl⟩
    have heos : (connectionReadForEos now call.eos con).state = .close ∧
        (httpLingerTimeout < now - con.closeTimeoutTs →
          httpLingerTimeout < now - (connectionReadForEos now call.eos con).closeTimeoutTs) := by
      unfold connectionReadForEos httpLingerTimeout
      split_ifs
      · exact ⟨hcon, fun _ => by dsimp only; omega⟩
      · exact ⟨hcon, id⟩
    unfold connectionHandleCloseState at hrun
    dsimp only at hrun
    by_cases hover : now - (connectionReadForEos now call.eos con).closeTimeoutTs >
        httpLingerTimeout
    · rw [if_pos hover] at hrun
      rcases hrun with ⟨-, hbase⟩ | ⟨hagain, -⟩
      · have hend := base_closed hclosed hbase
        exact ⟨.inr hend, fun _ => hend⟩
      · exact absurd (.inr (by simp [hclosed.1])) hagain
    · rw [if_neg hover] at hrun
      rcases hrun with ⟨hagain, -⟩ | ⟨-, rfl⟩
      · simp [heos.1] at hagain
      · refine ⟨.inl ((fdeventSet_same bits now _).1.trans heos.1), fun hlate => ?_⟩
        exact absurd (heos.2 hlate) hover

theorem base_error (hcon : con.state = .error)
    (h : connectionHandleBase bits now .error calls con = some con') : con'.ShutDown := by
  cases calls with
  | nil => simp [connectionHandleBase] at h
  | cons call calls =>
    obtain ⟨r, hr, hrun⟩ := base_cons h
    rw [handleState, hcon] at hr
    obtain rfl := Option.some.inj hr
    have hkeep : (con.keepAlive && call.bodyRead && decide (con.state ≠ .error)) = false := by
      simp [hcon]
    unfold connectionHandleResponseEndState at hrun
    dsimp only at hrun
    rw [hkeep, if_neg Bool.false_ne_true] at hrun
    generalize hshut : connectionHandleShutdown now call { con with keepAlive := false } = con₁
      at hrun
    have hend : con₁.state = .close ∨ con₁.Closed := by
      subst hshut
      unfold connectionHandleShutdown
      dsimp only
      split_ifs
      · exact .inl rfl
      · exact .inr ⟨rfl, rfl, rfl⟩
    rcases hrun with ⟨-, hbase⟩ | ⟨hagain, -⟩
    · rcases hend with hs | hclosed
      · rw [hs] at hbase
        exact (base_close hs hbase).1
      · rw [hclosed.1] at hbase
        exact .inr (base_closed hclosed hbase)
    · rcases hend with hs | hclosed
      · exact absurd (.inr (by rw [hs]; decide)) hagain
      · exact absurd (.inr (by rw [hclosed.1]; decide)) hagain

/-- Behind the check of a connection with an exceeded limit that the check sees. -/
theorem serverCheck_ends (hseen : con.LimitsSeen bits now) (hlimit : con.LimitExceeded bits now)
    (h : con.serverCheck bits false now calls = some con') :
    con'.ShutDown ∧ (con.state = .close → con'.Closed) := by
  have hrun : (con.checkTimeouts bits false now).1 = true :=
    ((checkTimeouts_iff bits now con).mpr (.inr hseen)).mpr (.inl hlimit)
  unfold serverCheck at h
  dsimp only at h
  rw [if_pos hrun, connectionStateMachine] at h
  by_cases hclose : con.state = .close
  · obtain ⟨hs, ht⟩ := @checkTimeouts_close bits now con hclose
    rw [connectionGetOstate, hs, if_neg (by decide)] at h
    obtain ⟨hend, hclosed⟩ := base_close hs h
    refine ⟨hend, fun _ => hclosed ?_⟩
    rw [ht]
    rcases hlimit with hlinger | hread | hwrite
    · exact hlinger.2
    · exact absurd hclose hread.1
    · exact absurd (hclose.symm.trans hwrite.1) (by decide)
  · have hs := checkTimeouts_error hclose (limitFound hclose hseen hlimit)
    rw [connectionGetOstate, hs, if_neg (by decide)] at h
    exact ⟨base_error hs h, fun hc => absurd hc hclose⟩

/-! ## The time stamps -/

/-- `read_idle_ts` or `write_request_ts`. -/
inductive IdleStamp
  | read
  | write
  deriving DecidableEq

/-- The value of a time stamp. -/
def stamp (con : TimedCon) : IdleStamp → ℤ
  | .read => con.readIdleTs
  | .write => con.writeRequestTs

/-- The event whose registration sets the time stamp. -/
def IdleStamp.event : IdleStamp → ℕ
  | .read => fdeventIn
  | .write => fdeventOut

/-- No plugin reads. -/
def pluginsIdle (s : IdleStamp) (now : ℤ) : List PluginCall → TimedCon → Bool
  | [], _ => true
  | call :: calls, con =>
    (match call with
      | .hook _ => true
      | .readPost _ => s = .write ∨ con.isReadable = 0) &&
    pluginsIdle s now calls (pluginCall now con call)

/-- The turns of `connection_handle_write_state` neither write nor read. -/
def writesIdle (s : IdleStamp) (now : ℤ) : List WriteTurn → TimedCon → Bool
  | [], _ => true
  | turn :: turns, con =>
    let again (con : TimedCon) : Bool :=
      (if ¬ con.direct ∧ ¬ con.fileFinished then pluginsIdle s now turn.subrequest con else true) &&
        let con := writeSubrequest now turn con
        if con.state = .write ∧ (if ¬ con.writeQueueEmpty then con.isWritable ≠ 0
            else con.fileFinished) then
          writesIdle s now turns con
        else true
    if ¬ con.writeQueueEmpty then
      if con.isWritable ≠ 0 then
        let written := connectionHandleWrite now turn.write con
        (s = .read ∨ turn.write.ret = .error) &&
          if written.state ≠ .write then true else again written
      else again con
    else if con.fileFinished then true
    else again con

/-- The handler of the state leaves the time stamp alone: it does not start a request, does not
read a readable connection, and writes only with an error. -/
def stepIdle (s : IdleStamp) (now : ℤ) (call : StateCall) (con : TimedCon) : Bool :=
  match con.state with
  | .requestStart => s = .write
  | .read => s = .write ∨ con.isReadable = 0
  | .readPost | .handleRequest => pluginsIdle s now call.subrequest con
  | .write => writesIdle s now call.writes con
  | _ => true

/-- `connection_handle_fdevent_set` does not take the interest for a new one. -/
def setIdle (s : IdleStamp) (bits : TpoolBits) (con : TimedCon) : Bool :=
  let events := connectionFdeventGetInterest bits con.eventflag
  ¬ con.fd ∨ wantedEvents con events = events ∨ s.event ∉ wantedEvents con events ∨
    s.event ∈ events

/-- All of a run of the state machine leaves the time stamp alone. -/
def runIdle (s : IdleStamp) (bits : TpoolBits) (now : ℤ) :
    ConnectionState → List StateCall → TimedCon → Bool
  | _, [], _ => true
  | ostate, call :: calls, con =>
    stepIdle s now call con &&
      match handleState now call con with
      | some r =>
        if r.1 ∨ ostate ≠ r.2.state then runIdle s bits now r.2.state calls r.2
        else setIdle s bits r.2
      | none => true

/-- The time stamp is kept, or is the current time. -/
def Stamped (s : IdleStamp) (now : ℤ) (idle : Bool) (con con' : TimedCon) : Prop :=
  con'.stamp s = if idle then con.stamp s else now

theorem Stamped.of_eq {s : IdleStamp} (h : con'.stamp s = con.stamp s) :
    Stamped s now true con con' := h

theorem Stamped.trans {s : IdleStamp} {now : ℤ} {i j : Bool} {con₁ con₂ con₃ : TimedCon}
    (h : Stamped s now i con₁ con₂) (h' : Stamped s now j con₂ con₃) :
    Stamped s now (i && j) con₁ con₃ := by
  unfold Stamped at *
  rw [h', h]
  cases i <;> cases j <;> rfl

theorem readIfReadable_stamped (s : IdleStamp) (now : ℤ) (read : ReadResult) (con : TimedCon) :
    Stamped s now (s = .write ∨ con.isReadable = 0) con (readIfReadable now read con) := by
  unfold readIfReadable
  cases s with
  | read =>
    by_cases h : con.isReadable = 0
    · simp [Stamped, h]
    · simp [Stamped, h, stamp, networkRead]
  | write =>
    split_ifs <;> simp [Stamped, stamp, networkRead]

theorem readPost_stamped (s : IdleStamp) (now : ℤ) (call : ReadPostCall) (con : TimedCon) :
    Stamped s now (s = .write ∨ con.isReadable = 0) con
      (connectionHandleReadPostState now call con) := by
  have hstamp : (connectionHandleReadPostState now call con).stamp s =
      (readIfReadable now call.read con).stamp s := by
    unfold connectionHandleReadPostState
    dsimp only
    split_ifs <;> cases s <;> rfl
  have h := readIfReadable_stamped s now call.read con
  unfold Stamped at h ⊢
  rw [hstamp, h]

theorem pluginCalls_stamped (s : IdleStamp) (now : ℤ) :
    ∀ (calls : List PluginCall) (con : TimedCon),
      Stamped s now (pluginsIdle s now calls con) con (pluginCalls now calls con)
  | [], con => by simp [Stamped, pluginsIdle, pluginCalls]
  | call :: calls, con => by
    refine Stamped.trans ?_ (pluginCalls_stamped s now calls (pluginCall now con call))
    cases call with
    | hook h => exact .of_eq (by cases s <;> rfl)
    | readPost call => exact readPost_stamped s now call con

theorem writeSubrequest_stamped (s : IdleStamp) (now : ℤ) (turn : WriteTurn) (con : TimedCon) :
    Stamped s now
      (if ¬ con.direct ∧ ¬ con.fileFinished then pluginsIdle s now turn.subrequest con else true)
      con (writeSubrequest now turn con) := by
  unfold writeSubrequest
  split_ifs
  · have h := pluginCalls_stamped s now turn.subrequest con
    unfold Stamped at h ⊢
    rw [← h]
    dsimp only
    cases s <;> rfl
  · exact pluginCalls_stamped s now turn.subrequest con
  · exact .of_eq rfl

theorem handleWrite_stamped (s : IdleStamp) (now : ℤ) (call : QueueWrite) (con : TimedCon) :
    Stamped s now (s = .read ∨ call.ret = .error) con (connectionHandleWrite now call con) := by
  unfold connectionHandleWrite
  cases hret : call.ret <;> cases s <;> simp [Stamped, stamp]

/-- The turns of `connection_handle_write_state`. -/
theorem writeState_stamped (s : IdleStamp) (now : ℤ) :
    ∀ (turns : List WriteTurn) (con con' : TimedCon),
      connectionHandleWriteState now turns con = some con' →
        Stamped s now (writesIdle s now turns con) con con'
  | [], con, con', h => by simp [connectionHandleWriteState] at h
  | turn :: turns, con, con', h => by
    have hagain : ∀ con₁ : TimedCon,
        (if (writeSubrequest now turn con₁).state = .write ∧
            (if ¬ (writeSubrequest now turn con₁).writeQueueEmpty then
              (writeSubrequest now turn con₁).isWritable ≠ 0
            else (writeSubrequest now turn con₁).fileFinished) then
          connectionHandleWriteState now turns (writeSubrequest now turn con₁)
        else some (writeSubrequest now turn con₁)) = some con' →
        Stamped s now
          ((if ¬ con₁.direct ∧ ¬ con₁.fileFinished then pluginsIdle s now turn.subrequest con₁
            else true) &&
            if (writeSubrequest now turn con₁).state = .write ∧
                (if ¬ (writeSubrequest now turn con₁).writeQueueEmpty then
                  (writeSubrequest now turn con₁).isWritable ≠ 0
                else (writeSubrequest now turn con₁).fileFinished) then
              writesIdle s now turns (writeSubrequest now turn con₁)
            else true) con₁ con' := by
      intro con₁ h₁
      refine (writeSubrequest_stamped s now turn con₁).trans ?_
      by_cases hmore : (writeSubrequest now turn con₁).state = .write ∧
          (if ¬ (writeSubrequest now turn con₁).writeQueueEmpty then
            (writeSubrequest now turn con₁).isWritable ≠ 0
          else (writeSubrequest now turn con₁).fileFinished)
      · rw [if_pos hmore] at h₁ ⊢
        exact writeState_stamped s now turns _ con' h₁
      · rw [if_neg hmore] at h₁ ⊢
        obtain rfl := Option.some.inj h₁
        exact .of_eq rfl
    rw [connectionHandleWriteState] at h
    rw [writesIdle]
    dsimp only at h ⊢
    by_cases hempty : ¬ con.writeQueueEmpty
    · rw [if_pos hempty] at h ⊢
      by_cases hwritable : con.isWritable ≠ 0
      · rw [if_pos hwritable] at h ⊢
        refine (handleWrite_stamped s now turn.write con).trans ?_
        by_cases hstate : (connectionHandleWrite now turn.write con).state ≠ .write
        · rw [if_pos hstate] at h ⊢
          obtain rfl := Option.some.inj h
          exact .of_eq rfl
        · rw [if_neg hstate] at h ⊢
          exact hagain _ h
      · rw [if_neg hwritable] at h ⊢
        exact hagain _ h
    · rw [if_neg hempty] at h ⊢
      by_cases hfinished : con.fileFinished
      · rw [if_pos hfinished] at h ⊢
        obtain rfl := Option.some.inj h
        exact .of_eq (by cases s <;> rfl)
      · rw [if_neg hfinished] at h ⊢
        exact hagain _ h

theorem readState_stamped (s : IdleStamp) (now : ℤ) (call : StateCall) (con : TimedCon) :
    Stamped s now (s = .write ∨ con.isReadable = 0) con
      (connectionHandleReadState now call con).2 := by
  have hstamp : (connectionHandleReadState now call con).2.stamp s =
      (readIfReadable now call.read con).stamp s := by
    unfold connectionHandleReadState
    dsimp only
    split_ifs <;> cases s <;> rfl
  have h := readIfReadable_stamped s now call.read con
  unfold Stamped at h ⊢
  rw [hstamp, h]

theorem handleRequest_stamped (s : IdleStamp) (now : ℤ) (call : StateCall) (con : TimedCon) :
    Stamped s now (pluginsIdle s now call.subrequest con) con
      (connectionHandleHandleRequestState now call con).2 := by
  have hstamp : (connectionHandleHandleRequestState now call con).2.stamp s =
      (pluginCalls now call.subrequest con).stamp s := by
    unfold connectionHandleHandleRequestState
    dsimp only
    split <;> cases s <;> rfl
  have h := pluginCalls_stamped s now call.subrequest con
  unfold Stamped at h ⊢
  rw [hstamp, h]

theorem responseEnd_stamp (s : IdleStamp) (now : ℤ) (call : StateCall) (con : TimedCon) :
    (connectionHandleResponseEndState now call con).stamp s = con.stamp s := by
  unfold connectionHandleResponseEndState connectionHandleShutdown
  dsimp only
  split_ifs <;> cases s <;> rfl

theorem closeState_stamp (s : IdleStamp) (now : ℤ) (call : StateCall) (con : TimedCon) :
    (connectionHandleCloseState now call con).stamp s = con.stamp s := by
  unfold connectionHandleCloseState connectionReadForEos
  dsimp only
  split_ifs <;> cases s <;> rfl

theorem handleState_stamped (s : IdleStamp) (h : handleState now call con = some r) :
    Stamped s now (stepIdle s now call con) con r.2 := by
  unfold handleState at h
  unfold stepIdle
  cases hstate : con.state with
  | connect =>
    rw [hstate] at h
    obtain rfl := Option.some.inj h
    exact .of_eq (by cases s <;> rfl)
  | requestStart =>
    rw [hstate] at h
    obtain rfl := Option.some.inj h
    cases s <;> simp [Stamped, stamp, connectionHandleRequestStartState]
  | read =>
    rw [hstate] at h
    obtain rfl := Option.some.inj h
    exact readState_stamped s now call con
  | requestEnd =>
    rw [hstate] at h
    obtain rfl := Option.some.inj h
    exact .of_eq (by cases s <;> rfl)
  | readPost =>
    rw [hstate] at h
    obtain rfl := Option.some.inj h
    exact handleRequest_stamped s now call con
  | handleRequest =>
    rw [hstate] at h
    obtain rfl := Option.some.inj h
    exact handleRequest_stamped s now call con
  | responseStart =>
    rw [hstate] at h
    obtain rfl := Option.some.inj h
    exact .of_eq (by cases s <;> rfl)
  | write =>
    rw [hstate] at h
    obtain ⟨con', hwrite, rfl⟩ := Option.map_eq_some_iff.mp h
    exact writeState_stamped s now call.writes con con' hwrite
  | responseEnd =>
    rw [hstate] at h
    obtain rfl := Option.some.inj h
    exact .of_eq (responseEnd_stamp s now call con)
  | error =>
    rw [hstate] at h
    obtain rfl := Option.some.inj h
    exact .of_eq (responseEnd_stamp s now call con)
  | close =>
    rw [hstate] at h
    obtain rfl := Option.some.inj h
    exact .of_eq (closeState_stamp s now call con)

theorem fdeventSet_stamped (s : IdleStamp) (bits : TpoolBits) (now : ℤ) (con : TimedCon) :
    Stamped s now (setIdle s bits con) con (connectionHandleFdeventSet bits now con) := by
  unfold connectionHandleFdeventSet setIdle
  dsimp only
  by_cases hfd : con.fd
  · rw [if_pos hfd]
    by_cases hsame : wantedEvents con (connectionFdeventGetInterest bits con.eventflag) ≠
        connectionFdeventGetInterest bits con.eventflag
    · rw [if_pos hsame]
      have hne : ¬ wantedEvents con (connectionFdeventGetInterest bits con.eventflag) =
          connectionFdeventGetInterest bits con.eventflag := hsame
      by_cases hnew : s.event ∈ wantedEvents con (connectionFdeventGetInterest bits con.eventflag) ∧
          s.event ∉ connectionFdeventGetInterest bits con.eventflag
      · cases s <;> simp only [IdleStamp.event] at hnew <;> simp [Stamped, stamp, IdleStamp.event,
          hfd, hne, hnew.1, hnew.2]
      · have hidle : s.event ∉ wantedEvents con (connectionFdeventGetInterest bits con.eventflag) ∨
            s.event ∈ connectionFdeventGetInterest bits con.eventflag := by
          rwa [not_and_or, not_not] at hnew
        have htrue : decide (¬ con.fd ∨
            wantedEvents con (connectionFdeventGetInterest bits con.eventflag) =
              connectionFdeventGetInterest bits con.eventflag ∨
            s.event ∉ wantedEvents con (connectionFdeventGetInterest bits con.eventflag) ∨
            s.event ∈ connectionFdeventGetInterest bits con.eventflag) = true :=
          decide_eq_true (.inr (.inr hidle))
        rw [htrue]
        refine .of_eq ?_
        cases s <;> exact if_neg hnew
    · rw [if_neg hsame]
      have heq := not_not.mp hsame
      have htrue : ∀ p q : Prop, ∀ [Decidable p] [Decidable q], decide (¬ con.fd ∨
          wantedEvents con (connectionFdeventGetInterest bits con.eventflag) =
            connectionFdeventGetInterest bits con.eventflag ∨ p ∨ q) = true :=
        fun _ _ _ _ => decide_eq_true (.inr (.inl heq))
      rw [htrue]
      exact .of_eq (by cases s <;> rfl)
  · rw [if_neg hfd]
    have htrue : ∀ p : Prop, ∀ [Decidable p], decide (¬ con.fd ∨ p) = true :=
      fun _ _ => decide_eq_true (.inl hfd)
    rw [htrue]
    exact .of_eq rfl

theorem base_stamped (s : IdleStamp) (bits : TpoolBits) (now : ℤ) :
    ∀ (calls : List StateCall) (ostate : ConnectionState) (con con' : TimedCon),
      connectionHandleBase bits now ostate calls con = some con' →
        Stamped s now (runIdle s bits now ostate calls con) con con'
  | [], ostate, con, con', h => by simp [connectionHandleBase] at h
  | call :: calls, ostate, con, con', h => by
    obtain ⟨r, hr, hrun⟩ := base_cons h
    rw [runIdle, hr]
    refine (handleState_stamped s hr).trans ?_
    dsimp only
    rcases hrun with ⟨hagain, hbase⟩ | ⟨hagain, rfl⟩
    · rw [if_pos hagain]
      exact base_stamped s bits now calls r.2.state r.2 con' hbase
    · rw [if_neg hagain]
      exact fdeventSet_stamped s bits now r.2

/-- No event that was not waited for is waited for now. -/
def NoNewInterest (bits : TpoolBits) (con con' : TimedCon) : Prop :=
  (bits.read ∈ con'.eventflag → bits.read ∈ con.eventflag) ∧
    (bits.write ∈ con'.eventflag → bits.write ∈ con.eventflag)

/-- All of a run of the state machine leaves both time stamps alone, but for setting them to what
they are. -/
def StampsLeft (bits : TpoolBits) (now : ℤ) (calls : List StateCall) (con : TimedCon) : Prop :=
  ∀ s, runIdle s bits now (connectionGetOstate con) calls con ∨ con.stamp s = now

/-- The check runs the state machine for exactly the exceeded limits and the lifted rate limits
that it sees as they are, and then the connection is closed or shut down; and a run without a byte
and without a new event keeps the time stamps when it leaves them alone. -/
theorem timeLimits (bits : TpoolBits) (now : ℤ) (calls : List StateCall) (con : TimedCon) :
    (((con.checkTimeouts bits false now).1 = true ↔
        con.LimitExceeded bits now ∨ con.rateLifted now) ↔
      con.rateLifted now ∨ con.LimitsSeen bits now) ∧
    (con.LimitsSeen bits now → con.LimitExceeded bits now →
      ∀ con', con.serverCheck bits false now calls = some con' →
        con'.ShutDown ∧ (con.state = .close → con'.Closed)) ∧
    ∀ con', connectionStateMachine bits now calls con = some con' →
      con'.transferred = con.transferred → NoNewInterest bits con con' →
        ((con'.readIdleTs = con.readIdleTs ∧ con'.writeRequestTs = con.writeRequestTs) ↔
          StampsLeft bits now calls con) := by
  refine ⟨checkTimeouts_iff bits now con, fun hseen hlimit con' h => serverCheck_ends hseen hlimit h,
    fun con' h _ _ => ?_⟩
  have hstamp : ∀ s, con'.stamp s = con.stamp s ↔
      runIdle s bits now (connectionGetOstate con) calls con ∨ con.stamp s = now := by
    intro s
    have hs := base_stamped s bits now calls (connectionGetOstate con) con con' h
    unfold Stamped at hs
    cases hidle : runIdle s bits now (connectionGetOstate con) calls con with
    | true => simp [hs, hidle]
    | false =>
      rw [hidle] at hs
      simp [hs, eq_comm]
  constructor
  · rintro ⟨hread, hwrite⟩ s
    cases s with
    | read => exact (hstamp .read).mp hread
    | write => exact (hstamp .write).mp hwrite
  · exact fun hleft => ⟨(hstamp .read).mpr (hleft .read), (hstamp .write).mpr (hleft .write)⟩

/-- Bits that agree with those of the `FDEVENT` flags. -/
def agreeingBits : TpoolBits := ⟨fdeventIn, fdeventOut, fdeventHup, by decide, by decide, by decide⟩

/-- A call in which plugins do nothing and the client sends and closes nothing. -/
def quietCall : StateCall where
  hook := TimedCon.toMachineCon
  read := ⟨.ok, 0, 0, true⟩
  headerFound := false
  headerTooLong := false
  hasBody := false
  subrequest := []
  outcome := .wait
  prepared := true
  writes := []
  bodyRead := true
  shutdownDone := true
  eos := false

/-- A connection that waits, with events that are registered, until it may write more. -/
def blockedCon : TimedCon where
  isReadable := 0
  isWritable := 0
  keepAlive := true
  keepAliveIdle := 5
  maxReadIdle := 60
  maxWriteIdle := 360
  kbytesPerSecond := 0
  trafficLimitReached := false
  direct := true
  fileFinished := true
  readQueueEmpty := true
  writeQueueEmpty := false
  pollin := false
  state := .write
  fd := true
  released := false
  eventflag := {fdeventOut}
  requestCount := 1
  readIdleTs := 100
  writeRequestTs := 100
  closeTimeoutTs := 0
  connectionStart := 100
  bytesWritten := 1000
  transferred := 2000
  requestReset := false

/-- A client that takes nothing for too long. -/
theorem timeLimits_blocked :
    (blockedCon.serverCheck agreeingBits false 1000 [quietCall, quietCall]).isSome ∧
      ∀ con', blockedCon.serverCheck agreeingBits false 1000 [quietCall, quietCall] = some con' →
        con'.ShutDown ∧ (blockedCon.state = .close → con'.Closed) :=
  ⟨by decide +kernel, (timeLimits agreeingBits 1000 [quietCall, quietCall] blockedCon).2.1
    (Or.inl (by decide)) (Or.inr (Or.inr ⟨rfl, by decide⟩))⟩

/-- A side that was shut down lingers for as long as the client does. -/
theorem not_timeLimits :
    ¬ ∀ (bits : TpoolBits) (start now : ℤ) (calls : List StateCall) (con con' : TimedCon),
      connectionStateMachine bits start calls con = some con' →
        ((con'.checkTimeouts bits false now).1 = true ↔
          con'.LimitExceeded bits now ∨ con'.rateLifted now) := by
  intro h
  have hrun : (connectionStateMachine agreeingBits 100 [quietCall, quietCall]
      { blockedCon with state := .error }).map
        (fun con => (con.state, con.closeTimeoutTs, (con.checkTimeouts agreeingBits false 1000).1)) =
      some (.close, 100, false) := by
    decide +kernel
  obtain ⟨con', hrun', hcon'⟩ := Option.map_eq_some_iff.mp hrun
  simp only [Prod.mk.injEq] at hcon'
  have hlinger : con'.LingerExceeded 1000 := by
    refine ⟨hcon'.1, ?_⟩
    rw [hcon'.2.1]
    decide
  have hchanged := (h agreeingBits 100 1000 [quietCall, quietCall]
    { blockedCon with state := .error } con' hrun').mpr (Or.inl (Or.inl hlinger))
  rw [hcon'.2.2] at hchanged
  exact absurd hchanged (by decide)

end TimedCon

end Lighttpd
