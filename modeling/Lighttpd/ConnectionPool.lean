import Lighttpd.ReadState

/-!
# Returning a connection to its pool

`connection_close` returns a connection to `connspool` and an event handle to `event_pool`, and
another thread may take the connection out again at once. The code is a list of steps, each a use
of one of the two objects or a release; between any two of them the thread that accepts
connections may run `connection_accepted` on what the pool hands out.
-/

namespace Lighttpd

open CString

/-- The fields of a connection that closing and accepting set. -/
structure PoolCon where
  state : ConnectionState
  readQueue : Bytes
  requestCount : ℕ
  fd : ℤ
  deriving DecidableEq, Repr

/-- One step of the code: a use of the connection, which may change it, a use of the event handle,
the run of the handler for the state the connection is in, or a release of one of the two. -/
inductive PoolStep
  | con (f : PoolCon → PoolCon)
  | ev
  | stateMachine
  | releaseCon
  | releaseEv

/-! ## The code -/

/-- A use of the connection that changes none of its fields here. -/
def useCon : PoolStep := .con id

/-- `connection_set_state`. -/
def connectionSetState (state : ConnectionState) : PoolStep :=
  .con fun con => { con with state := state }

/-- `connection_fdevent_event_del`: the handle leads to the connection and its `event_pool`. -/
def connectionFdeventEventDel : List PoolStep := [.ev, .ev, useCon, .releaseEv]

/-- `connection_fdevent_sched_close_directory`: the descriptor to close is read from the handle. -/
def connectionFdeventSchedCloseDirectory : List PoolStep := connectionFdeventEventDel ++ [.ev]

/-- `connection_del`: the buffers are reset before the release. -/
def connectionDel : List PoolStep := [useCon, .releaseCon]

/-- `connection_close` of a connection with the descriptor `fd`. -/
def connectionClose (fd : ℤ) : List PoolStep :=
  [.con fun con => { con with fd := |con.fd| }, useCon] ++
    (if 0 < fd then useCon :: connectionFdeventEventDel ++ [useCon] else []) ++
    [.con fun con => { con with fd := -1 }, useCon] ++
    connectionDel ++ [connectionSetState .connect]

/-- The rest of `connection_handle_base` behind a handler that closed the connection: the state
changed, so that the state machine is run. -/
def connectionHandleBase : List PoolStep := [useCon, .stateMachine]

/-- `connection_handle_close_state`, when the time to linger is over. -/
def connectionHandleCloseState (fd : ℤ) : List PoolStep := useCon :: connectionClose fd

/-- `connection_handle_shutdown`, when the socket cannot be shut down. -/
def connectionHandleShutdown (fd : ℤ) : List PoolStep := useCon :: connectionClose fd

/-- The paths that return something to a pool. -/
inductive ReleasePath
  | closeState
  | shutdown
  | failedAccept
  | schedClose
  deriving DecidableEq, Repr

/-- The steps of a path, for a connection with the descriptor `fd`. -/
def ReleasePath.steps (fd : ℤ) : ReleasePath → List PoolStep
  | .closeState => connectionHandleCloseState fd ++ connectionHandleBase
  | .shutdown => connectionHandleShutdown fd ++ connectionHandleBase
  | .failedAccept => connectionClose fd
  | .schedClose => connectionFdeventSchedCloseDirectory

/-! ## The pools -/

/-- A connection and an event handle, whether they are in their pools, whether the connection was
handed out again, and whether a step used an object that was in its pool. -/
structure Pools where
  con : PoolCon
  conFree : Bool
  evFree : Bool
  handedOut : Option PoolCon
  usedFree : Bool

/-- `connection_handle_connect_state`. -/
def connectionHandleConnectState (con : PoolCon) : PoolCon :=
  { con with readQueue := [], requestCount := 0 }

/-- What the handler of a state does to the connection. Only the one of `CONNECT` is needed; a
connection that is handed out by then is in `REQUEST_START`. -/
def runHandler (con : PoolCon) : PoolCon :=
  match con.state with
  | .connect => connectionHandleConnectState con
  | .requestStart => { con with requestCount := con.requestCount + 1, state := .read }
  | _ => con

/-- One step. -/
def Pools.step (p : Pools) : PoolStep → Pools
  | .con f => { p with con := f p.con, usedFree := p.usedFree || p.conFree }
  | .ev => { p with usedFree := p.usedFree || p.evFree }
  | .stateMachine => { p with con := runHandler p.con, usedFree := p.usedFree || p.conFree }
  | .releaseCon => { p with conFree := true }
  | .releaseEv => { p with evFree := true }

/-- `connections_get_new_connection` and `connection_accepted` in another thread, when the
connection is in its pool: what the pool hands out is recorded. -/
def connectionAccepted (fd : ℤ) (p : Pools) : Pools :=
  if p.conFree then
    { p with
      con := { p.con with fd := fd, state := .requestStart }
      conFree := false
      handedOut := some p.con }
  else p

/-- What the other thread does before a step: it accepts a connection, or nothing. -/
def Pools.accept (p : Pools) : Option ℤ → Pools
  | some fd => connectionAccepted fd p
  | none => p

/-- The steps from the `n`-th on, where the other thread accepts connections as `accepts` says. -/
def poolRun (accepts : ℕ → Option ℤ) : List PoolStep → ℕ → Pools → Pools
  | [], _, p => p
  | s :: steps, n, p => poolRun accepts steps (n + 1) ((p.accept (accepts n)).step s)

/-- The pools at the start of a path. -/
def poolStart (con : PoolCon) : Pools := ⟨con, false, false, none, false⟩

/-- No step used an object that was in its pool, and a connection that was handed out had nothing of
the one before and is still in `REQUEST_START`. -/
structure CleanRelease (p : Pools) : Prop where
  untouched : p.usedFree = false
  fresh : ∀ con ∈ p.handedOut, con.readQueue = [] ∧ con.requestCount = 0
  kept : p.handedOut.isSome → p.con.state = .requestStart

/-! ## Every path uses what it returned -/

theorem poolRun_append (accepts : ℕ → Option ℤ) :
    ∀ (steps steps' : List PoolStep) (n : ℕ) (p : Pools),
      poolRun accepts (steps ++ steps') n p =
        poolRun accepts steps' (n + steps.length) (poolRun accepts steps n p)
  | [], steps', n, p => rfl
  | s :: steps, steps', n, p => by
    rw [List.cons_append, poolRun, poolRun_append accepts steps steps' (n + 1), List.length_cons,
      poolRun, Nat.add_assoc, Nat.add_comm 1]

theorem usedFree_poolRun :
    ∀ (steps : List PoolStep) (n : ℕ) {p : Pools}, p.usedFree = true →
      (poolRun (fun _ => none) steps n p).usedFree = true
  | [], _, _, h => h
  | s :: steps, n, p, h => by
    refine usedFree_poolRun steps (n + 1) ?_
    cases s <;> simp [Pools.accept, Pools.step, h]

/-- A use of what the step before returned. -/
inductive UsesReturned : PoolStep → PoolStep → Prop
  | con (f : PoolCon → PoolCon) : UsesReturned .releaseCon (.con f)
  | ev : UsesReturned .releaseEv .ev

/-- When no other thread takes it out of the pool, a returned object is used in the pool. -/
theorem usedFree_of_usesReturned {r u : PoolStep} (h : UsesReturned r u)
    (steps steps' : List PoolStep) (p : Pools) :
    (poolRun (fun _ => none) (steps ++ r :: u :: steps') 0 p).usedFree = true := by
  rw [poolRun_append]
  refine usedFree_poolRun steps' _ ?_
  cases h <;> exact Bool.or_true _

/-- The last steps of `connection_close` are the release and the change of the state. -/
theorem connectionClose_eq (fd : ℤ) : ∃ steps, connectionClose fd =
    steps ++ [.releaseCon, connectionSetState .connect] := by
  refine ⟨[.con fun con => { con with fd := |con.fd| }, useCon] ++
    (if 0 < fd then useCon :: connectionFdeventEventDel ++ [useCon] else []) ++
    [.con fun con => { con with fd := -1 }, useCon, useCon], ?_⟩
  simp [connectionClose, connectionDel]

/-- On the paths through `connection_close`, what follows the change of the state is at most the
run of the state machine. -/
theorem steps_eq (fd : ℤ) {path : ReleasePath} (h : path ≠ .schedClose) :
    ∃ steps rest, path.steps fd = steps ++ .releaseCon :: connectionSetState .connect :: rest ∧
      (rest = [] ∨ rest = connectionHandleBase) := by
  obtain ⟨steps, hclose⟩ := connectionClose_eq fd
  cases path with
  | closeState =>
    refine ⟨useCon :: steps, connectionHandleBase, ?_, .inr rfl⟩
    simp [ReleasePath.steps, connectionHandleCloseState, hclose]
  | shutdown =>
    refine ⟨useCon :: steps, connectionHandleBase, ?_, .inr rfl⟩
    simp [ReleasePath.steps, connectionHandleShutdown, hclose]
  | failedAccept => exact ⟨steps, [], hclose, .inl rfl⟩
  | schedClose => exact absurd rfl h

theorem usedFree_path (con : PoolCon) (path : ReleasePath) :
    (poolRun (fun _ => none) (path.steps con.fd) 0 (poolStart con)).usedFree = true := by
  by_cases h : path = .schedClose
  · subst h
    exact usedFree_of_usesReturned .ev [.ev, .ev, useCon] [] _
  · obtain ⟨steps, rest, heq, -⟩ := steps_eq con.fd h
    rw [heq]
    exact usedFree_of_usesReturned (.con _) steps rest _

/-- A connection that is accepted right behind the release loses the state that
`connection_accepted` gave it. -/
theorem state_path (con : PoolCon) {path : ReleasePath} (h : path ≠ .schedClose) (fd : ℤ) :
    ∃ accepts, let p := poolRun accepts (path.steps con.fd) 0 (poolStart con)
      p.handedOut.isSome ∧ p.con.state = .connect := by
  obtain ⟨steps, rest, heq, hrest⟩ := steps_eq con.fd h
  refine ⟨fun n => if n = steps.length + 1 then some fd else none, ?_⟩
  rw [heq, poolRun_append, Nat.zero_add]
  generalize poolRun _ steps 0 (poolStart con) = p
  have hlater : steps.length + 1 + 1 ≠ steps.length := by omega
  rcases hrest with rfl | rfl <;>
    simp [hlater, poolRun, Pools.accept, Pools.step, connectionAccepted, connectionSetState,
      connectionHandleBase, useCon, runHandler, connectionHandleConnectState]

/-- No path leaves what it returned to a pool alone, and on every path through `connection_close` a
connection that is accepted in time does not keep its state. -/
theorem releasePath_not_clean (con : PoolCon) (path : ReleasePath) :
    ¬ (∀ accepts, CleanRelease (poolRun accepts (path.steps con.fd) 0 (poolStart con))) ∧
      (path ≠ .schedClose → ∃ accepts,
        let p := poolRun accepts (path.steps con.fd) 0 (poolStart con)
        p.handedOut.isSome ∧ p.con.state ≠ .requestStart) := by
  refine ⟨fun h => ?_, fun h => ?_⟩
  · have hfree := (h fun _ => none).untouched
    rw [usedFree_path] at hfree
    simp at hfree
  · obtain ⟨accepts, hout, hstate⟩ := state_path con h 7
    exact ⟨accepts, hout, by rw [hstate]; simp⟩

/-- A connection in `CLOSE` whose client sent bytes behind its last request: the thread that
accepts gets it with these bytes and its count of requests. -/
theorem closeState_not_clean :
    ¬ ∀ (con : PoolCon) (path : ReleasePath) (accepts : ℕ → Option ℤ),
      CleanRelease (poolRun accepts (path.steps con.fd) 0 (poolStart con)) := by
  intro h
  have hfresh := (h ⟨.close, str "x", 1, 5⟩ .closeState
    (fun n => if n = 13 then some 7 else none)).fresh ⟨.close, str "x", 1, -1⟩ rfl
  exact absurd hfresh.2 (by decide)

end Lighttpd
