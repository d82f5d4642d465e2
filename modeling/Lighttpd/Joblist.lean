import Mathlib.Data.List.TakeDrop
import Mathlib.Tactic.Linarith

/-!
# The job list and the queue for descriptors

`joblist.c` keeps the connections to run again and those that wait for a free descriptor, both
under `joblist_lock`, and `connection_handle_fdevent_cb` runs a connection again whose
`is_appendjob` is set.

The lock is not recursive. Every function says whether its caller holds the lock; to take it then
never returns, which is `none`. What the handlers do that a run of the state machine calls is
arbitrary: a list of steps for each run, in the order of the runs.
-/

namespace Lighttpd

/-! ## The lists -/

/-- What a handler does while the state machine of its connection runs: `HANDLER_WAIT_FOR_FD`, an
append to the job list, or a change of the number of open descriptors. -/
inductive HandlerStep
  | waitForFd
  | joblistAppend (con : ℕ)
  | setCurFds (n : ℤ)
  deriving DecidableEq, Repr

/-- The step takes `joblist_lock`. -/
def HandlerStep.Locks : HandlerStep → Prop
  | .waitForFd => True
  | .joblistAppend _ => True
  | .setCurFds _ => False

/-- The fields of the server that the lists use, and the connections that were run. -/
structure JobServer where
  joblist : List ℕ
  fdwaitqueue : List ℕ
  wantFds : ℤ
  maxFds : ℤ
  curFds : ℤ
  ran : List ℕ
  deriving DecidableEq, Repr

/-- `JOB_LOCK`, what is done under the lock, and `JOB_UNLOCK`. -/
def withJobLock {α : Type*} (held : Bool) (f : Option α) : Option α := if held then none else f

/-- `joblist_append`. -/
def joblistAppend (held : Bool) (srv : JobServer) (con : ℕ) : Option JobServer :=
  withJobLock held (some { srv with joblist := srv.joblist ++ [con] })

/-- `fdwaitqueue_append`. -/
def fdwaitqueueAppend (held : Bool) (srv : JobServer) (con : ℕ) : Option JobServer :=
  withJobLock held (some { srv with fdwaitqueue := srv.fdwaitqueue ++ [con] })

/-- `fdwaitqueue_unshift`. -/
def fdwaitqueueUnshift (held : Bool) (srv : JobServer) : Option (Option ℕ × JobServer) :=
  withJobLock held
    (match srv.fdwaitqueue with
      | [] => some (none, srv)
      | con :: cons => some (some con, { srv with fdwaitqueue := cons }))

/-- One step of a handler of `con`. -/
def handlerStep (held : Bool) (con : ℕ) (srv : JobServer) : HandlerStep → Option JobServer
  | .waitForFd => fdwaitqueueAppend held { srv with wantFds := srv.wantFds + 1 } con
  | .joblistAppend con' => joblistAppend held srv con'
  | .setCurFds n => some { srv with curFds := n }

/-- `connection_state_machine`, when its handlers do `steps`. -/
def connectionStateMachine (held : Bool) (steps : List HandlerStep) (srv : JobServer) (con : ℕ) :
    Option JobServer :=
  steps.foldlM (handlerStep held con) { srv with ran := srv.ran ++ [con] }

variable (behaviour : ℕ → List HandlerStep)

/-- The loop of `joblist_call` over the connections that are left. Nothing joins the list while
the lock is held (`connectionStateMachine_locked`). -/
def joblistLoop (srv : JobServer) : List ℕ → Option JobServer
  | [] => some srv
  | con :: cons =>
    match connectionStateMachine true (behaviour srv.ran.length) srv con with
    | none => none
    | some srv => joblistLoop srv cons

/-- `joblist_call`. -/
def joblistCall (srv : JobServer) : Option JobServer :=
  withJobLock false ((joblistLoop behaviour srv srv.joblist).map fun srv => { srv with joblist := [] })

/-- The loop of `fdwaitqueue_call` while there are `freeFds` descriptors. -/
def fdwaitqueueLoop : ℕ → JobServer → Option JobServer
  | 0, srv => some srv
  | freeFds + 1, srv =>
    match fdwaitqueueUnshift true srv with
    | none => none
    | some (none, srv) => some srv
    | some (some con, srv) =>
      match connectionStateMachine true (behaviour srv.ran.length) srv con with
      | none => none
      | some srv => fdwaitqueueLoop freeFds { srv with wantFds := srv.wantFds - 1 }

/-- The descriptors that `fdwaitqueue_call` may hand out. -/
def JobServer.freeFds (srv : JobServer) : ℤ := srv.maxFds - srv.curFds - 16

/-- `fdwaitqueue_call`. -/
def fdwaitqueueCall (srv : JobServer) : Option JobServer :=
  withJobLock false
    (if srv.wantFds ≠ 0 then fdwaitqueueLoop behaviour srv.freeFds.toNat srv else some srv)

/-- Every connection of the job list was run once, in its order, and the list is empty. -/
def JoblistServed (srv srv' : JobServer) : Prop :=
  srv'.ran = srv.ran ++ srv.joblist ∧ srv'.joblist = []

/-- The connections that wait, and behind them those that wait again, were run once and removed,
as many as there are descriptors for, and `want_fds` follows. -/
def FdwaitqueueServed (srv srv' : JobServer) : Prop :=
  ∃ again served : List ℕ, srv.fdwaitqueue ++ again = served ++ srv'.fdwaitqueue ∧
    served.length = (if srv.wantFds = 0 then 0
      else min srv.freeFds.toNat (srv.fdwaitqueue ++ again).length) ∧
    srv'.ran = srv.ran ++ served ∧ srv'.wantFds = srv.wantFds + again.length - served.length

/-- Under the lock, a step that locks never returns; any other step leaves the lists alone. -/
theorem handlerStep_locked (con : ℕ) (srv : JobServer) (step : HandlerStep) :
    handlerStep true con srv step = none ∧ step.Locks ∨
      ∃ srv', handlerStep true con srv step = some srv' ∧ ¬ step.Locks ∧
        srv'.ran = srv.ran ∧ srv'.joblist = srv.joblist := by
  cases step with
  | waitForFd => exact .inl ⟨rfl, trivial⟩
  | joblistAppend con' => exact .inl ⟨rfl, trivial⟩
  | setCurFds n => exact .inr ⟨_, rfl, id, rfl, rfl⟩

theorem foldlM_handlerStep_locked (con : ℕ) :
    ∀ (steps : List HandlerStep) (srv : JobServer),
      (steps.foldlM (handlerStep true con) srv = none ∧ ∃ s ∈ steps, s.Locks) ∨
        ∃ srv', steps.foldlM (handlerStep true con) srv = some srv' ∧ (∀ s ∈ steps, ¬ s.Locks) ∧
          srv'.ran = srv.ran ∧ srv'.joblist = srv.joblist
  | [], srv => .inr ⟨srv, rfl, by simp, rfl, rfl⟩
  | step :: steps, srv => by
    rw [List.foldlM_cons]
    rcases handlerStep_locked con srv step with ⟨hnone, hlock⟩ | ⟨srv', hsome, hfree, hran, hjob⟩
    · exact .inl ⟨by rw [hnone]; rfl, step, List.mem_cons_self, hlock⟩
    · rw [hsome]
      rcases foldlM_handlerStep_locked con steps srv' with ⟨hnone, s, hs, hlock⟩ |
        ⟨srv'', hsome', hfree', hran', hjob'⟩
      · exact .inl ⟨hnone, s, List.mem_cons_of_mem _ hs, hlock⟩
      · exact .inr ⟨srv'', hsome', List.forall_mem_cons.mpr ⟨hfree, hfree'⟩, hran'.trans hran,
          hjob'.trans hjob⟩

/-- Under the lock, a run of the state machine returns when no handler locks. It then leaves the
job list alone. -/
theorem connectionStateMachine_locked (steps : List HandlerStep) (srv : JobServer) (con : ℕ) :
    (connectionStateMachine true steps srv con = none ∧ ∃ s ∈ steps, s.Locks) ∨
      ∃ srv', connectionStateMachine true steps srv con = some srv' ∧ (∀ s ∈ steps, ¬ s.Locks) ∧
        srv'.ran = srv.ran ++ [con] ∧ srv'.joblist = srv.joblist :=
  foldlM_handlerStep_locked con steps _

/-- The loop of `joblist_call` returns exactly when no handler it runs locks. -/
theorem joblistLoop_spec :
    ∀ (cons : List ℕ) (srv : JobServer),
      (joblistLoop behaviour srv cons = none ∧
          ∃ i < cons.length, ∃ s ∈ behaviour (srv.ran.length + i), s.Locks) ∨
        ∃ srv', joblistLoop behaviour srv cons = some srv' ∧ srv'.ran = srv.ran ++ cons ∧
          ∀ i < cons.length, ∀ s ∈ behaviour (srv.ran.length + i), ¬ s.Locks
  | [], srv => .inr ⟨srv, rfl, by simp, fun i hi => by simp at hi⟩
  | con :: cons, srv => by
    rw [joblistLoop]
    rcases connectionStateMachine_locked (behaviour srv.ran.length) srv con with
      ⟨hnone, hlock⟩ | ⟨srv', hsome, hfree, hran, -⟩
    · rw [hnone]
      exact .inl ⟨rfl, 0, Nat.succ_pos _, hlock⟩
    · rw [hsome]
      have hshift : ∀ i, srv'.ran.length + i = srv.ran.length + (i + 1) := fun i => by
        rw [hran, List.length_append, List.length_singleton]
        omega
      rcases joblistLoop_spec cons srv' with ⟨hnone, i, hi, hlock⟩ | ⟨srv'', hsome', hran', hfree'⟩
      · exact .inl ⟨hnone, i + 1, Nat.succ_lt_succ hi, by rwa [← hshift]⟩
      · refine .inr ⟨srv'', hsome', by rw [hran', hran, List.append_assoc]; rfl, fun i hi => ?_⟩
        rcases i with _ | i
        · exact hfree
        · rw [← hshift]
          exact hfree' i (Nat.lt_of_succ_lt_succ hi)

/-- `fdwaitqueue_unshift` under the lock never returns, so that neither does the loop around it. -/
theorem fdwaitqueueLoop_succ (n : ℕ) (srv : JobServer) :
    fdwaitqueueLoop behaviour (n + 1) srv = none := rfl

/-- `joblist_call` and `fdwaitqueue_call` take the lock they hold, and never return, exactly when a
handler that `joblist_call` runs appends to one of the lists, and when `fdwaitqueue_call` finds a
free descriptor for a connection that wants one. -/
theorem joblist_served_iff (srv : JobServer) :
    ((∃ srv', joblistCall behaviour srv = some srv' ∧ JoblistServed srv srv') ↔
        ∀ i < srv.joblist.length, ∀ s ∈ behaviour (srv.ran.length + i), ¬ s.Locks) ∧
      ((∃ srv', fdwaitqueueCall behaviour srv = some srv' ∧ FdwaitqueueServed srv srv') ↔
        srv.wantFds = 0 ∨ srv.freeFds ≤ 0) := by
  refine ⟨?_, ?_⟩
  · have hcall : joblistCall behaviour srv =
        (joblistLoop behaviour srv srv.joblist).map fun srv => { srv with joblist := [] } := rfl
    rw [hcall]
    rcases joblistLoop_spec behaviour srv.joblist srv with
      ⟨hnone, i, hi, s, hs, hlock⟩ | ⟨srv', hsome, hran, hfree⟩
    · rw [hnone]
      exact ⟨fun ⟨_, h, _⟩ => by simp at h, fun h => absurd hlock (h i hi s hs)⟩
    · rw [hsome]
      exact ⟨fun _ => hfree, fun _ => ⟨_, rfl, hran, rfl⟩⟩
  · have hcall : fdwaitqueueCall behaviour srv =
        if srv.wantFds ≠ 0 then fdwaitqueueLoop behaviour srv.freeFds.toNat srv else some srv := rfl
    have hidle : srv.wantFds = 0 ∨ srv.freeFds ≤ 0 → FdwaitqueueServed srv srv := fun h => by
      refine ⟨[], [], by simp, ?_, by simp, by simp⟩
      rw [List.length_nil]
      split_ifs with hwant
      · rfl
      · rw [Int.toNat_of_nonpos (h.resolve_left hwant), Nat.zero_min]
    rw [hcall]
    constructor
    · rintro ⟨srv', hsome, -⟩
      by_contra hneg
      rw [not_or, not_le] at hneg
      obtain ⟨n, hn⟩ : ∃ n, srv.freeFds.toNat = n + 1 := ⟨srv.freeFds.toNat - 1, by omega⟩
      rw [if_pos hneg.1, hn, fdwaitqueueLoop_succ] at hsome
      simp at hsome
    · intro h
      refine ⟨srv, ?_, hidle h⟩
      split_ifs with hwant
      · rw [Int.toNat_of_nonpos (h.resolve_left hwant)]
        rfl
      · rfl

/-- One connection that waits for a descriptor, and one that is free. -/
theorem joblist_not_served :
    ¬ ∀ (behaviour : ℕ → List HandlerStep) (srv : JobServer),
      (∃ srv', joblistCall behaviour srv = some srv' ∧ JoblistServed srv srv') ∧
        ∃ srv', fdwaitqueueCall behaviour srv = some srv' ∧ FdwaitqueueServed srv srv' := by
  intro h
  obtain ⟨-, srv', hsome, -⟩ := h (fun _ => []) ⟨[], [1], 1, 1024, 1007, []⟩
  have hnone : fdwaitqueueCall (fun _ => []) ⟨[], [1], 1, 1024, 1007, []⟩ = none := by decide
  rw [hnone] at hsome
  simp at hsome

/-- What happens to a connection: `connection_joblist_append`, a start of
`connection_state_machine`, or `is_appendjob` set to zero, as `connection_reset` does. -/
inductive JobEvent
  | append
  | start
  | clear
  deriving DecidableEq, Repr

/-- `is_appendjob`, and what happened so far. -/
structure JobCon where
  isAppendjob : Bool
  events : List JobEvent
  deriving DecidableEq, Repr

/-- `is_appendjob` after an event. -/
def JobEvent.flag (isAppendjob : Bool) : JobEvent → Bool
  | .append => true
  | .start => isAppendjob
  | .clear => false

/-- One event. -/
def JobCon.act (con : JobCon) (e : JobEvent) : JobCon :=
  ⟨e.flag con.isAppendjob, con.events ++ [e]⟩

/-- `connection_handle_fdevent_cb`: `handler` is what the event handler does and `machine` what the
state machine does when it is run. -/
def connectionHandleFdeventCb (con : JobCon) (handler machine : List JobEvent) : JobCon :=
  let con := handler.foldl JobCon.act con
  if con.isAppendjob then (machine.foldl JobCon.act (con.act .start)).act .clear
  else con

/-- Callbacks one after the other. -/
def fdeventRun (con : JobCon) (calls : List (List JobEvent × List JobEvent)) : JobCon :=
  calls.foldl (fun con call => connectionHandleFdeventCb con call.1 call.2) con

/-- Whenever `is_appendjob` is cleared, the state machine was started after every request to run
the connection again. -/
def NeverLost (events : List JobEvent) : Prop :=
  ∀ u w, events = u ++ .clear :: w → ∀ x v, u = x ++ .append :: v → .start ∈ v

/-! ### Requests that are pending -/

/-- A request is pending after an event. -/
def JobEvent.pending (p : Bool) : JobEvent → Bool
  | .append => true
  | .start => false
  | .clear => p

/-- A request that no start followed is left behind the events. -/
def leavesPending (p : Bool) (events : List JobEvent) : Bool := events.foldl JobEvent.pending p

/-- `is_appendjob` is cleared while a request is pending. -/
def clearsPending (p : Bool) : List JobEvent → Bool
  | [] => false
  | e :: es => (e = .clear && p) || clearsPending (e.pending p) es

/-- `is_appendjob` behind the events. -/
def leavesFlag (isAppendjob : Bool) (events : List JobEvent) : Bool :=
  events.foldl JobEvent.flag isAppendjob

theorem leavesPending_iff :
    ∀ {events : List JobEvent} {p : Bool}, leavesPending p events = true ↔
      (∃ x v, events = x ++ .append :: v ∧ .start ∉ v) ∨ (p = true ∧ .start ∉ events)
  | [], p => by simp [leavesPending]
  | e :: es, p => by
    have ih := @leavesPending_iff es (e.pending p)
    rw [show leavesPending p (e :: es) = leavesPending (e.pending p) es from rfl, ih]
    constructor
    · rintro (⟨x, v, rfl, hv⟩ | ⟨hp, hs⟩)
      · exact .inl ⟨e :: x, v, rfl, hv⟩
      · cases e with
        | append => exact .inl ⟨[], es, rfl, hs⟩
        | start => simp [JobEvent.pending] at hp
        | clear => exact .inr ⟨hp, by simpa using hs⟩
    · rintro (⟨x, v, hx, hv⟩ | ⟨hp, hs⟩)
      · rcases x with _ | ⟨e', x⟩
        · obtain ⟨rfl, rfl⟩ := List.cons.inj hx
          exact .inr ⟨rfl, hv⟩
        · obtain ⟨rfl, rfl⟩ := List.cons.inj hx
          exact .inl ⟨x, v, rfl, hv⟩
      · rw [List.mem_cons, not_or] at hs
        refine .inr ⟨?_, hs.2⟩
        cases e with
        | append => rfl
        | start => exact absurd rfl hs.1
        | clear => exact hp

theorem clearsPending_iff :
    ∀ {events : List JobEvent} {p : Bool}, clearsPending p events = true ↔
      ∃ u w, events = u ++ .clear :: w ∧ leavesPending p u = true
  | [], p => by simp [clearsPending]
  | e :: es, p => by
    rw [clearsPending, Bool.or_eq_true, clearsPending_iff]
    constructor
    · rintro (h | ⟨u, w, rfl, hu⟩)
      · obtain ⟨he, hp⟩ : e = .clear ∧ p = true := by simpa using h
        subst he
        exact ⟨[], es, rfl, hp⟩
      · exact ⟨e :: u, w, rfl, hu⟩
    · rintro ⟨u, w, hu, hp⟩
      rcases u with _ | ⟨e', u⟩
      · obtain ⟨rfl, rfl⟩ := List.cons.inj hu
        exact .inl (by simpa [leavesPending] using hp)
      · obtain ⟨rfl, rfl⟩ := List.cons.inj hu
        exact .inr ⟨u, w, rfl, hp⟩

/-- A request is lost exactly when the flag is cleared while it is pending. -/
theorem neverLost_iff (events : List JobEvent) :
    NeverLost events ↔ clearsPending false events = false := by
  rw [← Bool.not_eq_true, clearsPending_iff]
  constructor
  · rintro h ⟨u, w, hu, hp⟩
    rcases leavesPending_iff.mp hp with ⟨x, v, hx, hv⟩ | ⟨hf, -⟩
    · exact hv (h u w hu x v hx)
    · simp at hf
  · intro h u w hu x v hx
    by_contra hv
    exact h ⟨u, w, hu, leavesPending_iff.mpr (.inl ⟨x, v, hx, hv⟩)⟩

theorem clearsPending_append :
    ∀ (u v : List JobEvent) (p : Bool), clearsPending p (u ++ v) =
      (clearsPending p u || clearsPending (leavesPending p u) v)
  | [], v, p => by simp [clearsPending, leavesPending]
  | e :: u, v, p => by
    rw [List.cons_append, clearsPending, clearsPending_append u v, clearsPending, Bool.or_assoc]
    rfl

theorem leavesPending_append (u v : List JobEvent) (p : Bool) :
    leavesPending p (u ++ v) = leavesPending (leavesPending p u) v := List.foldl_append

/-- A pending request is one the flag shows, as long as none was cleared away. -/
theorem leavesFlag_of_leavesPending :
    ∀ {events : List JobEvent} {p f : Bool}, clearsPending p events = false → (p = true → f = true) →
      leavesPending p events = true → leavesFlag f events = true
  | [], p, f, _, hpf, hp => hpf hp
  | e :: es, p, f, hclear, hpf, hp => by
    rw [clearsPending, Bool.or_eq_false_iff] at hclear
    refine leavesFlag_of_leavesPending (p := e.pending p) (f := e.flag f) hclear.2 (fun h => ?_) hp
    cases e with
    | append => rfl
    | start => simp [JobEvent.pending] at h
    | clear =>
      rw [JobEvent.pending] at h
      simp [h] at hclear

/-! ### The callback -/

theorem foldl_act (events : List JobEvent) :
    ∀ con : JobCon, events.foldl JobCon.act con =
      ⟨leavesFlag con.isAppendjob events, con.events ++ events⟩ := by
  induction events with
  | nil => exact fun con => by simp [leavesFlag]
  | cons e es ih => exact fun con => by rw [List.foldl_cons, ih]; simp [JobCon.act, leavesFlag]

theorem connectionHandleFdeventCb_eq (con : JobCon) (handler machine : List JobEvent) :
    connectionHandleFdeventCb con handler machine = ⟨false, con.events ++ handler ++
      if leavesFlag con.isAppendjob handler then .start :: (machine ++ [.clear]) else []⟩ := by
  unfold connectionHandleFdeventCb
  rw [foldl_act]
  dsimp only
  split_ifs with hflag
  · simp [foldl_act, JobCon.act, JobEvent.flag]
  · simp [hflag]

/-- The handler never resets the connection while a request is pending, and neither does the state
machine, when it is run; nor does the state machine leave a request. -/
def KeepsRequests (isAppendjob : Bool) (handler machine : List JobEvent) : Prop :=
  clearsPending false handler = false ∧
    (leavesFlag isAppendjob handler = true →
      clearsPending false machine = false ∧ leavesPending false machine = false)

/-- Every callback of a run keeps the requests; `is_appendjob` is not set between two of them. -/
def KeepsAllRequests (isAppendjob : Bool) : List (List JobEvent × List JobEvent) → Prop
  | [] => True
  | call :: calls => KeepsRequests isAppendjob call.1 call.2 ∧ KeepsAllRequests false calls

theorem clearsPending_callback {con : JobCon} (hp : leavesPending false con.events = false)
    (hc : clearsPending false con.events = false) (handler machine : List JobEvent) :
    (clearsPending false (connectionHandleFdeventCb con handler machine).events = false ↔
        KeepsRequests con.isAppendjob handler machine) ∧
      (KeepsRequests con.isAppendjob handler machine →
        leavesPending false (connectionHandleFdeventCb con handler machine).events = false) := by
  rw [connectionHandleFdeventCb_eq]
  dsimp only
  rw [clearsPending_append, clearsPending_append, leavesPending_append, leavesPending_append, hp, hc,
    Bool.false_or, Bool.or_eq_false_iff, KeepsRequests]
  split_ifs with hflag
  · have hstart : ∀ p, leavesPending p (.start :: (machine ++ [.clear])) =
        leavesPending false machine := fun p => by
      rw [show leavesPending p (.start :: (machine ++ [.clear])) =
        leavesPending false (machine ++ [.clear]) from rfl, leavesPending_append]
      rfl
    have hclears : ∀ p, clearsPending p (.start :: (machine ++ [.clear])) =
        (clearsPending false machine || leavesPending false machine) := fun p => by
      simp [clearsPending, JobEvent.pending, clearsPending_append]
    rw [hstart, hclears, Bool.or_eq_false_iff]
    exact ⟨⟨fun h => ⟨h.1, fun _ => h.2⟩, fun h => ⟨h.1, h.2 hflag⟩⟩, fun h => (h.2 hflag).2⟩
  · refine ⟨⟨fun h => ⟨h.1, fun hf => absurd hf hflag⟩, fun h => ⟨h.1, rfl⟩⟩, fun h => ?_⟩
    rw [← Bool.not_eq_true]
    intro hpend
    have hleft : leavesPending false handler = true := by
      rwa [leavesPending_append, hp] at hpend
    exact hflag (leavesFlag_of_leavesPending h.1 (by simp) hleft)

theorem prefix_fdeventRun :
    ∀ (calls : List (List JobEvent × List JobEvent)) (con : JobCon),
      ∃ v, (fdeventRun con calls).events = con.events ++ v
  | [], con => ⟨[], by simp [fdeventRun]⟩
  | call :: calls, con => by
    obtain ⟨v, hv⟩ := prefix_fdeventRun calls (connectionHandleFdeventCb con call.1 call.2)
    rw [show fdeventRun con (call :: calls) =
      fdeventRun (connectionHandleFdeventCb con call.1 call.2) calls from rfl, hv,
      connectionHandleFdeventCb_eq, List.append_assoc, List.append_assoc]
    exact ⟨_, rfl⟩

theorem clearsPending_fdeventRun :
    ∀ (calls : List (List JobEvent × List JobEvent)) (con : JobCon),
      leavesPending false con.events = false → clearsPending false con.events = false →
        (clearsPending false (fdeventRun con calls).events = false ↔
          KeepsAllRequests con.isAppendjob calls)
  | [], con, _, hc => iff_of_true hc trivial
  | call :: calls, con, hp, hc => by
    obtain ⟨hiff, hleft⟩ := clearsPending_callback hp hc call.1 call.2
    have hflag : (connectionHandleFdeventCb con call.1 call.2).isAppendjob = false := by
      rw [connectionHandleFdeventCb_eq]
    rw [show fdeventRun con (call :: calls) =
      fdeventRun (connectionHandleFdeventCb con call.1 call.2) calls from rfl, KeepsAllRequests]
    by_cases hkeeps : KeepsRequests con.isAppendjob call.1 call.2
    · rw [clearsPending_fdeventRun calls _ (hleft hkeeps) (hiff.mpr hkeeps), hflag]
      exact (and_iff_right hkeeps).symm
    · obtain ⟨v, hv⟩ := prefix_fdeventRun calls (connectionHandleFdeventCb con call.1 call.2)
      rw [hv, clearsPending_append, Bool.or_eq_false_iff, hiff]
      exact ⟨fun h => absurd h.1 hkeeps, fun h => absurd h.1 hkeeps⟩

/-- No request is lost in a run of callbacks exactly when none is pending when the connection is
reset, and the state machine leaves none when it is run. -/
theorem fdeventRun_neverLost_iff (isAppendjob : Bool)
    (calls : List (List JobEvent × List JobEvent)) :
    NeverLost (fdeventRun ⟨isAppendjob, []⟩ calls).events ↔ KeepsAllRequests isAppendjob calls := by
  rw [neverLost_iff, clearsPending_fdeventRun calls ⟨isAppendjob, []⟩ rfl rfl]

/-- The event handler asks for a run, and the state machine for another one. -/
theorem fdeventRun_not_neverLost :
    ¬ ∀ (isAppendjob : Bool) (calls : List (List JobEvent × List JobEvent)),
      NeverLost (fdeventRun ⟨isAppendjob, []⟩ calls).events := by
  intro h
  have := h false [([.append], [.append])] [.append, .start, .append] [] (by decide)
    [.append, .start] [] (by decide)
  simp at this

end Lighttpd
