import Mathlib.Tactic.Linarith
import Lighttpd.Lib.DoublyLinked

/-!
# The processes of a backend

A `gw_host` keeps its processes on two doubly linked lists, `first` for those that serve requests
and `unused_procs` for those that were killed or did not start, and counts the processes of
`first` in `num_procs` and those of them that run in `active_procs`. The records lie in a memory
of cells; `live` are the cells that were allocated and not freed. A loop over `next` that visits
more cells than are live has met one twice and does not end; such a run has no result.

The operating system answers each call with an outcome that is given to the function, as is the
time of the server. Names, ports and log messages of a process are left out.
-/

namespace Lighttpd

open DoublyLinked

/-- The states of a process. -/
inductive ProcState
  | running
  | overloaded
  | diedWaitForPid
  | died
  | killed
  deriving DecidableEq, Repr

/-- The address of a process record. -/
abbrev ProcAddr := ℕ

/-- `gw_proc`. -/
structure GwProc where
  id : ℕ
  pid : ℤ
  load : ℤ
  lastUsed : ℤ
  prev : Option ProcAddr
  next : Option ProcAddr
  disabledUntil : ℤ
  isLocal : Bool
  state : ProcState
  deriving DecidableEq, Repr

/-- The settings of a host. -/
structure HostConf where
  minProcs : ℕ
  maxProcs : ℕ
  maxLoadPerProc : ℕ
  idleTimeout : ℕ
  disableTime : ℕ
  /-- A `bin-path` is set. -/
  binPath : Bool
  deriving DecidableEq, Repr

/-- `gw_host` with the memory of its process records. -/
structure GwHost where
  live : List ProcAddr
  cell : ProcAddr → GwProc
  first : Option ProcAddr
  unusedProcs : Option ProcAddr
  numProcs : ℤ
  activeProcs : ℤ
  maxId : ℕ
  load : ℤ
  conf : HostConf

/-- The outcomes of the calls of `gw_spawn_connection`. -/
structure SpawnCalls where
  socket : Bool
  connect : Bool
  reopen : Bool
  reuseaddr : Bool
  bind : Bool
  listen : Bool
  openDirname : Bool
  /-- The child, or `-1`. -/
  fork : ℤ
  /-- The child ended before it was waited for. -/
  exited : Bool
  deriving DecidableEq, Repr

namespace GwHost

/-- A write to a process record. -/
def modify (host : GwHost) (proc : ProcAddr) (f : GwProc → GwProc) : GwHost :=
  { host with cell := Function.update host.cell proc (f (host.cell proc)) }

/-- `proc->next = x`. -/
def setNext (host : GwHost) (proc : ProcAddr) (x : Option ProcAddr) : GwHost :=
  host.modify proc fun p => { p with next := x }

/-- `proc->prev = x`. -/
def setPrev (host : GwHost) (proc : ProcAddr) (x : Option ProcAddr) : GwHost :=
  host.modify proc fun p => { p with prev := x }

/-- `if (p) p->next = x`. -/
def setNext? (host : GwHost) (p x : Option ProcAddr) : GwHost :=
  match p with
  | none => host
  | some proc => host.setNext proc x

/-- `if (p) p->prev = x`. -/
def setPrev? (host : GwHost) (p x : Option ProcAddr) : GwHost :=
  match p with
  | none => host
  | some proc => host.setPrev proc x

/-- The `next` fields of the memory. -/
def next (host : GwHost) (proc : ProcAddr) : Option ProcAddr := (host.cell proc).next

/-- The `prev` fields of the memory. -/
def prev (host : GwHost) (proc : ProcAddr) : Option ProcAddr := (host.cell proc).prev

/-- The loop `for (; proc; proc = proc->next)` around `body`. -/
def forProcs (body : GwHost → ProcAddr → GwHost) :
    ℕ → Option ProcAddr → GwHost → Option GwHost
  | _, none, host => some host
  | 0, some _, _ => none
  | n + 1, some proc, host =>
    if proc ∈ host.live then
      let host := body host proc
      forProcs body n (host.next proc) host
    else none

/-- The processes such a loop visits, for loops that only read. -/
def walk (host : GwHost) : ℕ → Option ProcAddr → Option (List ProcAddr)
  | _, none => some []
  | 0, some _ => none
  | n + 1, some proc =>
    if proc ∈ host.live then (host.walk n (host.next proc)).map (proc :: ·) else none

/-- The list behind the pointer `p`. -/
def listed (host : GwHost) (p : Option ProcAddr) : Option (List ProcAddr) :=
  host.walk host.live.length p

end GwHost

/-! ## The code -/

/-- `gw_proc_set_state`. -/
def gwProcSetState (host : GwHost) (proc : ProcAddr) (state : ProcState) : GwHost :=
  if (host.cell proc).state = state then host
  else
    let host :=
      if (host.cell proc).state = .running then { host with activeProcs := host.activeProcs - 1 }
      else if state = .running then { host with activeProcs := host.activeProcs + 1 }
      else host
    host.modify proc fun p => { p with state := state }

/-- `gw_proc_init`: the record `new` that `calloc` returned. -/
def gwProcInit (host : GwHost) (new : ProcAddr) : GwHost :=
  { host with
    live := new :: host.live
    cell := Function.update host.cell new
      { id := 0, pid := 0, load := 0, lastUsed := 0, prev := none, next := none,
        disabledUntil := 0, isLocal := false, state := .died } }

/-- `gw_proc_free` of a record that has no `next`. -/
def gwProcFree (host : GwHost) (proc : ProcAddr) : GwHost :=
  { host with live := host.live.erase proc }

/-- `gw_proc_connect_error`: every kind of error disables the process for a while. -/
def gwProcConnectError (now : ℤ) (pid : ℤ) (host : GwHost) (proc : ProcAddr) : GwHost :=
  let disable := gwProcSetState
    (host.modify proc fun p => { p with disabledUntil := now + host.conf.disableTime })
    proc .overloaded
  if !(host.cell proc).isLocal then disable
  else if (host.cell proc).pid = pid ∧ (host.cell proc).state = .running then disable
  else host

/-- `gw_proc_check_enable`. -/
def gwProcCheckEnable (now : ℤ) (host : GwHost) (proc : ProcAddr) : GwHost :=
  if now ≤ (host.cell proc).disabledUntil then host
  else if (host.cell proc).state ≠ .overloaded then host
  else gwProcSetState host proc .running

/-- What both places that see a child end do with its record. -/
def gwProcReap (now : ℤ) (host : GwHost) (proc : ProcAddr) : GwHost :=
  gwProcSetState
    (host.modify proc fun p =>
      { p with
        pid := 0
        disabledUntil := if p.state ≠ .killed then now else p.disabledUntil })
    proc .died

/-- `gw_proc_waitpid`; `exited` is what `waitpid` says of the child. -/
def gwProcWaitpid (now : ℤ) (exited : Bool) (host : GwHost) (proc : ProcAddr) : ℤ × GwHost :=
  if !(host.cell proc).isLocal then (0, host)
  else if (host.cell proc).pid ≤ 0 then (0, host)
  else if !exited then (0, host)
  else (1, gwProcReap now host proc)

/-- The child of `fdevent_fork_execve`, which is not called without the directory. -/
def SpawnCalls.pid (calls : SpawnCalls) : ℤ := if calls.openDirname then calls.fork else -1

/-- The part of `gw_spawn_connection` behind the fork. -/
def gwSpawnChild (now : ℤ) (calls : SpawnCalls) (host : GwHost) (proc : ProcAddr) : ℤ × GwHost :=
  if calls.pid = -1 then
    (-1, host.modify proc fun p => { p with pid := 0, disabledUntil := now })
  else
    let host := host.modify proc fun p =>
      { p with pid := calls.pid, lastUsed := now, isLocal := true }
    let (rc, host) := gwProcWaitpid now calls.exited host proc
    if rc ≠ 0 then (-1, host) else (0, gwProcSetState host proc .running)

/-- `gw_spawn_connection`. -/
def gwSpawnConnection (now : ℤ) (calls : SpawnCalls) (host : GwHost) (proc : ProcAddr) :
    ℤ × GwHost :=
  if !calls.socket then (-1, host)
  else if calls.connect then
    -- the socket is already used, and no child is started
    (0, gwProcSetState (host.modify proc fun p => { p with isLocal := false, pid := 0 })
      proc .running)
  else if !calls.reopen then (-1, host)
  else if !calls.reuseaddr then (-1, host)
  else if !calls.bind then (-1, host)
  else if !calls.listen then (-1, host)
  else gwSpawnChild now calls host proc

/-- A detached process in front of `first`. -/
def pushFirst (host : GwHost) (proc : ProcAddr) : GwHost :=
  let host := host.setNext proc host.first
  let host := host.setPrev? host.first (some proc)
  { host with first := some proc }

/-- A detached process in front of `unused_procs`. -/
def pushUnused (host : GwHost) (proc : ProcAddr) : GwHost :=
  let host := host.setNext proc host.unusedProcs
  let host := host.setPrev? host.unusedProcs (some proc)
  { host with unusedProcs := some proc }

/-- What the search of `gw_proc_spawn` for an unused process ends with. -/
inductive SpawnScan
  | unused (proc : ProcAddr)
  | fresh
  | wait
  deriving DecidableEq, Repr

/-- The search over `unused_procs`: processes that still run are passed over, one that just ended
stops the spawn. -/
def spawnScan (now : ℤ) (host : GwHost) : List ProcAddr → SpawnScan
  | [] => .fresh
  | proc :: procs =>
    if 0 < (host.cell proc).pid then spawnScan now host procs
    else if now ≤ (host.cell proc).disabledUntil then .wait
    else .unused proc

/-- `if (proc->next)`, the write to the process behind, and `proc->next = NULL`. -/
def detachNext (host : GwHost) (proc : ProcAddr) : GwHost :=
  match host.next proc with
  | none => host
  | some n => (host.setPrev n (host.prev proc)).setNext proc none

/-- The process leaves `unused_procs`. -/
def unlinkUnused (host : GwHost) (proc : ProcAddr) : GwHost :=
  let host :=
    if host.unusedProcs = some proc then { host with unusedProcs := host.next proc }
    else host.setNext? (host.prev proc) (host.next proc)
  (detachNext host proc).setPrev proc none

/-- What a call of `gw_proc_spawn` is given: the time, the record `calloc` would return, whether
`gw_proc_sockaddr_init` finds the address, and the outcomes of the calls. -/
structure SpawnInput where
  now : ℤ
  new : ProcAddr
  sockaddr : Bool
  calls : SpawnCalls
  deriving DecidableEq, Repr

/-- The rest of `gw_proc_spawn` with the record it found. -/
def gwProcSpawnWith (input : SpawnInput) (host : GwHost) (proc : ProcAddr) : GwHost :=
  let host := { host with numProcs := host.numProcs + 1 }
  if !input.sockaddr then
    let host := { host with numProcs := host.numProcs - 1 }
    let host :=
      if (host.cell proc).id + 1 = host.maxId then { host with maxId := host.maxId - 1 } else host
    gwProcFree host proc
  else
    let (rc, host) := gwSpawnConnection input.now input.calls host proc
    if rc ≠ 0 then pushUnused host proc else pushFirst host proc

/-- `gw_proc_spawn`. -/
def gwProcSpawn (input : SpawnInput) (host : GwHost) : Option GwHost :=
  match (host.listed host.unusedProcs).map (spawnScan input.now host) with
  | none => none
  | some .wait => some host
  | some (.unused proc) => some (gwProcSpawnWith input (unlinkUnused host proc) proc)
  | some .fresh =>
    let host := gwProcInit host input.new
    let host := host.modify input.new fun p => { p with id := host.maxId }
    some (gwProcSpawnWith input { host with maxId := host.maxId + 1 } input.new)

/-- The process leaves `first`. -/
def unlinkFirst (host : GwHost) (proc : ProcAddr) : GwHost :=
  let host := host.setPrev? (host.next proc) (host.prev proc)
  let host := host.setNext? (host.prev proc) (host.next proc)
  if host.prev proc = none then { host with first := host.next proc } else host

/-- A killed process in front of `unused_procs`. -/
def pushKilled (host : GwHost) (proc : ProcAddr) : GwHost :=
  let host := host.setPrev proc none
  let host := host.setNext proc host.unusedProcs
  let host := host.modify proc fun p => { p with disabledUntil := 0 }
  let host := host.setPrev? host.unusedProcs (some proc)
  { host with unusedProcs := some proc }

/-- `gw_proc_kill`. -/
def gwProcKill (host : GwHost) (proc : ProcAddr) : GwHost :=
  let host := pushKilled (unlinkFirst host proc) proc
  let host := gwProcSetState host proc .killed
  { host with numProcs := host.numProcs - 1 }

/-- `gw_restart_dead_procs` at a dead process. -/
def restartDead (now : ℤ) (calls : SpawnCalls) (host : GwHost) (proc : ProcAddr) : GwHost :=
  if host.conf.binPath then
    if (host.cell proc).load ≠ 0 then host
    else if now ≤ (host.cell proc).disabledUntil then host
    else (gwSpawnConnection now calls host proc).2
  else gwProcCheckEnable now host proc

/-- `gw_restart_dead_procs` at one process. -/
def restartProc (now : ℤ) (exited : ProcAddr → Bool) (calls : ProcAddr → SpawnCalls)
    (host : GwHost) (proc : ProcAddr) : GwHost :=
  match (host.cell proc).state with
  | .running => host
  | .overloaded => gwProcCheckEnable now host proc
  | .killed => host
  | .diedWaitForPid =>
    let (rc, host) := gwProcWaitpid now (exited proc) host proc
    let host := if rc = 0 then gwProcCheckEnable now host proc else host
    if (host.cell proc).state ≠ .died then host else restartDead now (calls proc) host proc
  | .died => restartDead now (calls proc) host proc

/-- `gw_restart_dead_procs`. -/
def gwRestartDeadProcs (now : ℤ) (exited : ProcAddr → Bool) (calls : ProcAddr → SpawnCalls)
    (host : GwHost) : Option GwHost :=
  GwHost.forProcs (restartProc now exited calls) host.live.length host.first host

/-- What a call of `gw_handle_trigger_host` is given: what `waitpid` says in each of its loops,
the calls for the processes it restarts, and those of the spawn. -/
structure TriggerInput where
  exited : ProcAddr → Bool
  restartExited : ProcAddr → Bool
  restartCalls : ProcAddr → SpawnCalls
  spawn : SpawnInput
  unusedExited : ProcAddr → Bool

/-- The loop over the children on one of the lists. -/
def waitpidProcs (now : ℤ) (exited : ProcAddr → Bool) (p : Option ProcAddr) (host : GwHost) :
    Option GwHost :=
  GwHost.forProcs (fun host proc => (gwProcWaitpid now (exited proc) host proc).2)
    host.live.length p host

/-- The overload test: no process has room for another request. -/
def overload (host : GwHost) (procs : List ProcAddr) : Bool :=
  procs.all fun proc => decide (host.conf.maxLoadPerProc < (host.cell proc).load)

/-- A new child is spawned on overload. -/
def triggerSpawn (input : SpawnInput) (host : GwHost) : Option GwHost :=
  match host.listed host.first with
  | none => none
  | some procs =>
    if overload host procs ∧ host.numProcs ≠ 0 ∧ host.numProcs < host.conf.maxProcs then
      gwProcSpawn input host
    else some host

/-- The process that has been idling for a long time. -/
def idleProc (now : ℤ) (host : GwHost) (procs : List ProcAddr) : Option ProcAddr :=
  procs.find? fun proc => decide (host.conf.minProcs < host.numProcs ∧ (host.cell proc).load = 0 ∧
    0 < (host.cell proc).pid ∧ (host.cell proc).lastUsed < now - host.conf.idleTimeout)

/-- One idle process is terminated. -/
def triggerKill (now : ℤ) (host : GwHost) : Option GwHost :=
  match host.listed host.first with
  | none => none
  | some procs =>
    match idleProc now host procs with
    | none => some host
    | some proc => some (gwProcKill host proc)

/-- `gw_handle_trigger_host`. -/
def gwHandleTriggerHost (input : TriggerInput) (host : GwHost) : Option GwHost :=
  let now := input.spawn.now
  (waitpidProcs now input.exited host.first host).bind fun host =>
  (gwRestartDeadProcs now input.restartExited input.restartCalls host).bind fun host =>
  if host.conf.minProcs = host.conf.maxProcs then some host
  else if !host.conf.binPath then some host
  else
    (triggerSpawn input.spawn host).bind fun host =>
    (triggerKill now host).bind fun host =>
    waitpidProcs now input.unusedExited host.unusedProcs host

/-- `gw_handle_trigger_exts_wkr` at one host. -/
def gwHandleTriggerWkr (now : ℤ) (host : GwHost) : Option GwHost :=
  GwHost.forProcs
    (fun host proc =>
      if (host.cell proc).state = .overloaded then gwProcCheckEnable now host proc else host)
    host.live.length host.first host

/-- The child that `gw_handle_waitpid_cb` looks for on a list. -/
def localChild (host : GwHost) (pid : ℤ) (procs : List ProcAddr) : Option ProcAddr :=
  procs.find? fun proc => (host.cell proc).isLocal && (host.cell proc).pid == pid

/-- `gw_handle_waitpid_cb` at a child on `first`: it is restarted at once. -/
def waitpidCbFirst (now : ℤ) (calls : SpawnCalls) (host : GwHost) (proc : ProcAddr) : GwHost :=
  let host := gwProcSetState host proc .died
  let host := host.modify proc fun p => { p with pid := 0 }
  if (host.cell proc).disabledUntil < now then
    let host := host.modify proc fun p =>
      { p with disabledUntil := if p.state ≠ .killed then now else p.disabledUntil }
    (gwSpawnConnection now calls host proc).2
  else host

/-- `gw_handle_waitpid_cb` at one host. -/
def gwHandleWaitpidCb (now : ℤ) (pid : ℤ) (calls : SpawnCalls) (host : GwHost) :
    Option GwHost :=
  match host.listed host.first, host.listed host.unusedProcs with
  | some procs, some unused =>
    match localChild host pid procs with
    | some proc => some (waitpidCbFirst now calls host proc)
    | none =>
      match localChild host pid unused with
      | some proc => some (gwProcReap now host proc)
      | none => some host
  | _, _ => none

end Lighttpd
