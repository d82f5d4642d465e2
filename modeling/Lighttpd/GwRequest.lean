import Lighttpd.GwProcRun

/-!
# Requests at a backend

A request that an extension matches gets a context (`gw_handler_ctx`), which is bound to a host
and, once it connects, to one of the processes of the host. Both count the requests bound to them
in `load`. The outcomes of the system calls and the host that `gw_host_get` chose are given to the
functions; what the choice spawned is a step of the bookkeeping of the host.
-/

namespace Lighttpd

open Function

/-- `handler_t`. -/
inductive HandlerT
  | goOn
  | finished
  | comeback
  | waitForEvent
  | error
  | waitForFd
  deriving DecidableEq, Repr

/-- `gw_connection_state_t`. -/
inductive GwConnectionState
  | init
  | connectDelayed
  | prepareWrite
  | write
  | read
  deriving DecidableEq, Repr

/-- The address of a host. -/
abbrev HostId := ℕ

/-- `gw_handler_ctx`: the host and the process it is bound to, its state, the child it connected
to and how often it was connected again. -/
structure GwHandlerCtx where
  host : Option HostId
  proc : Option ProcAddr
  state : GwConnectionState
  pid : ℤ
  reconnects : ℕ
  deriving DecidableEq, Repr

/-- A connection: whether its mode is `DIRECT`, and the context of the request. -/
structure GwCon where
  direct : Bool
  hctx : Option GwHandlerCtx
  deriving DecidableEq, Repr

/-- The hosts of the backends and the connections. -/
structure GwServer where
  hosts : HostId → GwHost
  cons : List GwCon

/-- `fdevent_socket_nb_cloexec`. -/
inductive SocketCall
  | opened
  | emfile
  | eintr
  | failed
  deriving DecidableEq, Repr

/-- `gw_establish_connection`. -/
inductive ConnectCall
  | connected
  | inProgress
  | failed
  deriving DecidableEq, Repr

/-- The outcomes of the calls of `gw_write_request`. -/
structure WriteInput where
  now : ℤ
  socket : SocketCall
  connect : ConnectCall
  /-- `fdevent_connect_status` reports an error. -/
  socketError : Bool
  createEnv : HandlerT
  /-- The write to the backend fails. -/
  writeError : Bool
  /-- The whole request was written. -/
  written : Bool
  deriving DecidableEq, Repr

/-- What `gw_check_extension` finds: whether an extension matches, the host of `gw_host_get`, and
whether the path has to be checked locally first. -/
structure CheckInput where
  matched : Bool
  host : Option HostId
  checkLocal : Bool
  deriving DecidableEq, Repr

/-- `gw_proc_load_inc`. -/
def gwProcLoadInc (host : GwHost) (proc : ProcAddr) : GwHost :=
  host.modify proc fun p => { p with load := p.load + 1 }

/-- `gw_proc_load_dec`. -/
def gwProcLoadDec (host : GwHost) (proc : ProcAddr) : GwHost :=
  host.modify proc fun p => { p with load := p.load - 1 }

/-- `gw_host_assign`. -/
def gwHostAssign (host : GwHost) : GwHost := { host with load := host.load + 1 }

/-- `gw_host_reset`. -/
def gwHostReset (host : GwHost) : GwHost := { host with load := host.load - 1 }

/-! ## The code -/

/-- `gw_write_request` in `GW_STATE_WRITE`. -/
def gwWrite (input : WriteInput) (host : GwHost) (ctx : GwHandlerCtx) :
    HandlerT × GwHost × GwHandlerCtx :=
  if input.writeError then (.error, host, ctx)
  else if input.written then (.waitForEvent, host, { ctx with state := .read })
  else (.waitForEvent, host, ctx)

/-- `gw_write_request` from `GW_STATE_PREPARE_WRITE` on. -/
def gwPrepareWrite (input : WriteInput) (host : GwHost) (ctx : GwHandlerCtx) :
    HandlerT × GwHost × GwHandlerCtx :=
  if input.createEnv ≠ .goOn then (input.createEnv, host, ctx)
  else gwWrite input host { ctx with state := .write }

/-- `gw_write_request` from `gw_proc_connect_success` on. -/
def gwConnected (input : WriteInput) (host : GwHost) (ctx : GwHandlerCtx) (proc : ProcAddr) :
    HandlerT × GwHost × GwHandlerCtx :=
  gwPrepareWrite input (host.modify proc fun p => { p with lastUsed := input.now })
    { ctx with state := .prepareWrite }

/-- `gw_write_request` in `GW_STATE_INIT` with the process it chose. -/
def gwConnect (input : WriteInput) (host : GwHost) (ctx : GwHandlerCtx) (proc : ProcAddr) :
    HandlerT × GwHost × GwHandlerCtx :=
  match input.socket with
  -- the state is left as it is, and the request is tried again when a descriptor is free
  | .emfile => (.waitForFd, host, ctx)
  | .eintr => (.waitForFd, host, ctx)
  | .failed => (.error, host, ctx)
  | .opened =>
    let ctx :=
      if (host.cell proc).isLocal then { ctx with pid := (host.cell proc).pid } else ctx
    match input.connect with
    | .inProgress => (.waitForEvent, host, { ctx with state := .connectDelayed })
    | .failed => (.error, gwProcConnectError input.now ctx.pid host proc, ctx)
    | .connected => gwConnected input host { ctx with reconnects := 0 } proc

/-- The running process with the lowest load among `best` and the processes behind it. -/
def lowerLoad (host : GwHost) (best : ProcAddr) : List ProcAddr → ProcAddr
  | [] => best
  | proc :: procs =>
    if (host.cell proc).state = .running ∧ (host.cell proc).load < (host.cell best).load then
      lowerLoad host proc procs
    else lowerLoad host best procs

/-- The process of the host that `gw_write_request` connects to. -/
def chooseProc (host : GwHost) : List ProcAddr → Option ProcAddr
  | [] => none
  | proc :: procs =>
    if (host.cell proc).state = .running then some (lowerLoad host proc procs)
    else chooseProc host procs

/-- `gw_write_request`; a context without a process can only be in `GW_STATE_INIT`. -/
def gwWriteRequest (input : WriteInput) (host : GwHost) (ctx : GwHandlerCtx) :
    Option (HandlerT × GwHost × GwHandlerCtx) :=
  match ctx.state with
  | .init =>
    (host.listed host.first).map fun procs =>
      match chooseProc host procs with
      | none => (.error, host, { ctx with proc := none })
      | some proc => gwConnect input (gwProcLoadInc host proc) { ctx with proc := some proc } proc
  | .connectDelayed =>
    ctx.proc.map fun proc =>
      if input.socketError then
        (.error, gwProcConnectError input.now ctx.pid host proc, ctx)
      else gwConnected input host ctx proc
  | .prepareWrite => some (gwPrepareWrite input host ctx)
  | .write => some (gwWrite input host ctx)
  | .read => some (.waitForEvent, host, ctx)

/-- `if (hctx->proc) gw_proc_release(proc)`. -/
def gwProcRelease? (host : GwHost) (proc : Option ProcAddr) : GwHost :=
  match proc with
  | none => host
  | some proc => gwProcLoadDec host proc

/-- `gw_backend_close`. -/
def gwBackendClose (hosts : HostId → GwHost) (ctx : GwHandlerCtx) : (HostId → GwHost) × GwHandlerCtx :=
  match ctx.host with
  | none => (hosts, ctx)
  | some h =>
    (update hosts h (gwHostReset (gwProcRelease? (hosts h) ctx.proc)),
      { ctx with host := none, proc := none })

/-- `gw_reconnect` with the host of `gw_host_get`. -/
def gwReconnect (choice : Option HostId) (hosts : HostId → GwHost) (ctx : GwHandlerCtx) :
    HandlerT × (HostId → GwHost) × GwHandlerCtx :=
  let (hosts, ctx) := gwBackendClose hosts ctx
  match choice with
  | none => (.finished, hosts, ctx)
  | some h => (.comeback, update hosts h (gwHostAssign (hosts h)),
      { ctx with host := some h, state := .init })

/-- `handler_ctx_init`. -/
def handlerCtxInit : GwHandlerCtx :=
  { host := none, proc := none, state := .init, pid := 0, reconnects := 0 }

/-- `gw_check_extension` behind the test of its callers that the mode is `DIRECT`. -/
def gwCheckExtension (input : CheckInput) (hosts : HostId → GwHost) (con : GwCon) :
    HandlerT × (HostId → GwHost) × GwCon :=
  if !con.direct then (.goOn, hosts, con)
  else if !input.matched then (.goOn, hosts, con)
  else
    match input.host with
    | none => (.finished, hosts, { con with direct := true })
    | some h =>
      if input.checkLocal then (.goOn, hosts, con)
      else
        let ctx := con.hctx.getD handlerCtxInit
        (.goOn, update hosts h (gwHostAssign (hosts h)),
          { direct := false, hctx := some { ctx with host := some h, proc := none } })

/-- One step of the server: a function of the backends for one connection, an answer without the
backend, or a step of the bookkeeping of a host. -/
inductive GwOp
  | checkExtension (c : ℕ) (input : CheckInput)
  | writeRequest (c : ℕ) (input : WriteInput)
  | reconnect (c : ℕ) (choice : Option HostId)
  | backendClose (c : ℕ)
  | connectionReset (c : ℕ)
  | answerDirect (c : ℕ)
  | bookkeeping (h : HostId) (op : HostOp)

/-- A function of the backends at a connection. -/
def GwServer.atCon (s : GwServer) (c : ℕ)
    (f : (HostId → GwHost) → GwCon → Option ((HostId → GwHost) × GwCon)) : Option GwServer :=
  match s.cons[c]? with
  | none => none
  | some con => (f s.hosts con).map fun res => { hosts := res.1, cons := s.cons.set c res.2 }

/-- `gw_write_request` for a connection, whose context is bound to a host. -/
def writeRequestAt (input : WriteInput) (hosts : HostId → GwHost) (con : GwCon) :
    Option ((HostId → GwHost) × GwCon) :=
  match con.hctx with
  | none => none
  | some ctx =>
    match ctx.host with
    | none => none
    | some h => (gwWriteRequest input (hosts h) ctx).map fun res =>
        (update hosts h res.2.1, { con with hctx := some res.2.2 })

/-- `gw_reconnect` for a connection; `gw_host_get` sets the mode when it finds no host. -/
def reconnectAt (choice : Option HostId) (hosts : HostId → GwHost) (con : GwCon) :
    Option ((HostId → GwHost) × GwCon) :=
  con.hctx.map fun ctx =>
    let (_, hosts, ctx) := gwReconnect choice hosts ctx
    (hosts, { direct := con.direct || choice.isNone, hctx := some ctx })

/-- `gw_backend_close` for a connection. -/
def backendCloseAt (hosts : HostId → GwHost) (con : GwCon) : Option ((HostId → GwHost) × GwCon) :=
  con.hctx.map fun ctx =>
    let (hosts, ctx) := gwBackendClose hosts ctx
    (hosts, { con with hctx := some ctx })

/-- `gw_connection_reset`: the context is closed and freed. -/
def gwConnectionReset (hosts : HostId → GwHost) (con : GwCon) : (HostId → GwHost) × GwCon :=
  match con.hctx with
  | none => (hosts, con)
  | some ctx => ((gwBackendClose hosts ctx).1, { con with hctx := none })

/-- The server after the step. -/
def gwStep (s : GwServer) : GwOp → Option GwServer
  | .checkExtension c input =>
    s.atCon c fun hosts con => some (gwCheckExtension input hosts con).2
  | .writeRequest c input => s.atCon c (writeRequestAt input)
  | .reconnect c choice => s.atCon c (reconnectAt choice)
  | .backendClose c => s.atCon c backendCloseAt
  | .connectionReset c => s.atCon c fun hosts con => some (gwConnectionReset hosts con)
  | .answerDirect c => s.atCon c fun hosts con => some (hosts, { con with direct := true })
  | .bookkeeping h op =>
    (hostStep (s.hosts h) op).map fun host => { s with hosts := update s.hosts h host }

end Lighttpd
