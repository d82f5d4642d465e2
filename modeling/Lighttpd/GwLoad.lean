import Lighttpd.GwRequest

/-!
# Load accounting

The load of a host is the number of contexts bound to it, and that of a process the number of
contexts bound to the process, as long as no step gives a context a new process or host before it
released the one it had (`gwRun_balanced_iff`). `gw_write_request` does so when it is tried again
after it waited for a descriptor.
-/

namespace Lighttpd

open DoublyLinked Function

variable {host host' : GwHost} {hosts hosts' : HostId → GwHost} {con con' : GwCon} {s s' : GwServer}
  {ctx : GwHandlerCtx} {proc : ProcAddr} {c d : ℕ} {l l' u : List ProcAddr}
  {res : HandlerT × GwHost × GwHandlerCtx} {input : WriteInput}

/-! ## The contexts of a host and of a process -/

/-- The host of the context of a connection. -/
def GwCon.boundHost (con : GwCon) : Option HostId := con.hctx.bind GwHandlerCtx.host

/-- The process of the context of a connection. -/
def GwCon.boundProc (con : GwCon) : Option ProcAddr := con.hctx.bind GwHandlerCtx.proc

/-- What the connection adds to the load of the host `h`. -/
def GwCon.onHost (con : GwCon) (h : HostId) : ℤ := if con.boundHost = some h then 1 else 0

/-- What the connection adds to the load of the process `p` of `h`. -/
def GwCon.onProc (con : GwCon) (h : HostId) (p : ProcAddr) : ℤ :=
  if con.boundHost = some h ∧ con.boundProc = some p then 1 else 0

/-- The number of contexts bound to the host. -/
def GwServer.boundToHost (s : GwServer) (h : HostId) : ℕ :=
  s.cons.countP fun con => con.boundHost = some h

/-- The number of contexts bound to the process. -/
def GwServer.boundToProc (s : GwServer) (h : HostId) (p : ProcAddr) : ℕ :=
  s.cons.countP fun con => con.boundHost = some h ∧ con.boundProc = some p

theorem countP_set_eq {α : Type*} {q : α → Bool} {xs : List α} {i : ℕ} {x y : α}
    (h : xs[i]? = some x) : ((xs.set i y).countP q : ℤ) =
      xs.countP q + (if q y then 1 else 0) - (if q x then 1 else 0) := by
  obtain ⟨hi, rfl⟩ := List.getElem?_eq_some_iff.mp h
  rw [List.countP_set hi]
  by_cases hq : q xs[i] = true
  · have hpos : 0 < xs.countP q := List.countP_pos_iff.mpr ⟨_, List.getElem_mem hi, hq⟩
    simp only [hq, if_true]
    split_ifs <;> omega
  · simp only [hq, if_false, Bool.false_eq_true]
    split_ifs <;> omega

theorem boundToHost_set (hosts : HostId → GwHost) (hc : s.cons[c]? = some con) (con' : GwCon) (h : HostId) :
    ((GwServer.mk hosts (s.cons.set c con')).boundToHost h : ℤ) =
      s.boundToHost h + con'.onHost h - con.onHost h := by
  simpa [GwServer.boundToHost, GwCon.onHost] using
    countP_set_eq (q := fun con => con.boundHost = some h) (y := con') hc

theorem boundToProc_set (hosts : HostId → GwHost) (hc : s.cons[c]? = some con) (con' : GwCon) (h : HostId)
    (p : ProcAddr) : ((GwServer.mk hosts (s.cons.set c con')).boundToProc h p : ℤ) =
      s.boundToProc h p + con'.onProc h p - con.onProc h p := by
  simpa [GwServer.boundToProc, GwCon.onProc] using
    countP_set_eq (q := fun con => con.boundHost = some h ∧ con.boundProc = some p) (y := con') hc

/-! ## `gw_write_request` -/

/-- The lists and the loads stay, and so does what the context is bound to. -/
structure Quiet (l u : List ProcAddr) (d : ℕ) (host : GwHost) (ctx : GwHandlerCtx)
    (res : HandlerT × GwHost × GwHandlerCtx) : Prop where
  tracks : Tracks res.2.1 l u d
  live : res.2.1.live = host.live
  hostLoad : res.2.1.load = host.load
  load : ∀ p, (res.2.1.cell p).load = (host.cell p).load
  ctxHost : res.2.2.host = ctx.host
  ctxProc : res.2.2.proc = ctx.proc

theorem Quiet.of_step {rc : HandlerT} {ctx' : GwHandlerCtx} (ht : Tracks host l u d)
    (hmem : proc ∈ l) (h : ProcStep proc host host') (hh : ctx'.host = ctx.host)
    (hp : ctx'.proc = ctx.proc) : Quiet l u d host ctx (rc, host', ctx') :=
  ⟨ht.step_first hmem h, h.live, h.hostLoad, h.load, hh, hp⟩

theorem gwPrepareWrite_quiet (input : WriteInput) (ctx : GwHandlerCtx) (ht : Tracks host l u d) :
    Quiet l u d host ctx (gwPrepareWrite input host ctx) := by
  unfold gwPrepareWrite gwWrite
  split_ifs <;> exact ⟨ht, rfl, rfl, fun _ => rfl, rfl, rfl⟩

theorem gwWrite_quiet (input : WriteInput) (ctx : GwHandlerCtx) (ht : Tracks host l u d) :
    Quiet l u d host ctx (gwWrite input host ctx) := by
  unfold gwWrite
  split_ifs <;> exact ⟨ht, rfl, rfl, fun _ => rfl, rfl, rfl⟩

theorem gwConnected_quiet (input : WriteInput) (ctx : GwHandlerCtx) (ht : Tracks host l u d)
    (hmem : proc ∈ l) : Quiet l u d host ctx (gwConnected input host ctx proc) := by
  have hused : ProcStep proc host (host.modify proc fun p => { p with lastUsed := input.now }) :=
    .modify (fun _ => rfl) (fun _ => rfl) (fun _ => rfl) fun _ => rfl
  have hq := gwPrepareWrite_quiet input { ctx with state := .prepareWrite }
    (ht.step_first hmem hused)
  exact ⟨hq.tracks, hq.live, hq.hostLoad, fun p => (hq.load p).trans (hused.load p), hq.ctxHost,
    hq.ctxProc⟩

theorem gwConnect_quiet (input : WriteInput) (ctx : GwHandlerCtx) (ht : Tracks host l u d)
    (hmem : proc ∈ l) : Quiet l u d host ctx (gwConnect input host ctx proc) := by
  have hsame : ∀ (rc : HandlerT) (ctx' : GwHandlerCtx), ctx'.host = ctx.host →
      ctx'.proc = ctx.proc → Quiet l u d host ctx (rc, host, ctx') := fun _ _ hh hp =>
    .of_step ht hmem (.refl proc host) hh hp
  -- the context with the child it connects to
  obtain ⟨ctx₁, hctx₁, hh, hp⟩ : ∃ ctx₁ : GwHandlerCtx,
      ctx₁ = (if (host.cell proc).isLocal then { ctx with pid := (host.cell proc).pid } else ctx) ∧
        ctx₁.host = ctx.host ∧ ctx₁.proc = ctx.proc := by
    refine ⟨_, rfl, ?_⟩
    split_ifs <;> exact ⟨rfl, rfl⟩
  unfold gwConnect
  rw [← hctx₁]
  rcases input.socket with _ | _ | _ | _
  · rcases input.connect with _ | _ | _
    · have hq := gwConnected_quiet input { ctx₁ with reconnects := 0 } ht hmem
      exact { hq with ctxHost := hq.ctxHost.trans hh, ctxProc := hq.ctxProc.trans hp }
    · exact hsame _ _ hh hp
    · exact .of_step ht hmem (gwProcConnectError_step input.now ctx₁.pid host proc) hh hp
  · exact hsame _ _ rfl rfl
  · exact hsame _ _ rfl rfl
  · exact hsame _ _ rfl rfl

theorem lowerLoad_mem (host : GwHost) : ∀ (procs : List ProcAddr) (best : ProcAddr),
    lowerLoad host best procs ∈ best :: procs
  | [], best => List.mem_cons_self
  | proc :: procs, best => by
    rw [lowerLoad]
    split_ifs
    · exact List.mem_cons_of_mem best (lowerLoad_mem host procs proc)
    · rcases List.mem_cons.mp (lowerLoad_mem host procs best) with h | h
      · rw [h]
        exact List.mem_cons_self
      · exact List.mem_cons_of_mem best (List.mem_cons_of_mem proc h)

theorem chooseProc_mem : ∀ {procs : List ProcAddr}, chooseProc host procs = some proc → proc ∈ procs
  | [], h => by simp [chooseProc] at h
  | b :: procs, h => by
    rw [chooseProc] at h
    split_ifs at h
    · exact Option.some.inj h ▸ lowerLoad_mem host procs b
    · exact List.mem_cons_of_mem b (chooseProc_mem h)

theorem gwProcLoadInc_load (host : GwHost) (proc p : ProcAddr) :
    ((gwProcLoadInc host proc).cell p).load =
      (host.cell p).load + if some proc = some p then 1 else 0 := by
  by_cases hp : p = proc
  · simp [hp, gwProcLoadInc]
  · simp [gwProcLoadInc, GwHost.modify_cell_of_ne _ hp, Ne.symm hp]

theorem gwProcLoadDec_load (host : GwHost) (proc p : ProcAddr) :
    ((gwProcLoadDec host proc).cell p).load =
      (host.cell p).load - if some proc = some p then 1 else 0 := by
  by_cases hp : p = proc
  · simp [hp, gwProcLoadDec]
  · simp [gwProcLoadDec, GwHost.modify_cell_of_ne _ hp, Ne.symm hp]

/-- `gw_write_request` in `GW_STATE_INIT` counts the process it binds the context to, and forgets
the one the context had. In the other states it binds nothing. -/
structure WriteSpec (l u : List ProcAddr) (d : ℕ) (host : GwHost) (ctx : GwHandlerCtx)
    (res : HandlerT × GwHost × GwHandlerCtx) : Prop where
  tracks : Tracks res.2.1 l u d
  live : res.2.1.live = host.live
  hostLoad : res.2.1.load = host.load
  load : ∀ p, (res.2.1.cell p).load = (host.cell p).load +
    (if res.2.2.proc = some p then 1 else 0) -
      (if ctx.state = .init then 0 else if ctx.proc = some p then 1 else 0)
  ctxHost : res.2.2.host = ctx.host
  ctxProc : ∀ p, res.2.2.proc = some p → p ∈ l

theorem Quiet.writeSpec (h : Quiet l u d host ctx res) (hstate : ctx.state ≠ .init)
    (hmem : ∀ p, ctx.proc = some p → p ∈ l) :
    WriteSpec l u d host ctx res where
  tracks := h.tracks
  live := h.live
  hostLoad := h.hostLoad
  load p := by
    rw [h.load, h.ctxProc, if_neg hstate]
    omega
  ctxHost := h.ctxHost
  ctxProc p hp := hmem p (h.ctxProc ▸ hp)

theorem gwWriteRequest_spec (ht : Tracks host l u d) (hmem : ∀ p, ctx.proc = some p → p ∈ l)
    (h : gwWriteRequest input host ctx = some res) : WriteSpec l u d host ctx res := by
  by_cases hinit : ctx.state = .init
  · -- the process is chosen among those of `first`
    rw [gwWriteRequest, hinit] at h
    dsimp only at h
    rw [ht.listed_first, Option.map_some] at h
    obtain rfl := Option.some.inj h
    rcases hchoose : chooseProc host l with _ | proc
    · exact ⟨ht, rfl, rfl, fun p => by simp [hinit], rfl, fun p hp => by simp at hp⟩
    · have hl := chooseProc_mem hchoose
      have hinc : Tracks (gwProcLoadInc host proc) l u d :=
        ht.modify (fun _ => rfl) (fun _ => rfl) fun _ => rfl
      have hq := gwConnect_quiet input { ctx with proc := some proc } hinc hl
      rw [hinit] at hq
      refine ⟨hq.tracks, hq.live, hq.hostLoad, fun p => ?_, hq.ctxHost, fun p hp => ?_⟩
      · dsimp only
        rw [hq.load, hq.ctxProc, if_pos hinit, gwProcLoadInc_load, sub_zero]
      · have hp' := hq.ctxProc.symm.trans hp
        exact Option.some.inj hp' ▸ hl
  · refine Quiet.writeSpec ?_ hinit hmem
    rcases hstate : ctx.state with _ | _ | _ | _ | _ <;> rw [gwWriteRequest, hstate] at h <;>
      dsimp only at h
    · exact absurd hstate hinit
    · obtain ⟨proc, hproc, rfl⟩ := Option.map_eq_some_iff.mp h
      have hl := hmem proc hproc
      split_ifs
      · exact .of_step ht hl (gwProcConnectError_step input.now ctx.pid host proc) rfl rfl
      · exact gwConnected_quiet input ctx ht hl
    · exact Option.some.inj h ▸ gwPrepareWrite_quiet input ctx ht
    · exact Option.some.inj h ▸ gwWrite_quiet input ctx ht
    · exact Option.some.inj h ▸ ⟨ht, rfl, rfl, fun _ => rfl, rfl, rfl⟩

/-! ## What a function of the backends does to the loads -/

variable {L U : HostId → List ProcAddr} {D : HostId → ℕ} {leakHost leakProc : Bool}

variable {h : HostId} {res : (HostId → GwHost) × GwCon}

theorem GwCon.onHost_eq_zero (hh : con.boundHost ≠ some h) : con.onHost h = 0 := if_neg hh

theorem GwCon.onProc_eq_zero {p : ProcAddr} (hh : con.boundHost ≠ some h) :
    con.onProc h p = 0 := if_neg fun hb => hh hb.1

/-- The loads changed with what the connection is bound to; with `leakHost` or `leakProc` what it
was bound to before is still counted. -/
structure Effect (L U : HostId → List ProcAddr) (D : HostId → ℕ) (leakHost leakProc : Bool)
    (hosts : HostId → GwHost) (con : GwCon) (hosts' : HostId → GwHost) (con' : GwCon) : Prop where
  tracks : ∀ h, Tracks (hosts' h) (L h) (U h) (D h)
  live : ∀ h, (hosts' h).live = (hosts h).live
  hostLoad : ∀ h, (hosts' h).load =
    (hosts h).load + con'.onHost h - if leakHost then 0 else con.onHost h
  procLoad : ∀ h p, ((hosts' h).cell p).load =
    ((hosts h).cell p).load + con'.onProc h p - if leakProc then 0 else con.onProc h p
  listed : ∀ h p, con'.onProc h p ≠ 0 → p ∈ L h
  closed : con'.boundHost = none → con'.boundProc = none

/-- The lists of all hosts, and a connection that is bound to processes of `first` only. -/
structure Bound (L U : HostId → List ProcAddr) (D : HostId → ℕ) (hosts : HostId → GwHost) (con : GwCon) :
    Prop where
  tracks : ∀ h, Tracks (hosts h) (L h) (U h) (D h)
  listed : ∀ h p, con.onProc h p ≠ 0 → p ∈ L h
  closed : con.boundHost = none → con.boundProc = none

/-- Nothing happens to the hosts, nor to what the connection is bound to. -/
theorem Bound.same (hb : Bound L U D hosts con) (hh : con'.boundHost = con.boundHost)
    (hp : con'.boundProc = con.boundProc) : Effect L U D false false hosts con hosts con' := by
  have hon : ∀ h, con'.onHost h = con.onHost h := fun h => by rw [GwCon.onHost, GwCon.onHost, hh]
  have hon' : ∀ h p, con'.onProc h p = con.onProc h p := fun h p => by
    rw [GwCon.onProc, GwCon.onProc, hh, hp]
  refine ⟨hb.tracks, fun _ => rfl, fun h => by simp [hon], fun h p => by simp [hon'],
    fun h p => ?_, ?_⟩
  · rw [hon']
    exact hb.listed h p
  · rw [hh, hp]
    exact hb.closed

theorem Tracks.withLoad {n : ℤ} (ht : Tracks host l u d) : Tracks { host with load := n } l u d :=
  { ht with }

theorem gwProcRelease?_spec (proc : Option ProcAddr) (ht : Tracks host l u d) :
    Tracks (gwProcRelease? host proc) l u d ∧ (gwProcRelease? host proc).live = host.live ∧
      (gwProcRelease? host proc).load = host.load ∧
      ∀ p, ((gwProcRelease? host proc).cell p).load =
        (host.cell p).load - if proc = some p then 1 else 0 := by
  rcases proc with _ | proc
  · exact ⟨ht, rfl, rfl, by simp [gwProcRelease?]⟩
  · have hdec : Tracks (gwProcLoadDec host proc) l u d :=
      ht.modify (fun _ => rfl) (fun _ => rfl) fun _ => rfl
    exact ⟨hdec, rfl, rfl, gwProcLoadDec_load host proc⟩

/-- `gw_backend_close` takes back what was counted for the context. -/
theorem gwBackendClose_effect {direct : Bool}
    (hb : Bound L U D hosts { direct := direct, hctx := some ctx }) (direct' : Bool) :
    Effect L U D false false hosts { direct := direct, hctx := some ctx } (gwBackendClose hosts ctx).1
        { direct := direct', hctx := some (gwBackendClose hosts ctx).2 } ∧
      (gwBackendClose hosts ctx).2.host = none := by
  unfold gwBackendClose
  rcases hh : ctx.host with _ | h
  · exact ⟨hb.same (by simp [GwCon.boundHost]) (by simp [GwCon.boundProc]), hh⟩
  · refine ⟨?_, rfl⟩
    obtain ⟨ht', hlive', hload', hproc'⟩ := gwProcRelease?_spec ctx.proc (hb.tracks h)
    dsimp only
    refine ⟨fun k => ?_, fun k => ?_, fun k => ?_, fun k p => ?_, fun k p hne => ?_, fun _ => rfl⟩
    · by_cases hk : k = h
      · subst hk
        rw [update_self]
        exact ht'.withLoad
      · rw [update_of_ne hk]
        exact hb.tracks k
    · by_cases hk : k = h
      · subst hk
        rw [update_self]
        exact hlive'
      · rw [update_of_ne hk]
    · by_cases hk : k = h
      · subst hk
        simp [GwCon.onHost, GwCon.boundHost, hh, gwHostReset, hload']
      · simp [GwCon.onHost, GwCon.boundHost, hh, update_of_ne hk, Ne.symm hk]
    · by_cases hk : k = h
      · subst hk
        simp [GwCon.onProc, GwCon.boundHost, GwCon.boundProc, hh, gwHostReset, hproc']
      · simp [GwCon.onProc, GwCon.boundHost, GwCon.boundProc, hh, update_of_ne hk, Ne.symm hk]
    · simp [GwCon.onProc, GwCon.boundHost] at hne

/-- A context is bound to a host; whatever it was bound to is still counted. -/
theorem gwHostAssign_effect (con : GwCon) (direct : Bool) (ctx : GwHandlerCtx)
    (ht : ∀ h, Tracks (hosts h) (L h) (U h) (D h)) (hh : ctx.host = some h) (hp : ctx.proc = none) :
    Effect L U D true true hosts con (update hosts h (gwHostAssign (hosts h)))
      { direct := direct, hctx := some ctx } := by
  refine ⟨fun k => ?_, fun k => ?_, fun k => ?_, fun k p => ?_, fun k p hne => ?_, fun hn => ?_⟩
  · by_cases hk : k = h
    · subst hk
      rw [update_self]
      exact (ht k).withLoad
    · rw [update_of_ne hk]
      exact ht k
  · by_cases hk : k = h
    · subst hk
      rw [update_self]
      rfl
    · rw [update_of_ne hk]
  · by_cases hk : k = h
    · subst hk
      simp [GwCon.onHost, GwCon.boundHost, hh, gwHostAssign]
    · simp [GwCon.onHost, GwCon.boundHost, hh, update_of_ne hk, Ne.symm hk]
  · by_cases hk : k = h
    · subst hk
      simp [GwCon.onProc, GwCon.boundProc, hp, gwHostAssign]
    · simp [GwCon.onProc, GwCon.boundProc, hp, update_of_ne hk]
  · simp [GwCon.onProc, GwCon.boundProc, hp] at hne
  · exact absurd hn (by simp [GwCon.boundHost, hh])

/-- What is still counted is nothing when the connection was bound to nothing. -/
theorem Effect.of_unbound (h : Effect L U D leakHost leakProc hosts con hosts' con')
    (hh : con.boundHost = none) : Effect L U D false false hosts con hosts' con' := by
  have hon : ∀ k, con.onHost k = 0 := fun k => GwCon.onHost_eq_zero (by simp [hh])
  have hon' : ∀ k p, con.onProc k p = 0 := fun k p => GwCon.onProc_eq_zero (by simp [hh])
  exact { h with
    hostLoad := fun k => by simpa [hon] using h.hostLoad k
    procLoad := fun k p => by simpa [hon'] using h.procLoad k p }

theorem Effect.trans {hosts'' : HostId → GwHost} {con'' : GwCon}
    (h : Effect L U D false false hosts con hosts' con')
    (h' : Effect L U D false false hosts' con' hosts'' con'') :
    Effect L U D false false hosts con hosts'' con'' where
  tracks := h'.tracks
  live k := (h'.live k).trans (h.live k)
  hostLoad k := by
    have := h.hostLoad k
    have := h'.hostLoad k
    simp only [Bool.false_eq_true, if_false] at *
    omega
  procLoad k p := by
    have := h.procLoad k p
    have := h'.procLoad k p
    simp only [Bool.false_eq_true, if_false] at *
    omega
  listed := h'.listed
  closed := h'.closed

theorem Effect.of_unboundProc (h : Effect L U D false leakProc hosts con hosts' con')
    (hp : con.boundProc = none) : Effect L U D false false hosts con hosts' con' := by
  have hon : ∀ k p, con.onProc k p = 0 := fun k p => if_neg fun hb => by simp [hp] at hb
  exact { h with procLoad := fun k p => by simpa [hon] using h.procLoad k p }

theorem backendCloseAt_effect (hb : Bound L U D hosts con) (h : backendCloseAt hosts con = some res) :
    Effect L U D false false hosts con res.1 res.2 := by
  obtain ⟨direct, hctx⟩ := con
  obtain ⟨ctx, hctx', rfl⟩ := Option.map_eq_some_iff.mp h
  obtain rfl : hctx = some ctx := hctx'
  exact (gwBackendClose_effect hb direct).1

theorem gwConnectionReset_effect (hb : Bound L U D hosts con) :
    Effect L U D false false hosts con (gwConnectionReset hosts con).1
      (gwConnectionReset hosts con).2 := by
  obtain ⟨direct, _ | ctx⟩ := con
  · exact hb.same rfl rfl
  · -- a freed context and one that is closed are bound to nothing
    obtain ⟨he, hclosed⟩ := gwBackendClose_effect hb direct
    have hfree : Bound L U D (gwBackendClose hosts ctx).1
        { direct := direct, hctx := some (gwBackendClose hosts ctx).2 } :=
      ⟨he.tracks, he.listed, he.closed⟩
    refine he.trans (hfree.same ?_ ?_)
    · exact hclosed.symm
    · exact (he.closed hclosed).symm

theorem reconnectAt_effect {choice : Option HostId} (hb : Bound L U D hosts con)
    (h : reconnectAt choice hosts con = some res) :
    Effect L U D false false hosts con res.1 res.2 := by
  obtain ⟨direct, hctx⟩ := con
  obtain ⟨ctx, hctx', rfl⟩ := Option.map_eq_some_iff.mp h
  obtain rfl : hctx = some ctx := hctx'
  obtain ⟨he, hclosed⟩ := gwBackendClose_effect hb (direct || choice.isNone)
  rcases choice with _ | k
  · exact he
  · have hproc : (gwBackendClose hosts ctx).2.proc = none := he.closed hclosed
    exact he.trans (Effect.of_unbound (gwHostAssign_effect _ _
      { (gwBackendClose hosts ctx).2 with host := some k, state := .init } he.tracks rfl hproc)
      hclosed)

/-- The call binds the context of the connection to a host. -/
def CheckInput.Binds (input : CheckInput) (con : GwCon) : Prop :=
  con.direct = true ∧ input.matched = true ∧ input.host ≠ none ∧ input.checkLocal = false

theorem gwCheckExtension_effect (input : CheckInput) (hb : Bound L U D hosts con) :
    (input.Binds con → Effect L U D true true hosts con (gwCheckExtension input hosts con).2.1
      (gwCheckExtension input hosts con).2.2) ∧
    (¬ input.Binds con → Effect L U D false false hosts con (gwCheckExtension input hosts con).2.1
      (gwCheckExtension input hosts con).2.2) := by
  obtain ⟨direct, hctx⟩ := con
  unfold gwCheckExtension CheckInput.Binds
  dsimp only
  rcases direct with _ | _
  · exact ⟨fun h => by simp at h, fun _ => hb.same rfl rfl⟩
  rcases input.matched with _ | _
  · exact ⟨fun h => by simp at h, fun _ => hb.same rfl rfl⟩
  rcases input.host with _ | h
  · exact ⟨fun h => by simp at h, fun _ => hb.same rfl rfl⟩
  rcases input.checkLocal with _ | _
  · refine ⟨fun _ => ?_, fun h => by simp at h⟩
    exact gwHostAssign_effect _ false
      { hctx.getD handlerCtxInit with host := some h, proc := none } hb.tracks rfl rfl
  · exact ⟨fun h => by simp at h, fun _ => hb.same rfl rfl⟩

theorem writeRequestAt_effect (hb : Bound L U D hosts con)
    (h : writeRequestAt input hosts con = some res) :
    ∃ ctx, con.hctx = some ctx ∧ con.boundHost ≠ none ∧
      Effect L U D false (decide (ctx.state = .init)) hosts con res.1 res.2 := by
  obtain ⟨direct, _ | ctx⟩ := con
  · simp [writeRequestAt] at h
  rcases hh : ctx.host with _ | k
  · simp [writeRequestAt, hh] at h
  simp only [writeRequestAt, hh] at h
  obtain ⟨⟨rc, host', ctx'⟩, hwrite, rfl⟩ := Option.map_eq_some_iff.mp h
  have hmem : ∀ p, ctx.proc = some p → p ∈ L k := fun p hp =>
    hb.listed k p (by simp [GwCon.onProc, GwCon.boundHost, GwCon.boundProc, hh, hp])
  obtain ⟨ht, hlive, hload, hproc, hhost, hmem'⟩ := gwWriteRequest_spec (hb.tracks k) hmem hwrite
  dsimp only at ht hlive hload hproc hhost hmem'
  rw [hh] at hhost
  refine ⟨ctx, rfl, by simp [GwCon.boundHost, hh], fun j => ?_, fun j => ?_, fun j => ?_,
    fun j p => ?_, fun j p hne => ?_, fun hn => ?_⟩
  · by_cases hj : j = k
    · subst hj
      simpa using ht
    · simpa [update_of_ne hj] using hb.tracks j
  · by_cases hj : j = k
    · subst hj
      simpa using hlive
    · simp [update_of_ne hj]
  · by_cases hj : j = k
    · subst hj
      simp [GwCon.onHost, GwCon.boundHost, hh, hhost, hload]
    · simp [GwCon.onHost, GwCon.boundHost, hh, hhost, update_of_ne hj]
  · by_cases hj : j = k
    · subst hj
      simp only [update_self, hproc, GwCon.onProc, GwCon.boundHost, GwCon.boundProc,
        Option.bind_some, hh, hhost, true_and, decide_eq_true_eq]
    · simp [GwCon.onProc, GwCon.boundHost, hh, hhost, update_of_ne hj, Ne.symm hj]
  · by_cases hj : j = k
    · subst hj
      refine hmem' p ?_
      by_contra hp
      simp [GwCon.onProc, GwCon.boundProc, hp] at hne
    · simp [GwCon.onProc, GwCon.boundHost, hhost, Ne.symm hj] at hne
  · simp [GwCon.boundHost, hhost] at hn

/-- Every load is the number of contexts bound to the host or process. It is not negative, and it
is zero when no context is left. -/
structure Balanced (s : GwServer) : Prop where
  host : ∀ h, (s.hosts h).load = s.boundToHost h
  proc : ∀ h, ∀ p ∈ (s.hosts h).live, ((s.hosts h).cell p).load = s.boundToProc h p
  nonneg : ∀ h, 0 ≤ (s.hosts h).load ∧ ∀ p ∈ (s.hosts h).live, 0 ≤ ((s.hosts h).cell p).load
  idle : (∀ con ∈ s.cons, con.hctx = none) →
    ∀ h, (s.hosts h).load = 0 ∧ ∀ p ∈ (s.hosts h).live, ((s.hosts h).cell p).load = 0

/-- The accounting with the lists of the hosts, on which the processes of the contexts are. -/
structure LoadInv (L U : HostId → List ProcAddr) (D : HostId → ℕ) (s : GwServer) : Prop where
  tracks : ∀ h, Tracks (s.hosts h) (L h) (U h) (D h)
  listed : ∀ con ∈ s.cons, ∀ h p, con.onProc h p ≠ 0 → p ∈ L h
  closed : ∀ con ∈ s.cons, con.boundHost = none → con.boundProc = none
  host : ∀ h, (s.hosts h).load = s.boundToHost h
  proc : ∀ h, ∀ p ∈ (s.hosts h).live, ((s.hosts h).cell p).load = s.boundToProc h p

theorem LoadInv.balanced (hi : LoadInv L U D s) : Balanced s where
  host := hi.host
  proc := hi.proc
  nonneg h := ⟨by rw [hi.host]; omega, fun p hp => by rw [hi.proc h p hp]; omega⟩
  idle hnone h := by
    have hhost : s.boundToHost h = 0 := List.countP_eq_zero.mpr fun con hcon => by
      simp [GwCon.boundHost, hnone con hcon]
    have hproc : ∀ p, s.boundToProc h p = 0 := fun p => List.countP_eq_zero.mpr fun con hcon => by
      simp [GwCon.boundHost, hnone con hcon]
    exact ⟨by rw [hi.host, hhost, Nat.cast_zero],
      fun p hp => by rw [hi.proc h p hp, hproc, Nat.cast_zero]⟩

theorem LoadInv.bound (hi : LoadInv L U D s) (hc : s.cons[c]? = some con) :
    Bound L U D s.hosts con :=
  have hmem := List.mem_of_getElem? hc
  ⟨hi.tracks, hi.listed con hmem, hi.closed con hmem⟩

/-- A function that takes back what it counted before keeps the accounting. -/
theorem LoadInv.effect (hi : LoadInv L U D s) (hc : s.cons[c]? = some con)
    (he : Effect L U D false false s.hosts con hosts' con') :
    LoadInv L U D { hosts := hosts', cons := s.cons.set c con' } where
  tracks := he.tracks
  listed x hx := by
    rcases List.mem_or_eq_of_mem_set hx with hx | rfl
    · exact hi.listed x hx
    · exact he.listed
  closed x hx := by
    rcases List.mem_or_eq_of_mem_set hx with hx | rfl
    · exact hi.closed x hx
    · exact he.closed
  host h := by
    rw [boundToHost_set hosts' hc]
    have := he.hostLoad h
    have := hi.host h
    simp only [Bool.false_eq_true, if_false] at *
    omega
  proc h p hp := by
    rw [boundToProc_set hosts' hc]
    have := he.procLoad h p
    have := hi.proc h p (he.live h ▸ hp)
    simp only [Bool.false_eq_true, if_false] at *
    omega

/-- A host that is still counted for a context that left it is never given back. -/
theorem LoadInv.leaksHost (hi : LoadInv L U D s) (hc : s.cons[c]? = some con)
    (he : Effect L U D true leakProc s.hosts con hosts' con') (hh : con.boundHost ≠ none) :
    ¬ Balanced { hosts := hosts', cons := s.cons.set c con' } := by
  intro hbal
  obtain ⟨h, hh⟩ := Option.ne_none_iff_exists'.mp hh
  have hon : con.onHost h = 1 := if_pos hh
  have hload := he.hostLoad h
  have hcount := hbal.host h
  rw [boundToHost_set hosts' hc, hon, ← hi.host h] at hcount
  simp only [if_true] at hload hcount
  omega

theorem LoadInv.leaksProc (hi : LoadInv L U D s) (hc : s.cons[c]? = some con)
    (he : Effect L U D leakHost true s.hosts con hosts' con') (hh : con.boundHost ≠ none)
    (hp : con.boundProc ≠ none) : ¬ Balanced { hosts := hosts', cons := s.cons.set c con' } := by
  intro hbal
  obtain ⟨h, hh⟩ := Option.ne_none_iff_exists'.mp hh
  obtain ⟨p, hp⟩ := Option.ne_none_iff_exists'.mp hp
  have hon : con.onProc h p = 1 := if_pos ⟨hh, hp⟩
  have hlive : p ∈ (s.hosts h).live := by
    refine (hi.tracks h).live p (.inl (hi.listed con (List.mem_of_getElem? hc) h p ?_))
    rw [hon]
    exact one_ne_zero
  have hload := he.procLoad h p
  have hcount := hbal.proc h p (by rw [he.live]; exact hlive)
  rw [boundToProc_set hosts' hc, hon, ← hi.proc h p hlive] at hcount
  simp only [if_true] at hload hcount
  omega

theorem LoadInv.bookkeeping (hi : LoadInv L U D s) (ht : Tracks host' l' u d)
    (hk : KeepsLoads (L h) l' (s.hosts h) host') :
    LoadInv (update L h l') (update U h u) (update D h d)
      { s with hosts := update s.hosts h host' } := by
  -- a process with a load is not a new one
  have hcount : ∀ p, p ∉ (s.hosts h).live → s.boundToProc h p = 0 := by
    intro p hp
    refine List.countP_eq_zero.mpr fun con hcon hb => hp ((hi.tracks h).live p (.inl ?_))
    refine hi.listed con hcon h p ?_
    rw [GwCon.onProc, if_pos (of_decide_eq_true hb)]
    exact one_ne_zero
  refine ⟨fun k => ?_, fun con hcon k p hne => ?_, hi.closed, fun k => ?_, fun k p hp => ?_⟩
  · by_cases hk' : k = h
    · subst hk'
      simpa using ht
    · simpa [update_of_ne hk'] using hi.tracks k
  · by_cases hk' : k = h
    · subst hk'
      have hmem := hi.listed con hcon k p hne
      have hpos : 0 < s.boundToProc k p := by
        refine List.countP_pos_iff.mpr ⟨con, hcon, ?_⟩
        by_contra hb
        exact hne (if_neg fun h => hb (decide_eq_true h))
      rw [update_self]
      refine (hk.listed p hmem ?_).1
      rw [hi.proc k p ((hi.tracks k).live p (.inl hmem))]
      omega
    · rw [update_of_ne hk']
      exact hi.listed con hcon k p hne
  · by_cases hk' : k = h
    · subst hk'
      simp only [update_self]
      exact hk.hostLoad.trans (hi.host k)
    · simp only [update_of_ne hk']
      exact hi.host k
  · by_cases hk' : k = h
    · subst hk'
      simp only [update_self] at hp ⊢
      rcases hk.loads p hp with ⟨hlive, hload⟩ | ⟨hlive, hload⟩
      · exact hload.trans (hi.proc k p hlive)
      · rw [hload]
        exact (congrArg Nat.cast (hcount p hlive)).symm
    · simp only [update_of_ne hk'] at hp ⊢
      exact hi.proc k p hp

/-! ## Steps and runs -/

/-- What the callers see to in the bookkeeping of a host. -/
def GwCalled (s : GwServer) : GwOp → Prop
  | .bookkeeping h op => Called (s.hosts h) op ∧ LeavesLoads (s.hosts h) op
  | _ => True

/-- The step binds a context that is still bound: `gw_check_extension` one with a host, or
`gw_write_request` in `GW_STATE_INIT` one with a process. -/
def Rebinds (s : GwServer) : GwOp → Prop
  | .checkExtension c input =>
    ∃ con, s.cons[c]? = some con ∧ input.Binds con ∧ con.boundHost ≠ none
  | .writeRequest c _ =>
    ∃ con ctx, s.cons[c]? = some con ∧ con.hctx = some ctx ∧ ctx.state = .init ∧ ctx.proc ≠ none
  | _ => False

theorem atCon_eq_some {f : (HostId → GwHost) → GwCon → Option ((HostId → GwHost) × GwCon)}
    (h : s.atCon c f = some s') : ∃ con res, s.cons[c]? = some con ∧ f s.hosts con = some res ∧
      s' = { hosts := res.1, cons := s.cons.set c res.2 } := by
  unfold GwServer.atCon at h
  rcases hc : s.cons[c]? with _ | con <;> rw [hc] at h
  · cases h
  · obtain ⟨res, hres, rfl⟩ := Option.map_eq_some_iff.mp h
    exact ⟨con, res, rfl, hres, rfl⟩

/-- A step that binds no bound context keeps the accounting, and any other breaks it. -/
theorem gwStep_spec {op : GwOp} (hi : LoadInv L U D s) (hc : GwCalled s op)
    (h : gwStep s op = some s') :
    (¬ Rebinds s op → ∃ L' U' D', LoadInv L' U' D' s') ∧ (Rebinds s op → ¬ Balanced s') := by
  rcases op with ⟨c, input⟩ | ⟨c, input⟩ | ⟨c, choice⟩ | c | c | c | ⟨k, op⟩
  · rw [gwStep] at h
    obtain ⟨con, res, hcon, hres, rfl⟩ := atCon_eq_some h
    obtain rfl := Option.some.inj hres
    obtain ⟨hbinds, hsame⟩ := gwCheckExtension_effect input (hi.bound hcon)
    have hrebinds : Rebinds s (.checkExtension c input) ↔ input.Binds con ∧ con.boundHost ≠ none := by
      simp [Rebinds, hcon]
    rw [hrebinds]
    refine ⟨fun hno => ⟨L, U, D, hi.effect hcon ?_⟩, fun ⟨hb, hh⟩ => hi.leaksHost hcon (hbinds hb) hh⟩
    by_cases hb : input.Binds con
    · exact (hbinds hb).of_unbound (by_contra fun hh => hno ⟨hb, hh⟩)
    · exact hsame hb
  · rw [gwStep] at h
    obtain ⟨con, res, hcon, hres, rfl⟩ := atCon_eq_some h
    obtain ⟨ctx, hctx, hhost, he⟩ := writeRequestAt_effect (hi.bound hcon) hres
    have hproc : con.boundProc = ctx.proc := by simp [GwCon.boundProc, hctx]
    have hrebinds : Rebinds s (.writeRequest c input) ↔ ctx.state = .init ∧ ctx.proc ≠ none := by
      simp [Rebinds, hcon, hctx]
    rw [hrebinds]
    refine ⟨fun hno => ⟨L, U, D, hi.effect hcon ?_⟩, fun ⟨hinit, hp⟩ => ?_⟩
    · by_cases hinit : ctx.state = .init
      · refine he.of_unboundProc ?_
        rw [hproc]
        exact by_contra fun hp => hno ⟨hinit, hp⟩
      · rwa [decide_eq_false hinit] at he
    · rw [decide_eq_true hinit] at he
      exact hi.leaksProc hcon he hhost (hproc ▸ hp)
  · rw [gwStep] at h
    obtain ⟨con, res, hcon, hres, rfl⟩ := atCon_eq_some h
    exact ⟨fun _ => ⟨L, U, D, hi.effect hcon (reconnectAt_effect (hi.bound hcon) hres)⟩, False.elim⟩
  · rw [gwStep] at h
    obtain ⟨con, res, hcon, hres, rfl⟩ := atCon_eq_some h
    exact ⟨fun _ => ⟨L, U, D, hi.effect hcon (backendCloseAt_effect (hi.bound hcon) hres)⟩, False.elim⟩
  · rw [gwStep] at h
    obtain ⟨con, res, hcon, hres, rfl⟩ := atCon_eq_some h
    obtain rfl := Option.some.inj hres
    exact ⟨fun _ => ⟨L, U, D, hi.effect hcon (gwConnectionReset_effect (hi.bound hcon))⟩, False.elim⟩
  · rw [gwStep] at h
    obtain ⟨con, res, hcon, hres, rfl⟩ := atCon_eq_some h
    obtain rfl := Option.some.inj hres
    exact ⟨fun _ => ⟨L, U, D, hi.effect hcon ((hi.bound hcon).same rfl rfl)⟩, False.elim⟩
  · obtain ⟨host', l', u', hrun, ht', hk⟩ := hostStep_spec (hi.tracks k) hc.1
    rw [gwStep, hrun] at h
    obtain rfl := Option.some.inj h
    exact ⟨fun _ => ⟨_, _, _, hi.bookkeeping ht' (hk hc.2)⟩, False.elim⟩

/-- The states of the server in a run of steps. -/
def gwRun (s : GwServer) : List GwOp → Option (List GwServer)
  | [] => some [s]
  | op :: ops => (gwStep s op).bind fun s' => (gwRun s' ops).map (s :: ·)

/-- Every step of the run is one that the callers take. -/
def GwRunCalled (s : GwServer) : List GwOp → Prop
  | [] => True
  | op :: ops => GwCalled s op ∧ ∀ s', gwStep s op = some s' → GwRunCalled s' ops

/-- A step of the run binds a context that is still bound. -/
def RunRebinds (s : GwServer) : List GwOp → Prop
  | [] => False
  | op :: ops => Rebinds s op ∨ ∃ s', gwStep s op = some s' ∧ RunRebinds s' ops

theorem gwRun_head {ops : List GwOp} {trace : List GwServer} (h : gwRun s ops = some trace) :
    s ∈ trace := by
  rcases ops with _ | ⟨op, ops⟩
  · obtain rfl := Option.some.inj h
    exact List.mem_singleton_self s
  · obtain ⟨s', -, h⟩ := Option.bind_eq_some_iff.mp h
    obtain ⟨trace', -, rfl⟩ := Option.map_eq_some_iff.mp h
    exact List.mem_cons_self

theorem LoadInv.run : ∀ {ops : List GwOp} {s : GwServer} {trace : List GwServer}
    {L U : HostId → List ProcAddr} {D : HostId → ℕ}, LoadInv L U D s → GwRunCalled s ops →
      gwRun s ops = some trace → ((∀ s' ∈ trace, Balanced s') ↔ ¬ RunRebinds s ops)
  | [], s, trace, L, U, D, hi, _, h => by
    obtain rfl := Option.some.inj h
    simp [RunRebinds, hi.balanced]
  | op :: ops, s, trace, L, U, D, hi, hc, h => by
    obtain ⟨s', hstep, h⟩ := Option.bind_eq_some_iff.mp h
    obtain ⟨trace', hrun, rfl⟩ := Option.map_eq_some_iff.mp h
    obtain ⟨hkeep, hbreak⟩ := gwStep_spec hi hc.1 hstep
    have hrebinds : RunRebinds s (op :: ops) ↔ Rebinds s op ∨ RunRebinds s' ops := by
      simp [RunRebinds, hstep]
    rw [hrebinds, List.forall_mem_cons]
    by_cases hop : Rebinds s op
    · refine ⟨fun hall => absurd (hall.2 s' (gwRun_head hrun)) (hbreak hop), fun hno => ?_⟩
      exact absurd (.inl hop) hno
    · obtain ⟨L', U', D', hi'⟩ := hkeep hop
      rw [hi'.run (hc.2 s' hstep) hrun]
      exact ⟨fun hall => not_or.mpr ⟨hop, hall.2⟩, fun hno => ⟨hi.balanced, (not_or.mp hno).2⟩⟩

/-- Every host is started, and no connection has a context. -/
def Fresh (s : GwServer) : Prop :=
  (∀ h, Started (s.hosts h)) ∧ ∀ con ∈ s.cons, con.hctx = none

theorem Fresh.loadInv (h : Fresh s) : ∃ L U D, LoadInv L U D s := by
  obtain ⟨hstart, hnone⟩ := h
  choose L hL using fun k => (hstart k).tracks
  have hhost : ∀ con ∈ s.cons, con.boundHost = none := fun con hcon => by
    simp [GwCon.boundHost, hnone con hcon]
  refine ⟨L, fun _ => [], fun _ => 0, hL, fun con hcon k p hne => ?_, fun con hcon _ => ?_,
    fun k => ?_, fun k p _ => ?_⟩
  · exact absurd (GwCon.onProc_eq_zero (by simp [hhost con hcon])) hne
  · simp [GwCon.boundProc, hnone con hcon]
  · rw [(hstart k).unloaded.hostLoad]
    have : s.boundToHost k = 0 := List.countP_eq_zero.mpr fun con hcon => by simp [hhost con hcon]
    rw [this, Nat.cast_zero]
  · rw [(hstart k).unloaded.procLoad]
    have : s.boundToProc k p = 0 := List.countP_eq_zero.mpr fun con hcon => by simp [hhost con hcon]
    rw [this, Nat.cast_zero]

/-- In every run from a fresh server the accounting is right in all states exactly when no step
binds a context that is still bound. -/
theorem gwRun_balanced_iff {ops : List GwOp} {trace : List GwServer} (hs : Fresh s)
    (hc : GwRunCalled s ops) (h : gwRun s ops = some trace) :
    (∀ s' ∈ trace, Balanced s') ↔ ¬ RunRebinds s ops := by
  obtain ⟨L, U, D, hi⟩ := hs.loadInv
  exact hi.run hc h

/-- The settings of a host without a `bin-path`. -/
def remoteConf : HostConf :=
  { minProcs := 1, maxProcs := 1, maxLoadPerProc := 1, idleTimeout := 60, disableTime := 1,
    binPath := false }

/-- A host with one process that runs elsewhere. -/
def remoteHost : GwHost :=
  (startRemote ⟨0, 7, true, forkCalls 1⟩ (gwHostInit remoteConf)).getD (gwHostInit remoteConf)

/-- A server with such hosts and one connection. -/
def remoteServer : GwServer :=
  { hosts := fun _ => remoteHost, cons := [{ direct := true, hctx := none }] }

theorem remoteServer_fresh : Fresh remoteServer := by
  refine ⟨fun _ => ⟨0, false, remoteConf, [⟨0, 7, true, forkCalls 1⟩], by simp, rfl⟩, ?_⟩
  simp [remoteServer]

/-- A request to the backend whose socket call has this outcome. -/
def writeOp (socket : SocketCall) : GwOp :=
  .writeRequest 0
    { now := 5, socket := socket, connect := .connected, socketError := false, createEnv := .goOn,
      writeError := false, written := true }

theorem gwRun_balanced_iff_request :
    ∃ trace, gwRun remoteServer
        [.checkExtension 0 ⟨true, some 0, false⟩, writeOp .opened, .connectionReset 0] = some trace ∧
      ((∀ s' ∈ trace, Balanced s') ↔ ¬ RunRebinds remoteServer
        [.checkExtension 0 ⟨true, some 0, false⟩, writeOp .opened, .connectionReset 0]) :=
  ⟨_, rfl, gwRun_balanced_iff remoteServer_fresh
    ⟨trivial, fun _ _ => ⟨trivial, fun _ _ => ⟨trivial, fun _ _ => trivial⟩⟩⟩ rfl⟩

/-- A request that waits for a descriptor is counted twice at the process when it is tried again,
so that the process has a load when no context is left. -/
theorem gwRun_not_balanced :
    ¬ ∀ (s : GwServer) (ops : List GwOp) (trace : List GwServer), Fresh s → GwRunCalled s ops →
      gwRun s ops = some trace → ∀ s' ∈ trace, Balanced s' := by
  intro h
  have hcalled : GwRunCalled remoteServer [.checkExtension 0 ⟨true, some 0, false⟩,
      writeOp .emfile, writeOp .opened, .connectionReset 0] :=
    ⟨trivial, fun _ _ => ⟨trivial, fun _ _ => ⟨trivial, fun _ _ => ⟨trivial, fun _ _ => trivial⟩⟩⟩⟩
  obtain ⟨trace, s', hrun, hlast, hcons, hlive, hload⟩ : ∃ trace s', gwRun remoteServer
      [.checkExtension 0 ⟨true, some 0, false⟩, writeOp .emfile, writeOp .opened,
        .connectionReset 0] = some trace ∧ trace.getLast? = some s' ∧
      s'.cons = [{ direct := false, hctx := none }] ∧ (s'.hosts 0).live = [7] ∧
      ((s'.hosts 0).cell 7).load = 1 := ⟨_, _, rfl, rfl, rfl, rfl, rfl⟩
  have hbal := h remoteServer _ trace remoteServer_fresh hcalled hrun s' (List.mem_of_getLast? hlast)
  have hzero := (hbal.idle (by simp [hcons]) 0).2 7 (by simp [hlive])
  rw [hload] at hzero
  exact one_ne_zero hzero

end Lighttpd
