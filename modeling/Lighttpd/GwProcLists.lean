import Lighttpd.GwProcs

/-!
# What each operation does to the lists of a host

An operation on the state of one process leaves the lists alone (`ProcStep`); the others push a
process on a list or take one out. `Tracks host l u d` is what all of them keep: `l` and `u` are
the two lists, `active_procs` counts the running processes of `l`, and `num_procs` is `d` above
the length of `l`.
-/

namespace Lighttpd

open DoublyLinked Function

variable {host host' : GwHost} {proc a b : ProcAddr} {procs l u : List ProcAddr} {d : ℕ}

/-! ## Writes to a record -/

variable {f : GwProc → GwProc} {s t : List ProcAddr}

namespace GwHost

@[simp]
theorem modify_live (f : GwProc → GwProc) : (host.modify proc f).live = host.live := rfl

@[simp]
theorem modify_first (f : GwProc → GwProc) : (host.modify proc f).first = host.first := rfl

@[simp]
theorem modify_unusedProcs (f : GwProc → GwProc) :
    (host.modify proc f).unusedProcs = host.unusedProcs := rfl

@[simp]
theorem modify_numProcs (f : GwProc → GwProc) : (host.modify proc f).numProcs = host.numProcs := rfl

@[simp]
theorem modify_activeProcs (f : GwProc → GwProc) :
    (host.modify proc f).activeProcs = host.activeProcs := rfl

@[simp]
theorem modify_conf (f : GwProc → GwProc) : (host.modify proc f).conf = host.conf := rfl

@[simp]
theorem modify_load (f : GwProc → GwProc) : (host.modify proc f).load = host.load := rfl

@[simp]
theorem modify_cell_self (f : GwProc → GwProc) :
    (host.modify proc f).cell proc = f (host.cell proc) := update_self _ _ _

theorem modify_cell_of_ne (f : GwProc → GwProc) (h : b ≠ proc) :
    (host.modify proc f).cell b = host.cell b := update_of_ne h _ _

theorem modify_field {β : Type*} (g : GwProc → β) (h : ∀ p, g (f p) = g p) (b : ProcAddr) :
    g ((host.modify proc f).cell b) = g (host.cell b) := by
  by_cases hb : b = proc
  · rw [hb, modify_cell_self, h]
  · rw [modify_cell_of_ne f hb]

end GwHost

/-! ## A step of one process -/

/-- What a process adds to `active_procs`. -/
def ProcState.runs (state : ProcState) : ℤ := if state = .running then 1 else 0

/-- Only records of `procs` changed, and neither their links nor their loads. -/
structure ProcsChanged (procs : List ProcAddr) (host host' : GwHost) : Prop where
  live : host'.live = host.live
  first : host'.first = host.first
  unusedProcs : host'.unusedProcs = host.unusedProcs
  numProcs : host'.numProcs = host.numProcs
  conf : host'.conf = host.conf
  hostLoad : host'.load = host.load
  cell : ∀ b, b ∉ procs → host'.cell b = host.cell b
  next : ∀ b, host'.next b = host.next b
  prev : ∀ b, host'.prev b = host.prev b
  load : ∀ b, (host'.cell b).load = (host.cell b).load

theorem ProcsChanged.refl (host : GwHost) : ProcsChanged procs host host :=
  ⟨rfl, rfl, rfl, rfl, rfl, rfl, fun _ _ => rfl, fun _ => rfl, fun _ => rfl, fun _ => rfl⟩

theorem ProcsChanged.trans {host'' : GwHost} (h : ProcsChanged procs host host')
    (h' : ProcsChanged procs host' host'') : ProcsChanged procs host host'' where
  live := h'.live.trans h.live
  first := h'.first.trans h.first
  unusedProcs := h'.unusedProcs.trans h.unusedProcs
  numProcs := h'.numProcs.trans h.numProcs
  conf := h'.conf.trans h.conf
  hostLoad := h'.hostLoad.trans h.hostLoad
  cell b hb := (h'.cell b hb).trans (h.cell b hb)
  next b := (h'.next b).trans (h.next b)
  prev b := (h'.prev b).trans (h.prev b)
  load b := (h'.load b).trans (h.load b)

theorem ProcsChanged.mono {more : List ProcAddr} (h : ProcsChanged procs host host')
    (hsub : procs ⊆ more) : ProcsChanged more host host' :=
  { h with cell := fun b hb => h.cell b fun hm => hb (hsub hm) }

theorem ProcsChanged.modify (hn : ∀ p, (f p).next = p.next) (hp : ∀ p, (f p).prev = p.prev)
    (hl : ∀ p, (f p).load = p.load) :
    ProcsChanged [proc] host (host.modify proc f) where
  live := rfl
  first := rfl
  unusedProcs := rfl
  numProcs := rfl
  conf := rfl
  hostLoad := rfl
  cell b hb := GwHost.modify_cell_of_ne f (by simpa using hb)
  next := GwHost.modify_field GwProc.next hn
  prev := GwHost.modify_field GwProc.prev hp
  load := GwHost.modify_field GwProc.load hl

/-- The state of `proc` changed, and `active_procs` with it. -/
structure ProcStep (proc : ProcAddr) (host host' : GwHost) : Prop extends
    ProcsChanged [proc] host host' where
  active : host'.activeProcs - (host'.cell proc).state.runs =
    host.activeProcs - (host.cell proc).state.runs

theorem ProcStep.refl (proc : ProcAddr) (host : GwHost) : ProcStep proc host host :=
  ⟨.refl host, rfl⟩

theorem ProcStep.trans {host'' : GwHost} (h : ProcStep proc host host')
    (h' : ProcStep proc host' host'') : ProcStep proc host host'' :=
  ⟨h.toProcsChanged.trans h'.toProcsChanged, h'.active.trans h.active⟩

theorem ProcStep.modify (hn : ∀ p, (f p).next = p.next) (hp : ∀ p, (f p).prev = p.prev)
    (hl : ∀ p, (f p).load = p.load) (hs : ∀ p, (f p).state = p.state) :
    ProcStep proc host (host.modify proc f) :=
  ⟨.modify hn hp hl, by simp [hs]⟩

theorem ProcsChanged.activeProcs (host : GwHost) (n : ℤ) :
    ProcsChanged procs host { host with activeProcs := n } :=
  ⟨rfl, rfl, rfl, rfl, rfl, rfl, fun _ _ => rfl, fun _ => rfl, fun _ => rfl, fun _ => rfl⟩

theorem gwProcSetState_step (host : GwHost) (proc : ProcAddr) (state : ProcState) :
    ProcStep proc host (gwProcSetState host proc state) := by
  have hm : ∀ host' : GwHost, ProcsChanged [proc] host'
      (host'.modify proc fun p => { p with state := state }) := fun host' =>
    .modify (fun _ => rfl) (fun _ => rfl) fun _ => rfl
  unfold gwProcSetState
  split_ifs with hsame hrun hstate
  · exact .refl proc host
  · refine ⟨(ProcsChanged.activeProcs host _).trans (hm _), ?_⟩
    have hne : state ≠ .running := fun h => hsame (hrun.trans h.symm)
    simp [ProcState.runs, hrun, hne]
  · refine ⟨(ProcsChanged.activeProcs host _).trans (hm _), ?_⟩
    simp [ProcState.runs, hrun, hstate]
  · refine ⟨hm host, ?_⟩
    simp [ProcState.runs, hrun, hstate]

@[simp]
theorem gwProcSetState_state (host : GwHost) (proc : ProcAddr) (state : ProcState) :
    ((gwProcSetState host proc state).cell proc).state = state := by
  unfold gwProcSetState
  split_ifs with hsame <;> simp [hsame]

/-- The steps that do not make a process run. -/
def Idles (proc : ProcAddr) (host host' : GwHost) : Prop :=
  (host.cell proc).state ≠ .running → (host'.cell proc).state ≠ .running

theorem gwProcConnectError_step (now pid : ℤ) (host : GwHost) (proc : ProcAddr) :
    ProcStep proc host (gwProcConnectError now pid host proc) := by
  have hm : ProcStep proc host
      (host.modify proc fun p => { p with disabledUntil := now + host.conf.disableTime }) :=
    .modify (fun _ => rfl) (fun _ => rfl) (fun _ => rfl) fun _ => rfl
  have hdisable := hm.trans (gwProcSetState_step _ proc .overloaded)
  unfold gwProcConnectError
  split_ifs
  · exact hdisable
  · exact hdisable
  · exact .refl proc host

theorem gwProcConnectError_idles (now pid : ℤ) (host : GwHost) (proc : ProcAddr) :
    Idles proc host (gwProcConnectError now pid host proc) := by
  unfold gwProcConnectError
  intro h
  split_ifs <;> simp [h]

theorem gwProcCheckEnable_step (now : ℤ) (host : GwHost) (proc : ProcAddr) :
    ProcStep proc host (gwProcCheckEnable now host proc) := by
  unfold gwProcCheckEnable
  split_ifs
  · exact .refl proc host
  · exact .refl proc host
  · exact gwProcSetState_step host proc .running

theorem gwProcReap_step (now : ℤ) (host : GwHost) (proc : ProcAddr) :
    ProcStep proc host (gwProcReap now host proc) := by
  have hm : ProcStep proc host (host.modify proc fun p =>
      { p with pid := 0, disabledUntil := if p.state ≠ .killed then now else p.disabledUntil }) :=
    .modify (fun _ => rfl) (fun _ => rfl) (fun _ => rfl) fun _ => rfl
  exact hm.trans (gwProcSetState_step _ proc .died)

theorem gwProcReap_idles (now : ℤ) (host : GwHost) (proc : ProcAddr) :
    Idles proc host (gwProcReap now host proc) := by
  simp [Idles, gwProcReap]

theorem gwProcWaitpid_step (now : ℤ) (exited : Bool) (host : GwHost) (proc : ProcAddr) :
    ProcStep proc host (gwProcWaitpid now exited host proc).2 := by
  unfold gwProcWaitpid
  split_ifs
  · exact .refl proc host
  · exact .refl proc host
  · exact .refl proc host
  · exact gwProcReap_step now host proc

theorem gwProcWaitpid_idles (now : ℤ) (exited : Bool) (host : GwHost) (proc : ProcAddr) :
    Idles proc host (gwProcWaitpid now exited host proc).2 := by
  unfold gwProcWaitpid
  intro h
  split_ifs
  · exact h
  · exact h
  · exact h
  · exact gwProcReap_idles now host proc h

/-- A child is started and keeps running. -/
def SpawnCalls.Forks (calls : SpawnCalls) : Prop :=
  calls.pid ≠ -1 ∧ (0 < calls.pid → calls.exited = false)

/-- The calls with which `gw_spawn_connection` succeeds: the socket is in use already, or a child
is started on it. -/
def SpawnCalls.Starts (calls : SpawnCalls) : Prop :=
  calls.socket = true ∧ (calls.connect = true ∨
    (calls.reopen = true ∧ calls.reuseaddr = true ∧ calls.bind = true ∧ calls.listen = true ∧
      calls.Forks))

instance (calls : SpawnCalls) : Decidable calls.Forks :=
  inferInstanceAs (Decidable (_ ∧ _))

instance (calls : SpawnCalls) : Decidable calls.Starts :=
  inferInstanceAs (Decidable (_ ∧ _))

/-- A spawn as one step of the process: it succeeds exactly when `ok`, and otherwise the process
does not begin to run. -/
structure SpawnStep (ok : Prop) (proc : ProcAddr) (host : GwHost) (res : ℤ × GwHost) : Prop where
  step : ProcStep proc host res.2
  rc : res.1 = 0 ↔ ok
  idles : ¬ ok → Idles proc host res.2

theorem SpawnStep.failed {ok : Prop} (hstep : ProcStep proc host host')
    (hidle : Idles proc host host') (h : ¬ ok) : SpawnStep ok proc host (-1, host') :=
  ⟨hstep, by simp [h], fun _ => hidle⟩

theorem SpawnStep.started {ok : Prop} (hstep : ProcStep proc host host') (h : ok) :
    SpawnStep ok proc host (0, gwProcSetState host' proc .running) :=
  ⟨hstep.trans (gwProcSetState_step host' proc .running), by simp [h], fun hn => absurd h hn⟩

/-- `gw_proc_waitpid` at a child that was just forked. -/
theorem gwProcWaitpid_forked (now : ℤ) (exited : Bool) (h : (host.cell proc).isLocal = true) :
    (gwProcWaitpid now exited host proc).1 = 0 ↔
      (0 < (host.cell proc).pid → exited = false) := by
  unfold gwProcWaitpid
  rw [if_neg (by simp [h])]
  by_cases hpid : (host.cell proc).pid ≤ 0
  · simp [hpid, show ¬ 0 < (host.cell proc).pid by omega]
  · rw [if_neg hpid]
    have hpos : 0 < (host.cell proc).pid := by omega
    rcases exited with _ | _ <;> simp [hpos]

theorem gwSpawnChild_spec (now : ℤ) (calls : SpawnCalls) (host : GwHost) (proc : ProcAddr) :
    SpawnStep calls.Forks proc host (gwSpawnChild now calls host proc) := by
  unfold gwSpawnChild
  by_cases hpid : calls.pid = -1
  · rw [if_pos hpid]
    refine .failed (.modify (fun _ => rfl) (fun _ => rfl) (fun _ => rfl) fun _ => rfl) ?_ ?_
    · simp [Idles]
    · exact fun h => h.1 hpid
  · rw [if_neg hpid]
    dsimp only
    have hmod : ProcStep proc host (host.modify proc fun p =>
        { p with pid := calls.pid, lastUsed := now, isLocal := true }) :=
      .modify (fun _ => rfl) (fun _ => rfl) (fun _ => rfl) fun _ => rfl
    generalize hforked : (host.modify proc fun p =>
        { p with pid := calls.pid, lastUsed := now, isLocal := true }) = forked at *
    have hstate : (forked.cell proc).state = (host.cell proc).state := by simp [← hforked]
    have hwait := @gwProcWaitpid_forked forked proc now calls.exited (by simp [← hforked])
    rw [show (forked.cell proc).pid = calls.pid by simp [← hforked]] at hwait
    have hstep := hmod.trans (gwProcWaitpid_step now calls.exited forked proc)
    split_ifs with hrc
    · refine .failed hstep (fun h => ?_) fun hfork => hrc (hwait.mpr hfork.2)
      exact gwProcWaitpid_idles now calls.exited forked proc (hstate ▸ h)
    · exact .started hstep ⟨hpid, hwait.mp (not_not.mp hrc)⟩

theorem gwSpawnConnection_spec (now : ℤ) (calls : SpawnCalls) (host : GwHost) (proc : ProcAddr) :
    SpawnStep calls.Starts proc host (gwSpawnConnection now calls host proc) := by
  have hrefl := ProcStep.refl proc host
  unfold gwSpawnConnection
  split_ifs with hsocket hconnect hreopen hreuse hbind hlisten
  · exact .failed hrefl id (by simp_all [SpawnCalls.Starts])
  · refine .started (.modify (fun _ => rfl) (fun _ => rfl) (fun _ => rfl) fun _ => rfl) ?_
    simp_all [SpawnCalls.Starts]
  · exact .failed hrefl id (by simp_all [SpawnCalls.Starts])
  · exact .failed hrefl id (by simp_all [SpawnCalls.Starts])
  · exact .failed hrefl id (by simp_all [SpawnCalls.Starts])
  · exact .failed hrefl id (by simp_all [SpawnCalls.Starts])
  · have hiff : calls.Starts ↔ calls.Forks := by simp_all [SpawnCalls.Starts]
    have hchild := gwSpawnChild_spec now calls host proc
    exact ⟨hchild.step, hchild.rc.trans hiff.symm, fun h => hchild.idles fun hf => h (hiff.mpr hf)⟩

/-! ## Writes to the links -/

/-- The record without its links. -/
def GwProc.unlinked (p : GwProc) : GwProc := { p with prev := none, next := none }

/-- Only links of records and the heads of the lists changed. -/
structure Relinked (host host' : GwHost) : Prop where
  live : host'.live = host.live
  numProcs : host'.numProcs = host.numProcs
  activeProcs : host'.activeProcs = host.activeProcs
  conf : host'.conf = host.conf
  hostLoad : host'.load = host.load
  cell : ∀ b, (host'.cell b).unlinked = (host.cell b).unlinked

theorem Relinked.trans {host'' : GwHost} (h : Relinked host host') (h' : Relinked host' host'') :
    Relinked host host'' where
  live := h'.live.trans h.live
  numProcs := h'.numProcs.trans h.numProcs
  activeProcs := h'.activeProcs.trans h.activeProcs
  conf := h'.conf.trans h.conf
  hostLoad := h'.hostLoad.trans h.hostLoad
  cell b := (h'.cell b).trans (h.cell b)

theorem Relinked.refl (host : GwHost) : Relinked host host :=
  ⟨rfl, rfl, rfl, rfl, rfl, fun _ => rfl⟩

theorem Relinked.state (h : Relinked host host') (b : ProcAddr) :
    (host'.cell b).state = (host.cell b).state := by
  have := congrArg GwProc.state (h.cell b)
  exact this

theorem Relinked.load (h : Relinked host host') (b : ProcAddr) :
    (host'.cell b).load = (host.cell b).load := by
  have := congrArg GwProc.load (h.cell b)
  exact this

theorem Relinked.modify (h : ∀ p, (f p).unlinked = p.unlinked) :
    Relinked host (host.modify proc f) :=
  ⟨rfl, rfl, rfl, rfl, rfl, GwHost.modify_field GwProc.unlinked h⟩

namespace GwHost

variable {x p : Option ProcAddr}

theorem setNext_relinked (host : GwHost) (proc : ProcAddr) (x : Option ProcAddr) :
    Relinked host (host.setNext proc x) := .modify fun _ => rfl

theorem setPrev_relinked (host : GwHost) (proc : ProcAddr) (x : Option ProcAddr) :
    Relinked host (host.setPrev proc x) := .modify fun _ => rfl

theorem setNext?_relinked (host : GwHost) (p x : Option ProcAddr) :
    Relinked host (host.setNext? p x) := by
  rcases p with _ | q
  · exact .refl host
  · exact setNext_relinked host q x

theorem setPrev?_relinked (host : GwHost) (p x : Option ProcAddr) :
    Relinked host (host.setPrev? p x) := by
  rcases p with _ | q
  · exact .refl host
  · exact setPrev_relinked host q x

@[simp]
theorem setNext_next : (host.setNext proc x).next = update host.next proc x := by
  funext b
  by_cases hb : b = proc
  · simp [hb, setNext, GwHost.next]
  · simp [setNext, GwHost.next, modify_cell_of_ne _ hb, update_of_ne hb]

@[simp]
theorem setNext_prev : (host.setNext proc x).prev = host.prev :=
  funext (modify_field GwProc.prev fun _ => rfl)

@[simp]
theorem setPrev_prev : (host.setPrev proc x).prev = update host.prev proc x := by
  funext b
  by_cases hb : b = proc
  · simp [hb, setPrev, GwHost.prev]
  · simp [setPrev, GwHost.prev, modify_cell_of_ne _ hb, update_of_ne hb]

@[simp]
theorem setPrev_next : (host.setPrev proc x).next = host.next :=
  funext (modify_field GwProc.next fun _ => rfl)

@[simp]
theorem setNext?_next : (host.setNext? p x).next = update? host.next p x := by
  rcases p with _ | q
  · rfl
  · exact setNext_next

@[simp]
theorem setNext?_prev : (host.setNext? p x).prev = host.prev := by
  rcases p with _ | q
  · rfl
  · exact setNext_prev

@[simp]
theorem setPrev?_prev : (host.setPrev? p x).prev = update? host.prev p x := by
  rcases p with _ | q
  · rfl
  · exact setPrev_prev

@[simp]
theorem setPrev?_next : (host.setPrev? p x).next = host.next := by
  rcases p with _ | q
  · rfl
  · exact setPrev_next

@[simp]
theorem setNext_first : (host.setNext proc x).first = host.first := rfl

@[simp]
theorem setPrev_first : (host.setPrev proc x).first = host.first := rfl

@[simp]
theorem setNext_unusedProcs : (host.setNext proc x).unusedProcs = host.unusedProcs := rfl

@[simp]
theorem setPrev_unusedProcs : (host.setPrev proc x).unusedProcs = host.unusedProcs := rfl

@[simp]
theorem setNext?_first : (host.setNext? p x).first = host.first := by rcases p with _ | q <;> rfl

@[simp]
theorem setPrev?_first : (host.setPrev? p x).first = host.first := by rcases p with _ | q <;> rfl

@[simp]
theorem setNext?_unusedProcs : (host.setNext? p x).unusedProcs = host.unusedProcs := by
  rcases p with _ | q <;> rfl

@[simp]
theorem setPrev?_unusedProcs : (host.setPrev? p x).unusedProcs = host.unusedProcs := by
  rcases p with _ | q <;> rfl

end GwHost

/-! ## The lists -/

/-- The number of running processes in `l`. -/
def GwHost.active (host : GwHost) (l : List ProcAddr) : ℤ :=
  (l.countP fun a => (host.cell a).state = .running : ℕ)

/-- `l` and `u` are the lists of the host, and `num_procs` is `d` above the length of `l`. -/
structure Tracks (host : GwHost) (l u : List ProcAddr) (d : ℕ) : Prop where
  first : Chain host.next host.prev none host.first l
  unused : Chain host.next host.prev none host.unusedProcs u
  disjoint : ∀ a ∈ l, a ∉ u
  live : ∀ a, a ∈ l ∨ a ∈ u → a ∈ host.live
  num : host.numProcs = l.length + d
  active : host.activeProcs = host.active l
  idle : ∀ a ∈ u, (host.cell a).state ≠ .running

theorem GwHost.active_congr (h : ∀ b ∈ l, (host'.cell b).state = (host.cell b).state) :
    host'.active l = host.active l := by
  unfold GwHost.active
  rw [List.countP_congr fun b hb => by rw [h b hb]]

theorem GwHost.active_cons : host.active (a :: l) = host.active l + (host.cell a).state.runs := by
  unfold GwHost.active ProcState.runs
  rw [List.countP_cons]
  split_ifs <;> simp_all

/-- The count of a part of the list behind any of its processes. -/
theorem GwHost.active_perm {m : List ProcAddr} (h : l.Perm m) : host.active l = host.active m := by
  unfold GwHost.active
  rw [h.countP_eq]

theorem ProcStep.cell_of_notMem (h : ProcStep a host host') (ha : a ∉ l) (hb : b ∈ l) :
    host'.cell b = host.cell b :=
  h.cell b (by simpa using fun e : b = a => ha (e ▸ hb))

theorem ProcStep.active_of_notMem (h : ProcStep a host host') (ha : a ∉ l) :
    host'.active l = host.active l :=
  GwHost.active_congr fun b hb => by rw [h.cell_of_notMem ha hb]

theorem ProcStep.active_eq (h : ProcStep a host host') (hl : l.Nodup) (ha : a ∈ l) :
    host'.activeProcs - host'.active l = host.activeProcs - host.active l := by
  have hperm := List.perm_cons_erase ha
  have hnot : a ∉ l.erase a := hl.not_mem_erase
  rw [GwHost.active_perm hperm, GwHost.active_perm hperm, GwHost.active_cons, GwHost.active_cons,
    h.active_of_notMem hnot]
  have := h.active
  omega

/-- The chains of a host after an operation that wrote no link. -/
theorem ProcsChanged.chain {p : Option ProcAddr} (h : ProcsChanged procs host host')
    (hc : Chain host.next host.prev none p l) : Chain host'.next host'.prev none p l :=
  hc.congr (fun b _ => h.next b) fun b _ => h.prev b

theorem Tracks.step_first (ht : Tracks host l u d) (ha : a ∈ l) (h : ProcStep a host host') :
    Tracks host' l u d where
  first := h.first ▸ h.chain ht.first
  unused := h.unusedProcs ▸ h.chain ht.unused
  disjoint := ht.disjoint
  live b hb := h.live ▸ ht.live b hb
  num := h.numProcs.trans ht.num
  active := by
    have := h.active_eq ht.first.nodup ha
    have := ht.active
    omega
  idle b hb := by
    rw [h.cell_of_notMem (ht.disjoint a ha) hb]
    exact ht.idle b hb

theorem Tracks.step_unused (ht : Tracks host l u d) (ha : a ∈ u) (h : ProcStep a host host')
    (hidle : Idles a host host') : Tracks host' l u d where
  first := h.first ▸ h.chain ht.first
  unused := h.unusedProcs ▸ h.chain ht.unused
  disjoint := ht.disjoint
  live b hb := h.live ▸ ht.live b hb
  num := h.numProcs.trans ht.num
  active := by
    have hstep := h.active
    simp only [ProcState.runs, ht.idle a ha, hidle (ht.idle a ha), if_false, sub_zero] at hstep
    rw [hstep, ht.active, h.active_of_notMem fun hal => ht.disjoint a hal ha]
  idle b hb := by
    by_cases hba : b = a
    · exact hba ▸ hidle (ht.idle a ha)
    · rw [h.cell b (by simpa using hba)]
      exact ht.idle b hb

/-- `proc` is on neither list. -/
structure Detached (host : GwHost) (l u : List ProcAddr) (proc : ProcAddr) : Prop where
  first : proc ∉ l
  unused : proc ∉ u
  live : proc ∈ host.live
  state : (host.cell proc).state ≠ .running
  prev : host.prev proc = none

theorem pushFirst_relinked (host : GwHost) (proc : ProcAddr) :
    Relinked host (pushFirst host proc) := by
  have h := (GwHost.setNext_relinked host proc host.first).trans
    (GwHost.setPrev?_relinked _ host.first (some proc))
  exact { h with }

theorem pushUnused_relinked (host : GwHost) (proc : ProcAddr) :
    Relinked host (pushUnused host proc) := by
  have h := (GwHost.setNext_relinked host proc host.unusedProcs).trans
    (GwHost.setPrev?_relinked _ host.unusedProcs (some proc))
  exact { h with }

theorem pushFirst_links (host : GwHost) (proc : ProcAddr) :
    (pushFirst host proc).next = update host.next proc host.first ∧
      (pushFirst host proc).prev = update? host.prev host.first (some proc) ∧
      (pushFirst host proc).first = some proc ∧
      (pushFirst host proc).unusedProcs = host.unusedProcs := by
  refine ⟨?_, ?_, rfl, by simp [pushFirst]⟩
  · show (GwHost.setPrev? _ _ _).next = _
    simp
  · show (GwHost.setPrev? _ _ _).prev = _
    simp

theorem pushUnused_links (host : GwHost) (proc : ProcAddr) :
    (pushUnused host proc).next = update host.next proc host.unusedProcs ∧
      (pushUnused host proc).prev = update? host.prev host.unusedProcs (some proc) ∧
      (pushUnused host proc).unusedProcs = some proc ∧
      (pushUnused host proc).first = host.first := by
  refine ⟨?_, ?_, rfl, by simp [pushUnused]⟩
  · show (GwHost.setPrev? _ _ _).next = _
    simp
  · show (GwHost.setPrev? _ _ _).prev = _
    simp

theorem Detached.active (hp : Detached host l u proc) (ht : Tracks host l u d)
    (h : ProcStep proc { host with numProcs := host.numProcs + 1 } host') :
    host'.activeProcs = host'.active l + (host'.cell proc).state.runs := by
  have hstep := h.active
  have hrest : host'.active l = host.active l := h.active_of_notMem hp.first
  have hactive := ht.active
  simp only [ProcState.runs, hp.state, if_false, sub_zero] at hstep ⊢
  linarith

/-- A spawned process goes to the front of `first`. -/
theorem Tracks.pushFirst (ht : Tracks host l u d) (hp : Detached host l u proc)
    (h : ProcStep proc { host with numProcs := host.numProcs + 1 } host') :
    Tracks (pushFirst host' proc) (proc :: l) u d := by
  have hfirst := h.chain ht.first
  have hunused := h.chain ht.unused
  have hprev : host'.prev proc = none := (h.prev proc).trans hp.prev
  have hl := h.first
  have hu := h.unusedProcs
  have hr := pushFirst_relinked host' proc
  obtain ⟨hnext', hprev', hfirst', hunused'⟩ := pushFirst_links host' proc
  refine ⟨?_, ?_, ?_, ?_, ?_, ?_, ?_⟩
  · rw [hnext', hprev', hfirst', hl]
    exact hfirst.push hp.first hprev
  · rw [hnext', hprev', hunused', hu, hl]
    exact hunused.frame hp.unused (hfirst.head_ne ht.disjoint)
  · intro a ha
    rcases List.mem_cons.mp ha with rfl | ha
    · exact hp.unused
    · exact ht.disjoint a ha
  · intro a ha
    rw [hr.live, h.live]
    rcases ha with ha | ha
    · rcases List.mem_cons.mp ha with rfl | ha
      · exact hp.live
      · exact ht.live a (.inl ha)
    · exact ht.live a (.inr ha)
  · rw [hr.numProcs, h.numProcs, List.length_cons]
    have := ht.num
    push_cast
    linarith
  · rw [hr.activeProcs, hp.active ht h, GwHost.active_cons,
      GwHost.active_congr fun b _ => hr.state b, hr.state]
  · intro a ha
    rw [hr.state, h.cell_of_notMem hp.unused ha]
    exact ht.idle a ha

/-- A process that did not start goes to the front of `unused_procs`; `num_procs` keeps the count
of it. -/
theorem Tracks.pushUnused (ht : Tracks host l u d) (hp : Detached host l u proc)
    (h : ProcStep proc { host with numProcs := host.numProcs + 1 } host')
    (hidle : (host'.cell proc).state ≠ .running) :
    Tracks (pushUnused host' proc) l (proc :: u) (d + 1) := by
  have hfirst := h.chain ht.first
  have hunused := h.chain ht.unused
  have hprev : host'.prev proc = none := (h.prev proc).trans hp.prev
  have hl := h.first
  have hu := h.unusedProcs
  have hr := pushUnused_relinked host' proc
  have hdisj : ∀ a ∈ u, a ∉ l := fun a ha hal => ht.disjoint a hal ha
  obtain ⟨hnext', hprev', hunused', hfirst'⟩ := pushUnused_links host' proc
  refine ⟨?_, ?_, ?_, ?_, ?_, ?_, ?_⟩
  · rw [hnext', hprev', hfirst', hl, hu]
    exact hfirst.frame hp.first (hunused.head_ne hdisj)
  · rw [hnext', hprev', hunused', hu]
    exact hunused.push hp.unused hprev
  · intro a ha hau
    rcases List.mem_cons.mp hau with rfl | hau
    · exact hp.first ha
    · exact ht.disjoint a ha hau
  · intro a ha
    rw [hr.live, h.live]
    rcases ha with ha | ha
    · exact ht.live a (.inl ha)
    · rcases List.mem_cons.mp ha with rfl | ha
      · exact hp.live
      · exact ht.live a (.inr ha)
  · rw [hr.numProcs, h.numProcs]
    have := ht.num
    push_cast
    linarith
  · rw [hr.activeProcs, hp.active ht h, GwHost.active_congr fun b _ => hr.state b,
      ProcState.runs, if_neg hidle, add_zero]
  · intro a ha
    rw [hr.state]
    rcases List.mem_cons.mp ha with rfl | ha
    · exact hidle
    · rw [h.cell_of_notMem hp.unused ha]
      exact ht.idle a ha

/-- `unlinkUnused` takes the process out, and detaches it. -/
theorem unlinkUnused_spec (h : Chain host.next host.prev none host.unusedProcs (s ++ proc :: t)) :
    Relinked host (unlinkUnused host proc) ∧
      Unlinked host.next host.prev proc (unlinkUnused host proc).next (unlinkUnused host proc).prev ∧
      (unlinkUnused host proc).prev proc = none ∧
      (unlinkUnused host proc).first = host.first ∧
      (unlinkUnused host proc).unusedProcs =
        if s = [] then host.next proc else host.unusedProcs := by
  obtain ⟨hnself, hpself⟩ := h.ne_self
  -- the write in front of the process
  obtain ⟨host₁, hhost₁, hr₁, hn₁, hp₁, hf₁, hu₁⟩ : ∃ host₁ : GwHost,
      host₁ = (if host.unusedProcs = some proc then { host with unusedProcs := host.next proc }
        else host.setNext? (host.prev proc) (host.next proc)) ∧ Relinked host host₁ ∧
      host₁.next = update? host.next (host.prev proc) (host.next proc) ∧ host₁.prev = host.prev ∧
      host₁.first = host.first ∧
      host₁.unusedProcs = if s = [] then host.next proc else host.unusedProcs := by
    refine ⟨_, rfl, ?_⟩
    by_cases hs : s = []
    · rw [if_pos (h.head_eq_iff.mpr hs), h.prev_eq_none_iff.mpr hs]
      exact ⟨{ Relinked.refl host with }, rfl, rfl, rfl, by simp [hs]⟩
    · rw [if_neg fun he => hs (h.head_eq_iff.mp he)]
      exact ⟨GwHost.setNext?_relinked _ _ _, by simp, by simp, by simp, by simp [hs]⟩
  have hnproc : host₁.next proc = host.next proc := by rw [hn₁, update?_of_ne hpself]
  -- the write behind it
  have hcode : unlinkUnused host proc = (detachNext host₁ proc).setPrev proc none := by
    rw [hhost₁]
    rfl
  rw [hcode, detachNext, hnproc]
  rcases hnext : host.next proc with _ | n
  · refine ⟨hr₁.trans (GwHost.setPrev_relinked _ _ _), fun b hb => ?_, by simp, hf₁, by simpa [hnext] using hu₁⟩
    rw [GwHost.setPrev_next, GwHost.setPrev_prev, update_of_ne hb, hn₁, hp₁, hnext]
    exact ⟨rfl, rfl⟩
  · refine ⟨((hr₁.trans (GwHost.setPrev_relinked _ _ _)).trans (GwHost.setNext_relinked _ _ _)).trans
      (GwHost.setPrev_relinked _ _ _), fun b hb => ?_, by simp, hf₁, by simpa [hnext] using hu₁⟩
    dsimp only
    rw [GwHost.setPrev_next, GwHost.setPrev_prev, update_of_ne hb, GwHost.setNext_next,
      GwHost.setNext_prev, update_of_ne hb, GwHost.setPrev_next, GwHost.setPrev_prev, hn₁, hp₁, hnext]
    exact ⟨rfl, rfl⟩

/-- The process `gw_proc_spawn` takes from `unused_procs`. -/
theorem Tracks.unlinkUnused (ht : Tracks host l (s ++ proc :: t) d) :
    Tracks (unlinkUnused host proc) l (s ++ t) d ∧
      Detached (Lighttpd.unlinkUnused host proc) l (s ++ t) proc := by
  obtain ⟨hr, hu, hprev, hf, hup⟩ := unlinkUnused_spec ht.unused
  have hnd := List.nodup_middle.mp ht.unused.nodup
  have hsub : ∀ b ∈ s ++ t, b ∈ s ++ proc :: t := by
    intro b hb
    rcases List.mem_append.mp hb with hb | hb <;> simp [hb]
  refine ⟨⟨?_, ?_, fun a ha hau => ht.disjoint a ha (hsub a hau), ?_, ?_, ?_, ?_⟩,
    ⟨fun ha => ht.disjoint proc ha (by simp), (List.nodup_cons.mp hnd).1, ?_, ?_, hprev⟩⟩
  · rw [hf]
    exact hu.frame ht.first ht.unused fun b hb hbl => ht.disjoint b hbl hb
  · rw [hup]
    exact hu.chain ht.unused
  · intro a ha
    rw [hr.live]
    exact ht.live a (ha.imp id (hsub a))
  · rw [hr.numProcs, ht.num]
  · rw [hr.activeProcs, ht.active, GwHost.active_congr fun b _ => hr.state b]
  · intro a ha
    rw [hr.state]
    exact ht.idle a (hsub a ha)
  · rw [hr.live]
    exact ht.live proc (.inr (by simp))
  · rw [hr.state]
    exact ht.idle proc (by simp)

/-- `unlinkFirst` takes the process out. -/
theorem unlinkFirst_spec (h : Chain host.next host.prev none host.first (s ++ proc :: t)) :
    Relinked host (unlinkFirst host proc) ∧
      Unlinked host.next host.prev proc (unlinkFirst host proc).next (unlinkFirst host proc).prev ∧
      (unlinkFirst host proc).unusedProcs = host.unusedProcs ∧
      (unlinkFirst host proc).first = if s = [] then host.next proc else host.first := by
  obtain ⟨hnself, hpself⟩ := h.ne_self
  obtain ⟨host₁, hhost₁, hr₁, hn₁, hp₁, hf₁, hu₁⟩ : ∃ host₁ : GwHost,
      host₁ = host.setPrev? (host.next proc) (host.prev proc) ∧ Relinked host host₁ ∧
      host₁.next = host.next ∧
      host₁.prev = update? host.prev (host.next proc) (host.prev proc) ∧
      host₁.first = host.first ∧ host₁.unusedProcs = host.unusedProcs :=
    ⟨_, rfl, GwHost.setPrev?_relinked _ _ _, by simp, by simp, by simp, by simp⟩
  have hpproc : host₁.prev proc = host.prev proc := by rw [hp₁, update?_of_ne hnself]
  obtain ⟨host₂, hhost₂, hr₂, hn₂, hp₂, hf₂, hu₂⟩ : ∃ host₂ : GwHost,
      host₂ = host₁.setNext? (host₁.prev proc) (host₁.next proc) ∧ Relinked host host₂ ∧
      host₂.next = update? host.next (host.prev proc) (host.next proc) ∧
      host₂.prev = host₁.prev ∧ host₂.first = host.first ∧
      host₂.unusedProcs = host.unusedProcs :=
    ⟨_, rfl, hr₁.trans (GwHost.setNext?_relinked _ _ _), by simp [hpproc, hn₁], by simp, by simp [hf₁],
      by simp [hu₁]⟩
  have hunlinked : Unlinked host.next host.prev proc host₂.next host₂.prev := fun b _ => by
    rw [hn₂, hp₂, hp₁]
    exact ⟨rfl, rfl⟩
  have hcode : unlinkFirst host proc =
      if host₂.prev proc = none then { host₂ with first := host₂.next proc } else host₂ := by
    rw [hhost₂, hhost₁]
    rfl
  have hnproc : host₂.next proc = host.next proc := by rw [hn₂, update?_of_ne hpself]
  rw [hcode, hp₂, hpproc]
  by_cases hs : s = []
  · rw [if_pos (h.prev_eq_none_iff.mpr hs), if_pos hs, hnproc]
    exact ⟨{ hr₂ with }, hunlinked, hu₂, rfl⟩
  · rw [if_neg fun he => hs (h.prev_eq_none_iff.mp he), if_neg hs]
    exact ⟨hr₂, hunlinked, hu₂, hf₂⟩

theorem pushKilled_links (host : GwHost) (proc : ProcAddr) :
    (pushKilled host proc).next = update host.next proc host.unusedProcs ∧
      (pushKilled host proc).prev =
        update? (update host.prev proc none) host.unusedProcs (some proc) ∧
      (pushKilled host proc).unusedProcs = some proc ∧
      (pushKilled host proc).first = host.first := by
  have hnext : ∀ host' : GwHost,
      (host'.modify proc fun p => { p with disabledUntil := 0 }).next = host'.next :=
    fun host' => funext (GwHost.modify_field GwProc.next fun _ => rfl)
  have hprev : ∀ host' : GwHost,
      (host'.modify proc fun p => { p with disabledUntil := 0 }).prev = host'.prev :=
    fun host' => funext (GwHost.modify_field GwProc.prev fun _ => rfl)
  refine ⟨?_, ?_, rfl, by simp [pushKilled]⟩
  · show (GwHost.setPrev? _ _ _).next = _
    simp [hnext]
  · show (GwHost.setPrev? _ _ _).prev = _
    simp [hprev]

/-- The fields of the records that a push of a killed process leaves alone. -/
theorem pushKilled_fields (host : GwHost) (proc : ProcAddr) :
    (pushKilled host proc).live = host.live ∧ (pushKilled host proc).numProcs = host.numProcs ∧
      (pushKilled host proc).activeProcs = host.activeProcs ∧
      (pushKilled host proc).conf = host.conf ∧ (pushKilled host proc).load = host.load ∧
      (∀ b, ((pushKilled host proc).cell b).state = (host.cell b).state) ∧
      ∀ b, ((pushKilled host proc).cell b).load = (host.cell b).load := by
  have h₁ := (GwHost.setPrev_relinked host proc none).trans
    (GwHost.setNext_relinked _ proc host.unusedProcs)
  have h₂ := GwHost.setPrev?_relinked (((host.setPrev proc none).setNext proc
    host.unusedProcs).modify proc fun p => { p with disabledUntil := 0 }) host.unusedProcs (some proc)
  have hstate : ∀ (host' : GwHost) (b : ProcAddr),
      ((host'.modify proc fun p => { p with disabledUntil := 0 }).cell b).state =
        (host'.cell b).state := fun _ => GwHost.modify_field GwProc.state fun _ => rfl
  have hload : ∀ (host' : GwHost) (b : ProcAddr),
      ((host'.modify proc fun p => { p with disabledUntil := 0 }).cell b).load =
        (host'.cell b).load := fun _ => GwHost.modify_field GwProc.load fun _ => rfl
  refine ⟨h₂.live, h₂.numProcs, h₂.activeProcs, h₂.conf, h₂.hostLoad, fun b => ?_, fun b => ?_⟩
  · exact (h₂.state b).trans ((hstate _ b).trans (h₁.state b))
  · exact (h₂.load b).trans ((hload _ b).trans (h₁.load b))

/-- `gw_proc_kill` moves the process from one list to the other. -/
theorem Tracks.kill (ht : Tracks host (s ++ proc :: t) u d) :
    Tracks (gwProcKill host proc) (s ++ t) (proc :: u) d := by
  obtain ⟨hr, hu, hunused, hfirst⟩ := unlinkFirst_spec ht.first
  obtain ⟨hnext', hprev', hunused', hfirst'⟩ := pushKilled_links (unlinkFirst host proc) proc
  obtain ⟨hlive', hnum', hactive', -, -, hstate', -⟩ := pushKilled_fields (unlinkFirst host proc) proc
  have hstep := gwProcSetState_step (pushKilled (unlinkFirst host proc) proc) proc .killed
  have hproc : proc ∉ s ++ t :=
    (List.nodup_cons.mp (List.nodup_middle.mp ht.first.nodup)).1
  have hprocu : proc ∉ u := ht.disjoint proc (by simp)
  have hsub : ∀ b ∈ s ++ t, b ∈ s ++ proc :: t := by
    intro b hb
    rcases List.mem_append.mp hb with hb | hb <;> simp [hb]
  -- both chains behind the write `proc->prev = NULL`
  have hcut : ∀ {p : Option ProcAddr} {m : List ProcAddr}, proc ∉ m →
      Chain (unlinkFirst host proc).next (unlinkFirst host proc).prev none p m →
      Chain (unlinkFirst host proc).next (update (unlinkFirst host proc).prev proc none) none p m :=
    fun hm hc => hc.congr (fun _ _ => rfl) fun b hb =>
      update_of_ne (fun e : b = proc => hm (e ▸ hb)) _ _
  have hl := hcut hproc (hfirst ▸ hu.chain ht.first)
  have hul := hcut hprocu (hunused ▸ hu.frame ht.unused ht.first ht.disjoint)
  have hstate : ∀ b, ((pushKilled (unlinkFirst host proc) proc).cell b).state =
      (host.cell b).state := fun b => (hstate' b).trans (hr.state b)
  have hdisj : ∀ a ∈ u, a ∉ s ++ t := fun a ha hal => ht.disjoint a (hsub a hal) ha
  refine ⟨hstep.first ▸ hstep.chain ?_, hstep.unusedProcs ▸ hstep.chain ?_, ?_, ?_, ?_, ?_, ?_⟩
  · rw [hnext', hprev', hfirst']
    exact hl.frame hproc (hul.head_ne hdisj)
  · rw [hnext', hprev', hunused']
    exact hul.push hprocu (update_self _ _ _)
  · intro a ha hau
    rcases List.mem_cons.mp hau with rfl | hau
    · exact hproc ha
    · exact ht.disjoint a (hsub a ha) hau
  · intro a ha
    show a ∈ (gwProcSetState _ proc .killed).live
    rw [hstep.live, hlive', hr.live]
    refine ht.live a ?_
    rcases ha with ha | ha
    · exact .inl (hsub a ha)
    · rcases List.mem_cons.mp ha with rfl | ha
      · exact .inl (by simp)
      · exact .inr ha
  · show (gwProcSetState _ proc .killed).numProcs - 1 = _
    have hnum := ht.num
    simp only [List.length_append, List.length_cons] at hnum ⊢
    rw [hstep.numProcs, hnum', hr.numProcs, hnum]
    push_cast
    linarith
  · -- the process counts as long as its state says so
    show (gwProcSetState _ proc .killed).activeProcs = GwHost.active (gwProcSetState _ proc .killed) _
    have hact := hstep.active
    have hperm : (s ++ proc :: t).Perm (proc :: (s ++ t)) := List.perm_middle
    have hcount := ht.active
    rw [GwHost.active_perm hperm, GwHost.active_cons] at hcount
    rw [gwProcSetState_state, hactive', hr.activeProcs, hstate, hcount] at hact
    have hsame : GwHost.active (gwProcSetState (pushKilled (unlinkFirst host proc) proc) proc
        .killed) (s ++ t) = host.active (s ++ t) := GwHost.active_congr fun b hb => by
      rw [hstep.cell b (by simpa using fun e : b = proc => hproc (e ▸ hb)), hstate]
    rw [hsame]
    simp only [ProcState.runs] at hact
    simp at hact
    linarith
  · intro a ha
    show ((gwProcSetState _ proc .killed).cell a).state ≠ .running
    by_cases hap : a = proc
    · rw [hap, gwProcSetState_state]
      simp
    · rw [hstep.cell a (by simpa using hap), hstate]
      exact ht.idle a ((List.mem_cons.mp ha).resolve_left hap)

end Lighttpd
