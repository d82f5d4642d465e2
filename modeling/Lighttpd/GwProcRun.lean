import Lighttpd.GwProcLists

/-!
# The bookkeeping of a host over a run

A host starts with the processes of the configuration and then runs the steps of the server in
any order. After every run without a `gw_proc_spawn` that fails in `gw_spawn_connection` the
counters are those of the lists; each such spawn leaves `num_procs` one too large for good
(`hostRun_bookkeeping_iff`).
-/

namespace Lighttpd

open DoublyLinked Function

variable {host host' : GwHost} {proc a : ProcAddr} {l l' u : List ProcAddr} {d : ℕ}
  {p : Option ProcAddr}

/-! ## Loops -/

theorem GwHost.walk_eq : ∀ {l : List ProcAddr} {before p : Option ProcAddr} {n : ℕ},
    Chain host.next host.prev before p l → (∀ b ∈ l, b ∈ host.live) → l.length ≤ n →
      host.walk n p = some l
  | [], _, _, n, h, _, _ => by
    rw [show _ = none from h]
    cases n <;> rfl
  | b :: l, _, _, 0, _, _, hn => by simp at hn
  | b :: l, _, _, n + 1, ⟨hp, _, h⟩, hl, hn => by
    have hrec := GwHost.walk_eq h (fun c hc => hl c (List.mem_cons_of_mem b hc))
      (Nat.le_of_succ_le_succ hn)
    rw [hp, GwHost.walk, if_pos (hl b List.mem_cons_self), hrec]
    rfl

theorem Tracks.listed_first (ht : Tracks host l u d) : host.listed host.first = some l :=
  GwHost.walk_eq ht.first (fun b hb => ht.live b (.inl hb))
    (ht.first.length_le fun b hb => ht.live b (.inl hb))

theorem Tracks.listed_unused (ht : Tracks host l u d) : host.listed host.unusedProcs = some u :=
  GwHost.walk_eq ht.unused (fun b hb => ht.live b (.inr hb))
    (ht.unused.length_le fun b hb => ht.live b (.inr hb))

variable {body : GwHost → ProcAddr → GwHost} {now : ℤ}

/-- What each turn keeps a loop over a list keeps, and it ends. -/
theorem GwHost.forProcs_invariant {I : GwHost → Prop}
    (hchain : ∀ host, I host → Chain host.next host.prev none p l)
    (hlive : ∀ host, I host → ∀ b ∈ l, b ∈ host.live)
    (hbody : ∀ host b, I host → b ∈ l → I (body host b)) :
    ∀ (t s : List ProcAddr) {n : ℕ} {host : GwHost}, l = s ++ t → t.length ≤ n → I host →
      ∃ host', GwHost.forProcs body n t.head? host = some host' ∧ I host'
  | [], _, n, host, _, _, hi => ⟨host, by cases n <;> rfl, hi⟩
  | b :: t, _, 0, _, _, hn, _ => by simp at hn
  | b :: t, s, n + 1, host, hl, hn, hi => by
    have hb : b ∈ l := by simp [hl]
    have hi' := hbody host b hi hb
    have hnext : (body host b).next b = t.head? := Chain.next_eq (hl ▸ hchain _ hi')
    obtain ⟨host', hrun, hI⟩ := GwHost.forProcs_invariant hchain hlive hbody t (s ++ [b])
      (by simp [hl]) (Nat.le_of_succ_le_succ hn) hi'
    refine ⟨host', ?_, hI⟩
    rw [List.head?_cons, GwHost.forProcs, if_pos (hlive host hi b hb)]
    dsimp only
    rw [hnext, hrun]

/-- A loop over `first` whose body is a step of the process. -/
theorem Tracks.loop_first (ht : Tracks host l u d) (hbody : ∀ host b, ProcStep b host (body host b)) :
    ∃ host', GwHost.forProcs body host.live.length host.first host = some host' ∧
      Tracks host' l u d ∧ ProcsChanged l host host' := by
  rw [ht.first.head?]
  refine GwHost.forProcs_invariant (I := fun h => Tracks h l u d ∧ ProcsChanged l host h) (p := host.first)
    (fun h hi => hi.2.first ▸ hi.1.first) (fun h hi b hb => hi.1.live b (.inl hb))
    (fun h b hi hb => ?_) l [] rfl (ht.first.length_le fun b hb => ht.live b (.inl hb))
    ⟨ht, .refl host⟩
  have hstep := hbody h b
  exact ⟨hi.1.step_first hb hstep, hi.2.trans (hstep.mono (by simpa using hb))⟩

/-- A loop over `unused_procs` that makes no process run. -/
theorem Tracks.loop_unused (ht : Tracks host l u d)
    (hbody : ∀ host b, ProcStep b host (body host b)) (hidle : ∀ host b, Idles b host (body host b)) :
    ∃ host', GwHost.forProcs body host.live.length host.unusedProcs host = some host' ∧
      Tracks host' l u d ∧ ProcsChanged u host host' := by
  rw [ht.unused.head?]
  refine GwHost.forProcs_invariant (I := fun h => Tracks h l u d ∧ ProcsChanged u host h)
    (p := host.unusedProcs) (fun h hi => hi.2.unusedProcs ▸ hi.1.unused)
    (fun h hi b hb => hi.1.live b (.inr hb)) (fun h b hi hb => ?_) u [] rfl
    (ht.unused.length_le fun b hb => ht.live b (.inr hb)) ⟨ht, .refl host⟩
  have hstep := hbody h b
  exact ⟨hi.1.step_unused hb hstep (hidle h b), hi.2.trans (hstep.mono (by simpa using hb))⟩

theorem restartDead_step (now : ℤ) (calls : SpawnCalls) (host : GwHost) (proc : ProcAddr) :
    ProcStep proc host (restartDead now calls host proc) := by
  unfold restartDead
  split_ifs
  · exact .refl proc host
  · exact .refl proc host
  · exact (gwSpawnConnection_spec now calls host proc).step
  · exact gwProcCheckEnable_step now host proc

theorem restartProc_step (now : ℤ) (exited : ProcAddr → Bool) (calls : ProcAddr → SpawnCalls)
    (host : GwHost) (proc : ProcAddr) :
    ProcStep proc host (restartProc now exited calls host proc) := by
  unfold restartProc
  rcases hstate : (host.cell proc).state with _ | _ | _ | _ | _
  · exact .refl proc host
  · exact gwProcCheckEnable_step now host proc
  · -- the child is waited for, and then treated as a dead one
    have hwait := gwProcWaitpid_step now (exited proc) host proc
    dsimp only
    split_ifs
    · exact hwait.trans (gwProcCheckEnable_step now _ proc)
    · exact (hwait.trans (gwProcCheckEnable_step now _ proc)).trans (restartDead_step now _ _ proc)
    · exact hwait
    · exact hwait.trans (restartDead_step now _ _ proc)
  · exact restartDead_step now (calls proc) host proc
  · exact .refl proc host

theorem triggerWkr_step (now : ℤ) (host : GwHost) (proc : ProcAddr) :
    ProcStep proc host
      (if (host.cell proc).state = .overloaded then gwProcCheckEnable now host proc else host) := by
  split_ifs
  · exact gwProcCheckEnable_step now host proc
  · exact .refl proc host

theorem waitpidCbFirst_step (now : ℤ) (calls : SpawnCalls) (host : GwHost) (proc : ProcAddr) :
    ProcStep proc host (waitpidCbFirst now calls host proc) := by
  have hdied := gwProcSetState_step host proc .died
  have hpid : ∀ host : GwHost, ProcStep proc host (host.modify proc fun p => { p with pid := 0 }) :=
    fun _ => .modify (fun _ => rfl) (fun _ => rfl) (fun _ => rfl) fun _ => rfl
  have hdisable : ∀ host : GwHost, ProcStep proc host (host.modify proc fun p =>
      { p with disabledUntil := if p.state ≠ .killed then now else p.disabledUntil }) :=
    fun _ => .modify (fun _ => rfl) (fun _ => rfl) (fun _ => rfl) fun _ => rfl
  unfold waitpidCbFirst
  dsimp only
  split_ifs
  · exact ((hdied.trans (hpid _)).trans (hdisable _)).trans (gwSpawnConnection_spec now calls _ proc).step
  · exact hdied.trans (hpid _)

/-- What the requests of a host rely on: no load changed, a new process has none, and a process
that has one stays on `first`. -/
structure KeepsLoads (l l' : List ProcAddr) (host host' : GwHost) : Prop where
  hostLoad : host'.load = host.load
  loads : ∀ b ∈ host'.live, (b ∈ host.live ∧ (host'.cell b).load = (host.cell b).load) ∨
    (b ∉ host.live ∧ (host'.cell b).load = 0)
  listed : ∀ b ∈ l, (host.cell b).load ≠ 0 → b ∈ l' ∧ (host'.cell b).load = (host.cell b).load

theorem KeepsLoads.of_same (hlive : ∀ b ∈ host'.live, b ∈ host.live)
    (hhost : host'.load = host.load) (hload : ∀ b, (host'.cell b).load = (host.cell b).load)
    (hsub : l ⊆ l') : KeepsLoads l l' host host' :=
  ⟨hhost, fun b hb => .inl ⟨hlive b hb, hload b⟩, fun b hb _ => ⟨hsub hb, hload b⟩⟩

theorem ProcsChanged.keepsLoads {procs : List ProcAddr} (h : ProcsChanged procs host host') :
    KeepsLoads l l host host' :=
  .of_same (fun _ hb => h.live ▸ hb) h.hostLoad h.load fun _ hb => hb

theorem KeepsLoads.refl (l : List ProcAddr) (host : GwHost) : KeepsLoads l l host host :=
  .of_same (fun _ hb => hb) rfl (fun _ => rfl) (List.Subset.refl l)

theorem KeepsLoads.trans {l'' : List ProcAddr} {host'' : GwHost} (h : KeepsLoads l l' host host')
    (h' : KeepsLoads l' l'' host' host'')
    (hlive : host'.live = host.live ∨ ∀ b ∈ host''.live, b ∈ host'.live) :
    KeepsLoads l l'' host host'' where
  hostLoad := h'.hostLoad.trans h.hostLoad
  loads b hb := by
    rcases h'.loads b hb with ⟨hb', hload⟩ | ⟨hb', hload⟩
    · rcases h.loads b hb' with ⟨hb₀, hload₀⟩ | ⟨hb₀, hload₀⟩
      · exact .inl ⟨hb₀, hload.trans hload₀⟩
      · exact .inr ⟨hb₀, hload.trans hload₀⟩
    · rcases hlive with hlive | hlive
      · exact .inr ⟨hlive ▸ hb', hload⟩
      · exact absurd (hlive b hb) hb'
  listed b hb hne := by
    obtain ⟨hb', hload⟩ := h.listed b hb hne
    obtain ⟨hb'', hload'⟩ := h'.listed b hb' (hload.trans_ne hne)
    exact ⟨hb'', hload'.trans hload⟩

/-! ## Spawning -/

/-- The spawn reaches `gw_spawn_connection`, and it fails. -/
def SpawnInput.Fails (input : SpawnInput) : Prop :=
  input.sockaddr = true ∧ ¬ input.calls.Starts

instance (input : SpawnInput) : Decidable input.Fails := inferInstanceAs (Decidable (_ ∧ _))

/-- One more than `d` when `q` holds. -/
def drift (d : ℕ) (q : Prop) [Decidable q] : ℕ := if q then d + 1 else d

theorem drift_pos {q : Prop} [Decidable q] (h : q) : drift d q = d + 1 := if_pos h

theorem drift_neg {q : Prop} [Decidable q] (h : ¬ q) : drift d q = d := if_neg h

theorem Tracks.free (ht : Tracks host l u d) (hp : Detached host l u proc) :
    Tracks (gwProcFree host proc) l u d := by
  refine { ht with live := fun b hb => (List.mem_erase_of_ne ?_).mpr (ht.live b hb) }
  rintro rfl
  exact hb.elim hp.first hp.unused

theorem gwProcSpawnWith_spec (input : SpawnInput) (ht : Tracks host l u d)
    (hp : Detached host l u proc) :
    ∃ l' u', Tracks (gwProcSpawnWith input host proc) l' u' (drift d input.Fails) ∧
      KeepsLoads l l' host (gwProcSpawnWith input host proc) ∧
      ∀ b ∈ (gwProcSpawnWith input host proc).live, b ∈ host.live := by
  unfold gwProcSpawnWith
  by_cases haddr : input.sockaddr = true
  · rw [if_neg (by simp [haddr])]
    have hspawn := gwSpawnConnection_spec input.now input.calls
      { host with numProcs := host.numProcs + 1 } proc
    generalize gwSpawnConnection input.now input.calls
      { host with numProcs := host.numProcs + 1 } proc = res at hspawn
    obtain ⟨rc, host'⟩ := res
    obtain ⟨hstep, hrc, hidle⟩ := hspawn
    dsimp only at hstep hrc hidle ⊢
    by_cases hstart : input.calls.Starts
    · have hr := pushFirst_relinked host' proc
      have hlive : ∀ b ∈ (pushFirst host' proc).live, b ∈ host.live := fun b hb => by
        rwa [hr.live, hstep.live] at hb
      refine ⟨proc :: l, u, ?_⟩
      rw [drift_neg fun h => h.2 hstart, if_neg (not_not.mpr (hrc.mpr hstart))]
      exact ⟨ht.pushFirst hp hstep, .of_same hlive (hr.hostLoad.trans hstep.hostLoad)
        (fun b => (hr.load b).trans (hstep.load b)) (List.subset_cons_self proc l), hlive⟩
    · have hr := pushUnused_relinked host' proc
      have hlive : ∀ b ∈ (pushUnused host' proc).live, b ∈ host.live := fun b hb => by
        rwa [hr.live, hstep.live] at hb
      refine ⟨l, proc :: u, ?_⟩
      rw [drift_pos ⟨haddr, hstart⟩, if_pos (mt hrc.mp hstart)]
      exact ⟨ht.pushUnused hp hstep (hidle hstart hp.state),
        .of_same hlive (hr.hostLoad.trans hstep.hostLoad)
          (fun b => (hr.load b).trans (hstep.load b)) (List.Subset.refl l), hlive⟩
  · refine ⟨l, u, ?_⟩
    rw [if_pos (by simpa using haddr), drift_neg fun h => haddr h.1]
    have hfree := ht.free hp
    have hlive : ∀ b ∈ host.live.erase proc, b ∈ host.live := fun b => List.mem_of_mem_erase
    dsimp only
    split_ifs
    · exact ⟨{ hfree with num := by simpa [gwProcFree] using ht.num },
        .of_same hlive rfl (fun _ => rfl) (List.Subset.refl l), hlive⟩
    · exact ⟨{ hfree with num := by simpa [gwProcFree] using ht.num },
        .of_same hlive rfl (fun _ => rfl) (List.Subset.refl l), hlive⟩

theorem gwProcInit_cell_of_ne {new b : ProcAddr} (n : ℕ) (hb : b ≠ new) :
    ((gwProcInit host new).modify new fun p => { p with id := n }).cell b = host.cell b :=
  (GwHost.modify_cell_of_ne _ hb).trans (update_of_ne hb _ _)

/-- The record `gw_proc_spawn` allocates. -/
theorem Tracks.init {new : ProcAddr} {n m : ℕ} (ht : Tracks host l u d)
    (hnew : new ∉ host.live) :
    let host' := { (gwProcInit host new).modify new fun p => { p with id := n } with maxId := m }
    Tracks host' l u d ∧ Detached host' l u new ∧ KeepsLoads l l host host' := by
  have hne : ∀ b, b ∈ l ∨ b ∈ u → b ≠ new := fun b hb e => hnew (e ▸ ht.live b hb)
  have hcell : ∀ b, b ∈ l ∨ b ∈ u →
      ((gwProcInit host new).modify new fun p => { p with id := n }).cell b = host.cell b :=
    fun b hb => gwProcInit_cell_of_ne n (hne b hb)
  have hnext : ∀ b, b ∈ l ∨ b ∈ u →
      ((gwProcInit host new).modify new fun p => { p with id := n }).next b =
        host.next b := fun b hb => congrArg GwProc.next (hcell b hb)
  have hprev : ∀ b, b ∈ l ∨ b ∈ u →
      ((gwProcInit host new).modify new fun p => { p with id := n }).prev b =
        host.prev b := fun b hb => congrArg GwProc.prev (hcell b hb)
  refine ⟨⟨?_, ?_, ht.disjoint, ?_, ht.num, ?_, ?_⟩, ⟨?_, ?_, ?_, ?_, ?_⟩, ⟨rfl, ?_, ?_⟩⟩
  · exact ht.first.congr (fun b hb => hnext b (.inl hb)) fun b hb => hprev b (.inl hb)
  · exact ht.unused.congr (fun b hb => hnext b (.inr hb)) fun b hb => hprev b (.inr hb)
  · exact fun b hb => List.mem_cons_of_mem new (ht.live b hb)
  · refine ht.active.trans (GwHost.active_congr fun b hb => ?_).symm
    exact congrArg GwProc.state (hcell b (.inl hb))
  · exact fun b hb => (congrArg GwProc.state (hcell b (.inr hb))).trans_ne (ht.idle b hb)
  · exact fun h => hne new (.inl h) rfl
  · exact fun h => hne new (.inr h) rfl
  · exact List.mem_cons_self
  · simp [gwProcInit]
  · simp [gwProcInit, GwHost.prev]
  · intro b hb
    rcases List.mem_cons.mp hb with rfl | hb
    · exact .inr ⟨hnew, by simp [gwProcInit]⟩
    · exact .inl ⟨hb, congrArg GwProc.load (gwProcInit_cell_of_ne n fun e => hnew (e ▸ hb))⟩
  · exact fun b hb _ => ⟨hb, congrArg GwProc.load (hcell b (.inl hb))⟩

theorem spawnScan_unused : ∀ {procs : List ProcAddr} {proc : ProcAddr},
    spawnScan now host procs = .unused proc → proc ∈ procs
  | [], _, h => by simp [spawnScan] at h
  | b :: procs, proc, h => by
    rw [spawnScan] at h
    split_ifs at h
    · exact List.mem_cons_of_mem b (spawnScan_unused h)
    · cases h
      exact List.mem_cons_self

theorem spawnScan_congr : ∀ {procs : List ProcAddr},
    (∀ b ∈ procs, host'.cell b = host.cell b) → spawnScan now host' procs = spawnScan now host procs
  | [], _ => rfl
  | b :: procs, h => by
    rw [spawnScan, spawnScan, h b List.mem_cons_self,
      spawnScan_congr fun c hc => h c (List.mem_cons_of_mem b hc)]

/-- `gw_proc_spawn` gets as far as `gw_spawn_connection`, and that fails. -/
def SpawnFails (input : SpawnInput) (host : GwHost) : Prop :=
  input.Fails ∧ (host.listed host.unusedProcs).map (spawnScan input.now host) ≠ some .wait

instance (input : SpawnInput) (host : GwHost) : Decidable (SpawnFails input host) :=
  inferInstanceAs (Decidable (_ ∧ _))

theorem gwProcSpawn_spec {input : SpawnInput} (ht : Tracks host l u d)
    (hnew : input.new ∉ host.live) :
    ∃ host' l' u', gwProcSpawn input host = some host' ∧
      Tracks host' l' u' (drift d (SpawnFails input host)) ∧ KeepsLoads l l' host host' := by
  have hscan : (host.listed host.unusedProcs).map (spawnScan input.now host) =
      some (spawnScan input.now host u) := by rw [ht.listed_unused]; rfl
  unfold gwProcSpawn
  rw [hscan]
  rcases hcase : spawnScan input.now host u with proc | _ | _
  · -- an unused record is taken
    have hdrift : drift d (SpawnFails input host) = drift d input.Fails := by
      simp [drift, SpawnFails, hscan, hcase]
    obtain ⟨s, t, rfl⟩ := List.append_of_mem (spawnScan_unused hcase)
    obtain ⟨ht', hp⟩ := ht.unlinkUnused
    have hr := (unlinkUnused_spec ht.unused).1
    obtain ⟨l', u', h, hk, hlive⟩ := gwProcSpawnWith_spec input ht' hp
    have hk₀ : KeepsLoads l l host (unlinkUnused host proc) :=
      .of_same (fun b hb => hr.live ▸ hb) hr.hostLoad hr.load (List.Subset.refl l)
    exact ⟨_, l', u', rfl, hdrift ▸ h, hk₀.trans hk (.inr hlive)⟩
  · -- a new record is taken
    have hdrift : drift d (SpawnFails input host) = drift d input.Fails := by
      simp [drift, SpawnFails, hscan, hcase]
    obtain ⟨ht', hp, hk₀⟩ := ht.init (n := host.maxId) (m := host.maxId + 1) hnew
    obtain ⟨l', u', h, hk, hlive⟩ := gwProcSpawnWith_spec input ht' hp
    exact ⟨_, l', u', rfl, hdrift ▸ h, hk₀.trans hk (.inr hlive)⟩
  · have hdrift : drift d (SpawnFails input host) = d := by
      simp [drift, SpawnFails, hscan, hcase]
    exact ⟨host, l, u, rfl, hdrift.symm ▸ ht, KeepsLoads.refl l host⟩

/-! ## The trigger -/

/-- The trigger spawns on overload, and that spawn fails in `gw_spawn_connection`. -/
def TriggerFails (input : TriggerInput) (host : GwHost) : Prop :=
  host.conf.minProcs ≠ host.conf.maxProcs ∧ host.conf.binPath = true ∧
    (host.listed host.first).map (overload host) = some true ∧ host.numProcs ≠ 0 ∧
    host.numProcs < host.conf.maxProcs ∧ SpawnFails input.spawn host

instance (input : TriggerInput) (host : GwHost) : Decidable (TriggerFails input host) :=
  inferInstanceAs (Decidable (_ ∧ _))

theorem overload_congr (hconf : host'.conf = host.conf)
    (hload : ∀ b, (host'.cell b).load = (host.cell b).load) :
    overload host' l = overload host l := by
  unfold overload
  simp only [hconf, hload]

/-- The loops over `first` in front of the spawn do not change whether it fails. -/
theorem Tracks.triggerFails_congr (ht : Tracks host l u d) (input : TriggerInput)
    (ht' : Tracks host' l u d) (h : ProcsChanged l host host') :
    TriggerFails input host' ↔ TriggerFails input host := by
  have hscan : spawnScan input.spawn.now host' u = spawnScan input.spawn.now host u :=
    spawnScan_congr fun b hb => h.cell b fun hbl => ht.disjoint b hbl hb
  unfold TriggerFails SpawnFails
  rw [ht.listed_first, ht.listed_unused, ht'.listed_first, ht'.listed_unused, h.conf, h.numProcs,
    Option.map_some, Option.map_some, Option.map_some, Option.map_some, hscan,
    overload_congr h.conf h.load]

theorem triggerSpawn_spec (input : SpawnInput) (ht : Tracks host l u d)
    (hnew : input.new ∉ host.live) :
    ∃ host' l' u', triggerSpawn input host = some host' ∧
      Tracks host' l' u' (drift d (overload host l = true ∧ host.numProcs ≠ 0 ∧
        host.numProcs < host.conf.maxProcs ∧ SpawnFails input host)) ∧
      KeepsLoads l l' host host' := by
  unfold triggerSpawn
  rw [ht.listed_first]
  dsimp only
  by_cases hover : overload host l = true ∧ host.numProcs ≠ 0 ∧ host.numProcs < host.conf.maxProcs
  · obtain ⟨host', l', u', hrun, ht', hk⟩ := gwProcSpawn_spec ht hnew
    refine ⟨host', l', u', by rw [if_pos hover, hrun], ?_, hk⟩
    have hdrift : drift d (overload host l = true ∧ host.numProcs ≠ 0 ∧
        host.numProcs < host.conf.maxProcs ∧ SpawnFails input host) =
        drift d (SpawnFails input host) := by
      simp [drift, hover]
    exact hdrift ▸ ht'
  · refine ⟨host, l, u, if_neg hover, ?_, KeepsLoads.refl l host⟩
    rw [drift_neg fun h => hover ⟨h.1, h.2.1, h.2.2.1⟩]
    exact ht

theorem idleProc_spec (h : idleProc now host l = some proc) :
    proc ∈ l ∧ (host.cell proc).load = 0 := by
  refine ⟨List.mem_of_find?_eq_some h, ?_⟩
  have hp := List.find?_some h
  simp only [decide_eq_true_eq] at hp
  exact hp.2.1

theorem Tracks.kill_keepsLoads {s t : List ProcAddr} (ht : Tracks host (s ++ proc :: t) u d)
    (hload : (host.cell proc).load = 0) :
    KeepsLoads (s ++ proc :: t) (s ++ t) host (gwProcKill host proc) ∧
      (gwProcKill host proc).live = host.live := by
  have hr := (unlinkFirst_spec ht.first).1
  obtain ⟨hlive', -, -, -, hhost', -, hload'⟩ := pushKilled_fields (unlinkFirst host proc) proc
  have hstep := gwProcSetState_step (pushKilled (unlinkFirst host proc) proc) proc .killed
  have hlive : (gwProcKill host proc).live = host.live :=
    hstep.live.trans (hlive'.trans hr.live)
  have hloads : ∀ b, ((gwProcKill host proc).cell b).load = (host.cell b).load := fun b =>
    (hstep.load b).trans ((hload' b).trans (hr.load b))
  refine ⟨⟨hstep.hostLoad.trans (hhost'.trans hr.hostLoad),
    fun b hb => .inl ⟨hlive ▸ hb, hloads b⟩, fun b hb hne => ⟨?_, hloads b⟩⟩, hlive⟩
  have hbp : b ≠ proc := fun e => hne (e ▸ hload)
  simpa [hbp] using hb

theorem triggerKill_spec (now : ℤ) (ht : Tracks host l u d) :
    ∃ host' l' u', triggerKill now host = some host' ∧ Tracks host' l' u' d ∧
      KeepsLoads l l' host host' ∧ host'.live = host.live := by
  unfold triggerKill
  rw [ht.listed_first]
  dsimp only
  rcases hidle : idleProc now host l with _ | proc
  · exact ⟨host, l, u, rfl, ht, KeepsLoads.refl l host, rfl⟩
  · obtain ⟨hmem, hload⟩ := idleProc_spec hidle
    obtain ⟨s, t, rfl⟩ := List.append_of_mem hmem
    obtain ⟨hk, hlive⟩ := ht.kill_keepsLoads hload
    exact ⟨_, s ++ t, proc :: u, rfl, ht.kill, hk, hlive⟩

/-- `gw_handle_trigger_host` keeps the lists; only its spawn can change what `num_procs` is above
the length of the list. -/
theorem gwHandleTriggerHost_spec {input : TriggerInput} (ht : Tracks host l u d)
    (hnew : input.spawn.new ∉ host.live) :
    ∃ host' l' u', gwHandleTriggerHost input host = some host' ∧
      Tracks host' l' u' (drift d (TriggerFails input host)) ∧ KeepsLoads l l' host host' := by
  obtain ⟨host₁, hrun₁, ht₁, hc₁⟩ := ht.loop_first fun host proc =>
    gwProcWaitpid_step input.spawn.now (input.exited proc) host proc
  obtain ⟨host₂, hrun₂, ht₂, hc₂⟩ := ht₁.loop_first fun host proc =>
    restartProc_step input.spawn.now input.restartExited input.restartCalls host proc
  have hc := hc₁.trans hc₂
  have hfails := ht.triggerFails_congr input ht₂ hc
  unfold gwHandleTriggerHost waitpidProcs gwRestartDeadProcs
  dsimp only
  rw [hrun₁, Option.bind_some, hrun₂, Option.bind_some]
  by_cases hmin : host₂.conf.minProcs = host₂.conf.maxProcs
  · refine ⟨host₂, l, u, if_pos hmin, ?_, hc.keepsLoads⟩
    rw [drift_neg fun h => (hfails.mpr h).1 hmin]
    exact ht₂
  by_cases hbin : host₂.conf.binPath = true
  · rw [if_neg hmin, if_neg (by simp [hbin])]
    obtain ⟨host₃, l₃, u₃, hrun₃, ht₃, hk₃⟩ :=
      triggerSpawn_spec input.spawn ht₂ (by rw [hc.live]; exact hnew)
    obtain ⟨host₄, l₄, u₄, hrun₄, ht₄, hk₄, hlive₄⟩ := triggerKill_spec input.spawn.now ht₃
    obtain ⟨host₅, hrun₅, ht₅, hc₅⟩ := ht₄.loop_unused
      (fun host proc => gwProcWaitpid_step input.spawn.now (input.unusedExited proc) host proc)
      fun host proc => gwProcWaitpid_idles input.spawn.now (input.unusedExited proc) host proc
    refine ⟨host₅, l₄, u₄, ?_, ?_, ?_⟩
    · rw [hrun₃, Option.bind_some, hrun₄, Option.bind_some, hrun₅]
    · have hiff : TriggerFails input host ↔ overload host₂ l = true ∧ host₂.numProcs ≠ 0 ∧
          host₂.numProcs < host₂.conf.maxProcs ∧ SpawnFails input.spawn host₂ := by
        rw [← hfails]
        simp [TriggerFails, hmin, hbin, ht₂.listed_first]
      have hdrift : drift d (TriggerFails input host) = drift d (overload host₂ l = true ∧
          host₂.numProcs ≠ 0 ∧ host₂.numProcs < host₂.conf.maxProcs ∧
          SpawnFails input.spawn host₂) := by
        simp only [drift, hiff]
      rw [hdrift]
      exact ht₅
    · have hk₂₃ := hc.keepsLoads.trans hk₃ (.inl hc.live)
      have hk₂₄ := hk₂₃.trans hk₄ (.inr fun b hb => hlive₄ ▸ hb)
      exact hk₂₄.trans hc₅.keepsLoads (.inr fun b hb => hc₅.live ▸ hb)
  · refine ⟨host₂, l, u, by rw [if_neg hmin, if_pos (by simpa using hbin)], ?_, hc.keepsLoads⟩
    rw [drift_neg fun h => hbin (hfails.mpr h).2.1]
    exact ht₂

theorem Tracks.modify {f : GwProc → GwProc} (ht : Tracks host l u d)
    (hn : ∀ p, (f p).next = p.next) (hp : ∀ p, (f p).prev = p.prev)
    (hs : ∀ p, (f p).state = p.state) : Tracks (host.modify proc f) l u d where
  first := ht.first.congr (fun b _ => GwHost.modify_field GwProc.next hn b)
    fun b _ => GwHost.modify_field GwProc.prev hp b
  unused := ht.unused.congr (fun b _ => GwHost.modify_field GwProc.next hn b)
    fun b _ => GwHost.modify_field GwProc.prev hp b
  disjoint := ht.disjoint
  live := ht.live
  num := ht.num
  active := ht.active.trans
    (GwHost.active_congr fun b _ => GwHost.modify_field GwProc.state hs b).symm
  idle b hb := by
    rw [GwHost.modify_field GwProc.state hs]
    exact ht.idle b hb

/-! ## The steps of a host -/

/-- One step of the server at a host. -/
inductive HostOp
  | procSpawn (input : SpawnInput)
  | procKill (proc : ProcAddr)
  | procSetState (proc : ProcAddr) (state : ProcState)
  | restartDeadProcs (now : ℤ) (exited : ProcAddr → Bool) (calls : ProcAddr → SpawnCalls)
  | connectError (now pid : ℤ) (proc : ProcAddr)
  | triggerHost (input : TriggerInput)
  | triggerWkr (now : ℤ)
  | waitpidCb (now pid : ℤ) (calls : SpawnCalls)
  /-- The requests of a process changed its load and when it was used. -/
  | request (proc : ProcAddr) (load lastUsed : ℤ)

/-- The host after the step; a step with a loop that does not end has none. -/
def hostStep (host : GwHost) : HostOp → Option GwHost
  | .procSpawn input => gwProcSpawn input host
  | .procKill proc => some (gwProcKill host proc)
  | .procSetState proc state => some (gwProcSetState host proc state)
  | .restartDeadProcs now exited calls => gwRestartDeadProcs now exited calls host
  | .connectError now pid proc => some (gwProcConnectError now pid host proc)
  | .triggerHost input => gwHandleTriggerHost input host
  | .triggerWkr now => gwHandleTriggerWkr now host
  | .waitpidCb now pid calls => gwHandleWaitpidCb now pid calls host
  | .request proc load lastUsed =>
    some (host.modify proc fun p => { p with load := load, lastUsed := lastUsed })

/-- The process is on `first`. -/
def OnFirst (host : GwHost) (proc : ProcAddr) : Prop :=
  ∃ procs, host.listed host.first = some procs ∧ proc ∈ procs

/-- The process is on `unused_procs`. -/
def OnUnused (host : GwHost) (proc : ProcAddr) : Prop :=
  ∃ procs, host.listed host.unusedProcs = some procs ∧ proc ∈ procs

/-- What the callers see to: `calloc` returns a record that is not in use, a process that is killed
or enabled is one the caller found on `first`, and a process of a request is on one of the lists. -/
def Called (host : GwHost) : HostOp → Prop
  | .procSpawn input => input.new ∉ host.live
  | .procKill proc => OnFirst host proc
  | .procSetState proc state => OnFirst host proc ∨ (OnUnused host proc ∧ state ≠ .running)
  | .connectError _ _ proc => OnFirst host proc ∨ OnUnused host proc
  | .triggerHost input => input.spawn.new ∉ host.live
  | _ => True

/-- The step has a `gw_proc_spawn` whose `gw_spawn_connection` fails. -/
def StepFails (host : GwHost) : HostOp → Prop
  | .procSpawn input => SpawnFails input host
  | .triggerHost input => TriggerFails input host
  | _ => False

instance (host : GwHost) (op : HostOp) : Decidable (StepFails host op) := by
  cases op <;> unfold StepFails <;> infer_instance

/-- The step is none of the requests themselves, and a process it kills has no load, as
`gw_handle_trigger_host` sees to. -/
def LeavesLoads (host : GwHost) : HostOp → Prop
  | .procKill proc => (host.cell proc).load = 0
  | .request _ _ _ => False
  | _ => True

/-- One step of the server keeps the lists, and `num_procs` moves away from them exactly when a
spawn fails. -/
theorem hostStep_spec {op : HostOp} (ht : Tracks host l u d) (hc : Called host op) :
    ∃ host' l' u', hostStep host op = some host' ∧
      Tracks host' l' u' (drift d (StepFails host op)) ∧
      (LeavesLoads host op → KeepsLoads l l' host host') := by
  have hfirst : ∀ {proc}, OnFirst host proc → proc ∈ l := by
    rintro proc ⟨procs, hprocs, hmem⟩
    rw [ht.listed_first] at hprocs
    exact Option.some.inj hprocs ▸ hmem
  have hunused : ∀ {proc}, OnUnused host proc → proc ∈ u := by
    rintro proc ⟨procs, hprocs, hmem⟩
    rw [ht.listed_unused] at hprocs
    exact Option.some.inj hprocs ▸ hmem
  rcases op with input | proc | ⟨proc, state⟩ | ⟨now, exited, calls⟩ | ⟨now, pid, proc⟩ | input |
    now | ⟨now, pid, calls⟩ | ⟨proc, load, lastUsed⟩
  · obtain ⟨host', l', u', hrun, ht', hk⟩ := gwProcSpawn_spec ht hc
    exact ⟨host', l', u', hrun, ht', fun _ => hk⟩
  · obtain ⟨s, t, rfl⟩ := List.append_of_mem (hfirst hc)
    exact ⟨_, s ++ t, proc :: u, rfl, ht.kill, fun hload => (ht.kill_keepsLoads hload).1⟩
  · have hstep := gwProcSetState_step host proc state
    rcases hc with hc | ⟨hc, hstate⟩
    · exact ⟨_, l, u, rfl, ht.step_first (hfirst hc) hstep, fun _ => hstep.keepsLoads⟩
    · refine ⟨_, l, u, rfl, ht.step_unused (hunused hc) hstep fun _ => ?_, fun _ => hstep.keepsLoads⟩
      rwa [gwProcSetState_state]
  · obtain ⟨host', hrun, ht', hchanged⟩ := ht.loop_first (restartProc_step now exited calls)
    exact ⟨host', l, u, hrun, ht', fun _ => hchanged.keepsLoads⟩
  · have hstep := gwProcConnectError_step now pid host proc
    rcases hc with hc | hc
    · exact ⟨_, l, u, rfl, ht.step_first (hfirst hc) hstep, fun _ => hstep.keepsLoads⟩
    · exact ⟨_, l, u, rfl,
        ht.step_unused (hunused hc) hstep (gwProcConnectError_idles now pid host proc),
        fun _ => hstep.keepsLoads⟩
  · obtain ⟨host', l', u', hrun, ht', hk⟩ := gwHandleTriggerHost_spec ht hc
    exact ⟨host', l', u', hrun, ht', fun _ => hk⟩
  · obtain ⟨host', hrun, ht', hchanged⟩ := ht.loop_first (triggerWkr_step now)
    exact ⟨host', l, u, hrun, ht', fun _ => hchanged.keepsLoads⟩
  · show ∃ host' l' u', gwHandleWaitpidCb now pid calls host = some host' ∧ _
    unfold gwHandleWaitpidCb localChild
    rw [ht.listed_first, ht.listed_unused]
    dsimp only
    rcases hchild : l.find? _ with _ | proc
    · rcases hchild' : u.find? _ with _ | proc
      · exact ⟨host, l, u, rfl, ht, fun _ => .refl l host⟩
      · have hstep := gwProcReap_step now host proc
        exact ⟨_, l, u, rfl, ht.step_unused (List.mem_of_find?_eq_some hchild') hstep
          (gwProcReap_idles now host proc), fun _ => hstep.keepsLoads⟩
    · have hstep := waitpidCbFirst_step now calls host proc
      exact ⟨_, l, u, rfl, ht.step_first (List.mem_of_find?_eq_some hchild) hstep,
        fun _ => hstep.keepsLoads⟩
  · exact ⟨_, l, u, rfl, ht.modify (fun _ => rfl) (fun _ => rfl) fun _ => rfl, False.elim⟩

/-- The host after a run of steps. -/
def hostRun (host : GwHost) : List HostOp → Option GwHost
  | [] => some host
  | op :: ops => (hostStep host op).bind fun host' => hostRun host' ops

/-- Every step of the run is one that the callers take. -/
def RunCalled (host : GwHost) : List HostOp → Prop
  | [] => True
  | op :: ops => Called host op ∧ ∀ host', hostStep host op = some host' → RunCalled host' ops

/-- A step of the run has a `gw_proc_spawn` whose `gw_spawn_connection` fails. -/
def RunFails (host : GwHost) : List HostOp → Prop
  | [] => False
  | op :: ops => StepFails host op ∨ ∃ host', hostStep host op = some host' ∧ RunFails host' ops

theorem hostRun_spec : ∀ {ops : List HostOp} {host : GwHost} {l u : List ProcAddr} {d : ℕ},
    Tracks host l u d → RunCalled host ops →
      ∃ host' l' u' d', hostRun host ops = some host' ∧ Tracks host' l' u' d' ∧ d ≤ d' ∧
        (d < d' ↔ RunFails host ops)
  | [], host, l, u, d, ht, _ => ⟨host, l, u, d, rfl, ht, le_refl d, by simp [RunFails]⟩
  | op :: ops, host, l, u, d, ht, hc => by
    obtain ⟨host₁, l₁, u₁, hstep, ht₁, -⟩ := hostStep_spec ht hc.1
    obtain ⟨host₂, l₂, u₂, d₂, hrun, ht₂, hle, hlt⟩ := hostRun_spec ht₁ (hc.2 host₁ hstep)
    refine ⟨host₂, l₂, u₂, d₂, by rw [hostRun, hstep, Option.bind_some, hrun], ht₂, ?_⟩
    have hfails : RunFails host (op :: ops) ↔ StepFails host op ∨ RunFails host₁ ops := by
      simp [RunFails, hstep]
    rw [hfails, ← hlt]
    by_cases hop : StepFails host op
    · rw [drift_pos hop] at hle
      exact ⟨by omega, by simp [hop]; omega⟩
    · rw [drift_neg hop] at hle ⊢
      exact ⟨hle, by simp [hop]⟩

/-! ## The start -/

/-- What the start of one process is given. -/
structure StartInput where
  now : ℤ
  new : ProcAddr
  sockaddr : Bool
  calls : SpawnCalls

/-- `gw_host_init` with the settings of the configuration. -/
def gwHostInit (conf : HostConf) : GwHost :=
  { live := [], first := none, unusedProcs := none, numProcs := 0, activeProcs := 0, maxId := 0,
    load := 0, conf := conf
    cell := fun _ =>
      { id := 0, pid := 0, load := 0, lastUsed := 0, prev := none, next := none,
        disabledUntil := 0, isLocal := false, state := .died } }

/-- A record with the next id for the start. -/
def startProc (host : GwHost) (new : ProcAddr) : GwHost :=
  let host := (gwProcInit host new).modify new fun p => { p with id := host.numProcs.toNat }
  { host with numProcs := host.numProcs + 1, maxId := host.maxId + 1 }

/-- The processes a host with a `bin-path` starts with; the server does not start when one of them
fails. With `preflight` none of them is spawned. -/
def startLocal (preflight : Bool) : List StartInput → GwHost → Option GwHost
  | [], host => some host
  | input :: inputs, host =>
    let host := startProc host input.new
    if !input.sockaddr then none
    else if preflight then startLocal preflight inputs (pushFirst host input.new)
    else
      let (rc, host) := gwSpawnConnection input.now input.calls host input.new
      if rc ≠ 0 then none else startLocal preflight inputs (pushFirst host input.new)

/-- The process of a host without a `bin-path`, which runs elsewhere. -/
def startRemote (input : StartInput) (host : GwHost) : Option GwHost :=
  let host := gwProcSetState (startProc host input.new) input.new .running
  let host := { host with
    first := some input.new, conf := { host.conf with minProcs := 1, maxProcs := 1 } }
  if !input.sockaddr then none else some host

/-- `min-procs` as the start of a host with a `bin-path` leaves it. -/
def HostConf.limit (maxWorker : ℕ) (conf : HostConf) : HostConf :=
  let conf := if conf.maxProcs < conf.minProcs then { conf with minProcs := conf.maxProcs } else conf
  if conf.minProcs ≠ conf.maxProcs ∧ maxWorker ≠ 0 then { conf with minProcs := conf.maxProcs }
  else conf

/-- The start of a host, whose first processes get the records of `inputs`. -/
def gwHostStart (maxWorker : ℕ) (preflight : Bool) (conf : HostConf) (inputs : List StartInput) :
    Option GwHost :=
  if conf.binPath then
    let conf := conf.limit maxWorker
    if inputs.length = conf.minProcs then startLocal preflight inputs (gwHostInit conf) else none
  else
    match inputs with
    | [input] => startRemote input (gwHostInit conf)
    | _ => none

theorem gwHostInit_tracks (conf : HostConf) : Tracks (gwHostInit conf) [] [] 0 :=
  ⟨rfl, rfl, by simp, by simp, rfl, rfl, by simp⟩

/-- A record of the start is counted before it is on the list. -/
theorem Tracks.startProc (ht : Tracks host l u d) (new : ProcAddr) (hnew : new ∉ host.live) :
    ∃ host', Tracks host' l u d ∧ Detached host' l u new ∧ host'.live = new :: host.live ∧
      Lighttpd.startProc host new = { host' with numProcs := host'.numProcs + 1 } := by
  obtain ⟨ht', hp, -⟩ := ht.init (n := host.numProcs.toNat) (m := host.maxId + 1) hnew
  exact ⟨_, ht', hp, rfl, rfl⟩

theorem startLocal_tracks {preflight : Bool} : ∀ {inputs : List StartInput} {host : GwHost}
    {l : List ProcAddr}, Tracks host l [] 0 → (inputs.map StartInput.new).Nodup →
      (∀ input ∈ inputs, input.new ∉ host.live) → startLocal preflight inputs host = some host' →
        ∃ l', Tracks host' l' [] 0
  | [], host, l, ht, _, _, h => ⟨l, Option.some.inj h ▸ ht⟩
  | input :: inputs, host, l, ht, hnd, hnew, h => by
    obtain ⟨hin, hnd'⟩ := List.nodup_cons.mp hnd
    obtain ⟨host₁, ht₁, hp₁, hlive₁, hstart⟩ :=
      ht.startProc input.new (hnew input List.mem_cons_self)
    -- the rest of the start, with the process of this turn on the list
    have hrest : ∀ host₂ : GwHost,
        ProcStep input.new { host₁ with numProcs := host₁.numProcs + 1 } host₂ →
        startLocal preflight inputs (pushFirst host₂ input.new) = some host' →
        ∃ l', Tracks host' l' [] 0 := by
      intro host₂ hstep hrun
      refine startLocal_tracks (ht₁.pushFirst hp₁ hstep) hnd' (fun i hi hmem => ?_) hrun
      rw [(pushFirst_relinked host₂ input.new).live, hstep.live] at hmem
      rcases List.mem_cons.mp (hlive₁ ▸ hmem) with he | hmem
      · exact hin (List.mem_map.mpr ⟨i, hi, he⟩)
      · exact hnew i (List.mem_cons_of_mem input hi) hmem
    rw [startLocal, hstart] at h
    dsimp only at h
    split_ifs at h
    · exact hrest _ (.refl _ _) h
    · exact hrest _ (gwSpawnConnection_spec input.now input.calls _ input.new).step h

/-- No process of the start has load. -/
structure Unloaded (host : GwHost) : Prop where
  hostLoad : host.load = 0
  procLoad : ∀ b, (host.cell b).load = 0

theorem Unloaded.of_same (h : Unloaded host) (hhost : host'.load = host.load)
    (hproc : ∀ b, (host'.cell b).load = (host.cell b).load) : Unloaded host' :=
  ⟨hhost.trans h.hostLoad, fun b => (hproc b).trans (h.procLoad b)⟩

theorem Unloaded.startProc (h : Unloaded host) (new : ProcAddr) :
    Unloaded (startProc host new) := by
  refine ⟨h.hostLoad, fun b => ?_⟩
  by_cases hb : b = new
  · simp [hb, Lighttpd.startProc, gwProcInit]
  · have hcell : (Lighttpd.startProc host new).cell b = host.cell b :=
      gwProcInit_cell_of_ne host.numProcs.toNat hb
    rw [hcell, h.procLoad]

theorem Unloaded.pushFirst (h : Unloaded host) (hs : ProcStep proc host host') (new : ProcAddr) :
    Unloaded (pushFirst host' new) := by
  have hr := pushFirst_relinked host' new
  exact h.of_same (hr.hostLoad.trans hs.hostLoad) fun b => (hr.load b).trans (hs.load b)

theorem startLocal_unloaded {preflight : Bool} : ∀ {inputs : List StartInput} {host : GwHost},
    Unloaded host → startLocal preflight inputs host = some host' → Unloaded host'
  | [], host, hz, h => Option.some.inj h ▸ hz
  | input :: inputs, host, hz, h => by
    have hz' := hz.startProc input.new
    rw [startLocal] at h
    dsimp only at h
    split_ifs at h
    · exact startLocal_unloaded (hz'.pushFirst (.refl input.new _) input.new) h
    · exact startLocal_unloaded
        (hz'.pushFirst (gwSpawnConnection_spec input.now input.calls _ input.new).step input.new) h

theorem startRemote_tracks {conf : HostConf} {input : StartInput}
    (h : startRemote input (gwHostInit conf) = some host) : Tracks host [input.new] [] 0 := by
  obtain ⟨host₁, ht₁, hp₁, hlive₁, hstart⟩ :=
    (gwHostInit_tracks conf).startProc input.new (by simp [gwHostInit])
  have hstep := gwProcSetState_step (startProc (gwHostInit conf) input.new) input.new .running
  have hnext : (startProc (gwHostInit conf) input.new).next input.new = none := by
    simp [startProc, GwHost.next, gwProcInit]
  have hprev : (startProc (gwHostInit conf) input.new).prev input.new = none := by
    simp [startProc, GwHost.prev, gwProcInit]
  unfold startRemote at h
  dsimp only at h
  split_ifs at h
  obtain rfl := Option.some.inj h
  refine ⟨⟨rfl, (hstep.prev _).trans hprev, (hstep.next _).trans hnext⟩, ?_, by simp, ?_, ?_, ?_,
    by simp⟩
  · exact hstep.unusedProcs
  · intro a ha
    show a ∈ (gwProcSetState _ _ .running).live
    rw [hstep.live]
    simpa [startProc, gwProcInit, gwHostInit] using ha
  · show (gwProcSetState _ _ .running).numProcs = _
    rw [hstep.numProcs]
    rfl
  · show (gwProcSetState _ _ .running).activeProcs =
      GwHost.active (gwProcSetState _ _ .running) (input.new :: [])
    have hact := hstep.active
    rw [GwHost.active_cons]
    rw [gwProcSetState_state] at hact ⊢
    simp [startProc, gwProcInit, gwHostInit, ProcState.runs, GwHost.active] at hact ⊢
    linarith

/-- `host` is the result of a start. -/
def Started (host : GwHost) : Prop :=
  ∃ maxWorker preflight conf inputs, (inputs.map StartInput.new).Nodup ∧
    gwHostStart maxWorker preflight conf inputs = some host

theorem Started.tracks (h : Started host) : ∃ l, Tracks host l [] 0 := by
  obtain ⟨maxWorker, preflight, conf, inputs, hnd, hstart⟩ := h
  unfold gwHostStart at hstart
  dsimp only at hstart
  split_ifs at hstart
  · exact startLocal_tracks (gwHostInit_tracks _) hnd (fun i _ => by simp [gwHostInit]) hstart
  · rcases inputs with _ | ⟨input, _ | ⟨input', inputs⟩⟩
    · simp at hstart
    · exact ⟨_, startRemote_tracks hstart⟩
    · simp at hstart

theorem Started.unloaded (h : Started host) : Unloaded host := by
  obtain ⟨maxWorker, preflight, conf, inputs, -, hstart⟩ := h
  have hinit : ∀ conf, Unloaded (gwHostInit conf) := fun _ => ⟨rfl, fun _ => rfl⟩
  unfold gwHostStart at hstart
  dsimp only at hstart
  split_ifs at hstart
  · exact startLocal_unloaded (hinit _) hstart
  · rcases inputs with _ | ⟨input, _ | ⟨input', inputs⟩⟩
    · simp at hstart
    · have hstep := gwProcSetState_step (startProc (gwHostInit conf) input.new) input.new .running
      unfold startRemote at hstart
      dsimp only at hstart
      split_ifs at hstart
      obtain rfl := Option.some.inj hstart
      exact ((hinit conf).startProc input.new).of_same hstep.hostLoad hstep.load
    · simp at hstart

/-- The two lists are well linked in both directions, without duplicates and without a common
process, `num_procs` and `active_procs` count the processes of `first` and those of them that run,
and another process may be spawned while fewer than `max_procs` are listed. -/
def Bookkeeping (host : GwHost) : Prop :=
  ∃ l u, Chain host.next host.prev none host.first l ∧
    Chain host.next host.prev none host.unusedProcs u ∧ l.Nodup ∧ u.Nodup ∧ l.Disjoint u ∧
    host.numProcs = l.length ∧
    host.activeProcs = (l.filter fun a => (host.cell a).state = .running).length ∧
    (l.length < host.conf.maxProcs → host.numProcs < host.conf.maxProcs)

theorem Tracks.bookkeeping_iff (ht : Tracks host l u d) : Bookkeeping host ↔ d = 0 := by
  refine ⟨?_, ?_⟩
  · rintro ⟨l', u', hl', -, -, -, -, hnum, -⟩
    rw [hl'.unique ht.first, ht.num] at hnum
    omega
  · rintro rfl
    have hnum : host.numProcs = l.length := by simpa using ht.num
    refine ⟨l, u, ht.first, ht.unused, ht.first.nodup, ht.unused.nodup, fun a ha => ht.disjoint a ha,
      hnum, ?_, fun h => ?_⟩
    · rw [ht.active, GwHost.active, List.countP_eq_length_filter]
    · rw [hnum]
      exact_mod_cast h

/-- Every run ends, and its bookkeeping is right exactly when no `gw_proc_spawn` of the run failed
in `gw_spawn_connection`. -/
theorem hostRun_bookkeeping_iff {host₀ : GwHost} {ops : List HostOp} (hs : Started host₀)
    (hc : RunCalled host₀ ops) :
    ∃ host, hostRun host₀ ops = some host ∧ (Bookkeeping host ↔ ¬ RunFails host₀ ops) := by
  obtain ⟨l, ht⟩ := hs.tracks
  obtain ⟨host, l', u', d', hrun, ht', -, hlt⟩ := hostRun_spec ht hc
  refine ⟨host, hrun, ?_⟩
  rw [ht'.bookkeeping_iff, ← hlt]
  omega

/-- The calls of a spawn with the child `fork`, for a socket that is not in use. -/
def forkCalls (fork : ℤ) : SpawnCalls :=
  { socket := true, connect := false, reopen := true, reuseaddr := true, bind := true, listen := true,
    openDirname := true, fork := fork, exited := false }

/-- A host with a `bin-path`, no process at the start and at most one. -/
def spawnHost : GwHost :=
  gwHostInit
    { minProcs := 0, maxProcs := 1, maxLoadPerProc := 1, idleTimeout := 60, disableTime := 1,
      binPath := true }

theorem spawnHost_started : Started spawnHost :=
  ⟨0, false, spawnHost.conf, [], by simp, rfl⟩

theorem hostRun_bookkeeping_iff_spawn :
    ∃ host, hostRun spawnHost [.procSpawn ⟨5, 7, true, forkCalls 100⟩] = some host ∧
      (Bookkeeping host ↔ ¬ RunFails spawnHost [.procSpawn ⟨5, 7, true, forkCalls 100⟩]) :=
  hostRun_bookkeeping_iff spawnHost_started ⟨by simp [Called, spawnHost, gwHostInit], fun _ _ => trivial⟩

/-- After a fork that fails `num_procs` is one while no process is listed, so that the only process
the host may have is never spawned again. -/
theorem hostRun_not_bookkeeping :
    ¬ ∀ (host₀ : GwHost) (ops : List HostOp), Started host₀ → RunCalled host₀ ops →
      ∀ host, hostRun host₀ ops = some host → Bookkeeping host := by
  intro h
  have hcalled : RunCalled spawnHost [.procSpawn ⟨5, 7, true, forkCalls (-1)⟩] :=
    ⟨by simp [Called, spawnHost, gwHostInit], fun _ _ => trivial⟩
  obtain ⟨host, hrun, hfirst, hnum⟩ : ∃ host,
      hostRun spawnHost [.procSpawn ⟨5, 7, true, forkCalls (-1)⟩] = some host ∧
        host.first = none ∧ host.numProcs = 1 := ⟨_, rfl, rfl, rfl⟩
  obtain ⟨l, u, hl, -, -, -, -, hlen, -⟩ := h spawnHost _ spawnHost_started hcalled host hrun
  rcases l with _ | ⟨a, l⟩
  · rw [hnum] at hlen
    simp at hlen
  · have := hfirst ▸ hl.1
    simp at this

end Lighttpd
