import Lighttpd.ConfigTokenizer
import Lighttpd.GwProcRun

/-!
# The choice of a backend

`gw_host_get` elects one of the hosts of an extension: by a hash, by the load, in turn, or by the
address of the client. With `GW_BALANCE_LEAST_CONNECTION` a host is elected if its load is below a
maximum that starts at `INT_MAX`, so a host with that load never is; the other elections find an
active host whenever there is one. In turn, the active hosts behind the last one used come first,
then those up to it, and every call moves the one it returns to the end of that order.
-/

namespace Lighttpd

open CString

/-! ## The code -/

/-- A host of an extension with the name and the port it is reached at. -/
structure GwBackend where
  gw : GwHost
  host : Bytes
  port : UInt16

/-- `host->active_procs > 0`, which for a `size_t` is `0 != host->active_procs`. -/
def GwBackend.isActive (b : GwBackend) : Bool := 0 < b.gw.activeProcs

/-- The balance modes. -/
inductive GwBalance
  | leastConnection
  | rr
  | hash
  | sticky
  deriving DecidableEq, Repr

/-- `gw_extension` -/
structure GwExtension where
  hosts : List GwBackend
  lastUsedNdx : ℤ
  noteIsSent : Bool

/-- What a call reads of the server and the connection: the checksum function, the texts that are
hashed, whether there are no worker processes, and what a spawn at each host is given. -/
structure GwHostGetInput where
  crc32c : Bytes → UInt32
  path : Bytes
  authority : Bytes
  dstAddrBuf : Bytes
  noWorkers : Bool
  spawn : ℕ → SpawnInput

/-- What a call gives: the host, the extension behind it, and whether the request was answered with
503 in mode `DIRECT`. -/
structure GwHostGot where
  ndx : Option ℕ
  ext : GwExtension
  down : Bool

/-- `ULONG_MAX` -/
def ulongMax : ℤ := 2 ^ 64 - 1

/-- The loop of an election: an active host whose value `takes` over from the last one is elected in
its place. -/
def elect (value : GwBackend → ℤ) (takes : ℤ → ℤ → Bool) :
    List GwBackend → ℕ → ℤ → Option ℕ → Option ℕ
  | [], _, _, ndx => ndx
  | b :: bs, k, last, ndx =>
    if b.isActive && takes (value b) last then elect value takes bs (k + 1) (value b) (some k)
    else elect value takes bs (k + 1) last ndx

/-- `last_max < cur_max || last_max == ULONG_MAX` -/
def takesMax (curMax lastMax : ℤ) : Bool := lastMax < curMax || lastMax = ulongMax

/-- `cur_max` of `GW_BALANCE_HASH`, a sum of `uint32_t`. -/
def hashValue (input : GwHostGetInput) (b : GwBackend) : ℤ :=
  (input.crc32c input.path + input.crc32c b.host + input.crc32c input.authority).toNat

/-- `cur_max` of `GW_BALANCE_STICKY`. -/
def stickyValue (input : GwHostGetInput) (b : GwBackend) : ℤ :=
  (input.crc32c input.dstAddrBuf + input.crc32c b.host + b.port.toUInt32).toNat

/-- `GW_BALANCE_HASH` -/
def electHash (input : GwHostGetInput) (hosts : List GwBackend) : Option ℕ :=
  elect (hashValue input) takesMax hosts 0 ulongMax none

/-- `GW_BALANCE_STICKY` -/
def electSticky (input : GwHostGetInput) (hosts : List GwBackend) : Option ℕ :=
  elect (stickyValue input) takesMax hosts 0 ulongMax none

/-- `GW_BALANCE_LEAST_CONNECTION` -/
def electLeast (hosts : List GwBackend) : Option ℕ :=
  elect (·.gw.load) (fun load maxUsage => load < maxUsage) hosts 0 intMax none

/-- The `while` loop of `GW_BALANCE_RR` over the hosts from `ndx` on. -/
def rrNext : List GwBackend → ℕ → ℕ
  | [], ndx => ndx
  | b :: bs, ndx => if b.isActive then ndx else rrNext bs (ndx + 1)

/-- The `for` loop over the hosts up to the last one used: the index, and whether the host it ends
with is active. -/
def rrWrap : List GwBackend → ℕ → Bool → ℕ × Bool
  | [], ndx, active => (ndx, active)
  | b :: bs, ndx, _ => if b.isActive then (ndx, true) else rrWrap bs (ndx + 1) false

/-- `GW_BALANCE_RR`; the `while` loop ends behind the last host with one that is not active. -/
def electRr (ext : GwExtension) : Option ℕ :=
  let first := (ext.lastUsedNdx + 1).toNat
  let ndx := rrNext (ext.hosts.drop first) first
  if ndx < ext.hosts.length then some ndx
  else
    let (ndx, active) := rrWrap (ext.hosts.take first) 0 false
    if active then some ndx else none

/-- The election, with `last_used_ndx` behind it. -/
def gwElect (input : GwHostGetInput) (ext : GwExtension) (balance : GwBalance) :
    Option ℕ × ℤ :=
  if ext.hosts.length ≤ 1 then
    match ext.hosts with
    | b :: _ => (if b.isActive then some 0 else none, ext.lastUsedNdx)
    | [] => (none, ext.lastUsedNdx)
  else
    match balance with
    | .hash => (electHash input ext.hosts, ext.lastUsedNdx)
    | .leastConnection => (electLeast ext.hosts, ext.lastUsedNdx)
    | .rr =>
      let ndx := electRr ext
      (ndx, match ndx with
        | some k => (k : ℤ)
        | none => -1)
    | .sticky => (electSticky input ext.hosts, ext.lastUsedNdx)

/-- The spawn of a first process at a host that has none. -/
def spawnFirst (spawn : ℕ → SpawnInput) : List GwBackend → ℕ → Option (Option ℕ × List GwBackend)
  | [], _ => some (none, [])
  | b :: bs, k =>
    if b.gw.conf.minProcs = 0 ∧ b.gw.numProcs = 0 ∧ b.gw.conf.binPath then
      (gwProcSpawn (spawn k) b.gw).bind fun gw =>
        if gw.numProcs ≠ 0 then some (some k, { b with gw := gw } :: bs)
        else (spawnFirst spawn bs (k + 1)).map fun r => (r.1, { b with gw := gw } :: r.2)
    else (spawnFirst spawn bs (k + 1)).map fun r => (r.1, b :: r.2)

/-- `gw_host_get`; no result if the list of unused processes of a host does not end. -/
def gwHostGet (input : GwHostGetInput) (ext : GwExtension) (balance : GwBalance) :
    Option GwHostGot :=
  let (ndx, last) := gwElect input ext balance
  let ext := { ext with lastUsedNdx := last }
  match ndx with
  | some k => some ⟨some k, ext, false⟩
  | none =>
    (if input.noWorkers then spawnFirst input.spawn ext.hosts 0 else some (none, ext.hosts)).map
      fun r =>
        let ext := { ext with hosts := r.2 }
        match r.1 with
        | some k => ⟨some k, ext, false⟩
        | none => ⟨none, { ext with noteIsSent := true }, true⟩

/-- An extension as the configuration builds it and the server keeps it. -/
structure GwExtension.Ok (ext : GwExtension) : Prop where
  used_lt : ext.hosts.length < intMax
  last_ge : -1 ≤ ext.lastUsedNdx
  last_lt : ext.lastUsedNdx < ext.hosts.length
  active_le : ∀ b ∈ ext.hosts, b.gw.activeProcs ≤ b.gw.numProcs
  load_le : ∀ b ∈ ext.hosts, b.gw.load ≤ intMax
  ends : ∀ b ∈ ext.hosts, (b.gw.listed b.gw.unusedProcs).isSome

variable {ext : GwExtension} {value : GwBackend → ℤ} {takes : ℤ → ℤ → Bool} {hosts : List GwBackend}

/-- Hosts with the lists and counters that the bookkeeping keeps make such an extension. -/
theorem GwExtension.ok_of_tracks (hused : ext.hosts.length < intMax) (hge : -1 ≤ ext.lastUsedNdx)
    (hlt : ext.lastUsedNdx < ext.hosts.length) (hload : ∀ b ∈ ext.hosts, b.gw.load ≤ intMax)
    (htracks : ∀ b ∈ ext.hosts, ∃ l u d, Tracks b.gw l u d) : ext.Ok where
  used_lt := hused
  last_ge := hge
  last_lt := hlt
  active_le b hb := by
    obtain ⟨l, u, d, ht⟩ := htracks b hb
    have hcount : l.countP (fun a => (b.gw.cell a).state = .running) ≤ l.length :=
      List.countP_le_length
    rw [ht.active, ht.num, GwHost.active]
    omega
  load_le := hload
  ends b hb := by
    obtain ⟨l, u, d, ht⟩ := htracks b hb
    rw [ht.listed_unused]
    rfl

/-! ## The elections -/

theorem elect_some :
    ∀ (bs : List GwBackend) (k j : ℕ) (last : ℤ),
      elect value takes bs k last (some j) ≠ none
  | [], _, _, _ => by simp [elect]
  | b :: bs, k, j, last => by
    rw [elect]
    split_ifs
    · exact elect_some bs _ _ _
    · exact elect_some bs _ _ _

theorem elect_eq_none {start : ℤ} :
    ∀ {bs : List GwBackend} {k : ℕ}, elect value takes bs k start none = none ↔
      ∀ b ∈ bs, b.isActive = true → takes (value b) start = false
  | [], _ => by simp [elect]
  | b :: bs, k => by
    rw [elect, List.forall_mem_cons]
    split_ifs with h
    · obtain ⟨hactive, htakes⟩ := Bool.and_eq_true_iff.mp h
      refine iff_of_false (elect_some bs _ _ _) fun hall => ?_
      simp [hall.1 hactive] at htakes
    · rw [elect_eq_none]
      refine ⟨fun hall => ⟨fun hactive => ?_, hall⟩, fun hall => hall.2⟩
      simpa [hactive] using h

theorem elect_active {j : ℕ} :
    ∀ {bs : List GwBackend} {k : ℕ} {last : ℤ} {ndx : Option ℕ},
      elect value takes bs k last ndx = some j →
        ndx = some j ∨ ∃ i b, j = k + i ∧ bs[i]? = some b ∧ b.isActive = true
  | [], _, _, _, h => .inl h
  | b :: bs, k, last, ndx, h => by
    rw [elect] at h
    have hlater : (∃ i c, j = k + 1 + i ∧ bs[i]? = some c ∧ c.isActive = true) →
        ∃ i c, j = k + i ∧ (b :: bs)[i]? = some c ∧ c.isActive = true := by
      rintro ⟨i, c, rfl, hc, hactive⟩
      exact ⟨i + 1, c, by omega, by simpa using hc, hactive⟩
    split_ifs at h with htakes
    · rcases elect_active h with heq | hfound
      · obtain rfl := Option.some.inj heq
        exact .inr ⟨0, b, rfl, rfl, (Bool.and_eq_true_iff.mp htakes).1⟩
      · exact .inr (hlater hfound)
    · exact (elect_active h).imp id hlater

/-- A host of the extension is active. -/
def SomeActive (hosts : List GwBackend) : Prop := ∃ b ∈ hosts, b.isActive = true

/-- The index is that of an active host. -/
def ActiveAt (hosts : List GwBackend) (k : ℕ) : Prop :=
  ∃ b, hosts[k]? = some b ∧ b.isActive = true

theorem ActiveAt.some {k : ℕ} (h : ActiveAt hosts k) : SomeActive hosts := by
  obtain ⟨b, hb, hactive⟩ := h
  exact ⟨b, List.mem_of_getElem? hb, hactive⟩

theorem elect_activeAt {start : ℤ} {j : ℕ} (h : elect value takes hosts 0 start none = some j) :
    ActiveAt hosts j := by
  obtain ⟨i, b, rfl, hb, hactive⟩ := (elect_active h).resolve_left (by simp)
  exact ⟨b, by simpa using hb, hactive⟩

/-- With `ULONG_MAX` as the start every active host takes over. -/
theorem elect_takesMax_none :
    elect value takesMax hosts 0 ulongMax none = none ↔ ¬ SomeActive hosts := by
  rw [elect_eq_none]
  simp [SomeActive, takesMax]

/-- Every active host has as much load as an `int` can count. -/
def AllFull (hosts : List GwBackend) : Prop :=
  ∀ b ∈ hosts, b.isActive = true → b.gw.load = intMax

theorem electLeast_none (hload : ∀ b ∈ hosts, b.gw.load ≤ intMax) :
    electLeast hosts = none ↔ AllFull hosts := by
  rw [electLeast, elect_eq_none]
  refine forall₂_congr fun b hb => imp_congr_right fun _ => ?_
  have hle := hload b hb
  rw [decide_eq_false_iff_not]
  omega

/-! ## In turn -/

/-- The positions of the active hosts in a pattern of activity. -/
def activeFrom : List Bool → ℕ → List ℕ
  | [], _ => []
  | active :: p, k => if active then k :: activeFrom p (k + 1) else activeFrom p (k + 1)

/-- The active hosts in the order in which they are used: those behind the last one used, and then
those up to it. -/
def inTurn (p : List Bool) (last : ℤ) : List ℕ :=
  let first := (last + 1).toNat
  activeFrom (p.drop first) first ++ activeFrom (p.take first) 0

theorem activeFrom_append : ∀ (p q : List Bool) (k : ℕ),
    activeFrom (p ++ q) k = activeFrom p k ++ activeFrom q (k + p.length)
  | [], _, _ => rfl
  | active :: p, q, k => by
    have ih := activeFrom_append p q (k + 1)
    rw [List.cons_append, activeFrom, activeFrom, ih, List.length_cons,
      show k + 1 + p.length = k + (p.length + 1) by omega]
    split_ifs <;> rfl

theorem rrNext_of_nil : ∀ {bs : List GwBackend} {k : ℕ},
    activeFrom (bs.map GwBackend.isActive) k = [] → rrNext bs k = k + bs.length
  | [], _, _ => rfl
  | b :: bs, k, h => by
    rw [List.map_cons, activeFrom] at h
    split_ifs at h with hb
    rw [rrNext, if_neg hb, rrNext_of_nil h, List.length_cons]
    omega

/-- The search stops at the first active host, and the rest of them are behind it. -/
theorem rrNext_of_cons {r : ℕ} {rest : List ℕ} : ∀ {bs : List GwBackend} {k : ℕ},
    activeFrom (bs.map GwBackend.isActive) k = r :: rest →
      rrNext bs k = r ∧ ∃ q b t, bs = q ++ b :: t ∧ r = k + q.length ∧ b.isActive = true ∧
        activeFrom (q.map GwBackend.isActive) k = [] ∧
        activeFrom (t.map GwBackend.isActive) (r + 1) = rest
  | [], _, h => by simp [activeFrom] at h
  | b :: bs, k, h => by
    rw [List.map_cons, activeFrom] at h
    split_ifs at h with hb
    · obtain ⟨rfl, hrest⟩ := List.cons.inj h
      exact ⟨by rw [rrNext, if_pos hb], [], b, bs, rfl, rfl, hb, rfl, hrest⟩
    · obtain ⟨hnext, q, c, t, rfl, hr, hc, hq, ht⟩ := rrNext_of_cons h
      refine ⟨by rw [rrNext, if_neg hb, hnext], b :: q, c, t, rfl, ?_, hc, ?_, ht⟩
      · rw [hr, List.length_cons]
        omega
      · rw [List.map_cons, activeFrom, if_neg hb, hq]

theorem rrWrap_eq : ∀ (bs : List GwBackend) (k : ℕ), rrWrap bs k false =
    (rrNext bs k, bs.any GwBackend.isActive)
  | [], _ => rfl
  | b :: bs, k => by
    rw [rrWrap, rrNext, List.any_cons]
    split_ifs with hb
    · simp [hb]
    · simp [hb, rrWrap_eq bs (k + 1)]

theorem activeFrom_eq_nil : ∀ {p : List Bool} {k : ℕ}, activeFrom p k = [] ↔ p.any id = false
  | [], _ => by simp [activeFrom]
  | active :: p, k => by
    rw [activeFrom, List.any_cons]
    split_ifs with h
    · simp [h]
    · simp [h, activeFrom_eq_nil]

theorem inTurn_split {s t : List GwBackend} {b : GwBackend} (hb : b.isActive = true) :
    inTurn ((s ++ b :: t).map GwBackend.isActive) s.length =
      activeFrom (t.map GwBackend.isActive) (s.length + 1) ++
        (activeFrom (s.map GwBackend.isActive) 0 ++ [s.length]) := by
  have hfirst : ((s.length : ℤ) + 1).toNat = s.length + 1 := by omega
  have hsplit : (s ++ b :: t).map GwBackend.isActive =
      (s.map GwBackend.isActive ++ [true]) ++ t.map GwBackend.isActive := by simp [hb]
  have hlen : s.length + 1 = (s.map GwBackend.isActive ++ [true]).length := by simp
  rw [inTurn, hfirst, hsplit, hlen, List.drop_left, List.take_left, activeFrom_append, ← hlen]
  simp [activeFrom]

/-- A call in turn takes the next host and moves it to the end of the order. -/
theorem electRr_inTurn (hge : -1 ≤ ext.lastUsedNdx) (hlt : ext.lastUsedNdx < ext.hosts.length)
    {r : ℕ} {rest : List ℕ}
    (h : inTurn (ext.hosts.map GwBackend.isActive) ext.lastUsedNdx = r :: rest) :
    electRr ext = some r ∧ r < ext.hosts.length ∧
      inTurn (ext.hosts.map GwBackend.isActive) r = rest ++ [r] := by
  obtain ⟨first, hfirst, hle⟩ : ∃ first : ℕ, (ext.lastUsedNdx + 1).toNat = first ∧
      first ≤ ext.hosts.length := ⟨_, rfl, by omega⟩
  obtain ⟨pre, post, hhosts, rfl⟩ : ∃ pre post, ext.hosts = pre ++ post ∧ pre.length = first :=
    ⟨ext.hosts.take first, ext.hosts.drop first, (List.take_append_drop first _).symm,
      List.length_take_of_le hle⟩
  simp only [inTurn, hfirst, hhosts, ← List.map_drop, ← List.map_take, List.drop_left,
    List.take_left] at h
  rw [electRr, hfirst, hhosts, List.drop_left, List.take_left]
  cases hpost : activeFrom (post.map GwBackend.isActive) pre.length with
  | nil =>
    rw [hpost, List.nil_append] at h
    obtain ⟨hnext, q, b, t, rfl, rfl, hb, hq, ht⟩ := rrNext_of_cons h
    have hany : (q ++ b :: t).any GwBackend.isActive = true := by simp [hb]
    rw [Nat.zero_add] at hnext ht ⊢
    have hend : rrNext post (q ++ b :: t).length = (q ++ b :: t ++ post).length := by
      rw [rrNext_of_nil hpost]
      exact List.length_append.symm
    refine ⟨?_, by simp only [List.length_append, List.length_cons]; omega, ?_⟩
    · simp only [hend, lt_irrefl, if_false, rrWrap_eq, hany, if_true, hnext]
    · rw [List.append_assoc, List.cons_append, inTurn_split hb, List.map_append, activeFrom_append,
        ht, hq, List.nil_append]
      have hpos : q.length + 1 + (t.map GwBackend.isActive).length =
          (q ++ b :: t).length := by
        simp only [List.length_map, List.length_append, List.length_cons]
        omega
      rw [hpos, hpost, List.append_nil]
  | cons r' rest' =>
    rw [hpost, List.cons_append] at h
    obtain ⟨rfl, rfl⟩ := List.cons.inj h
    obtain ⟨hnext, q, b, t, rfl, rfl, hb, hq, ht⟩ := rrNext_of_cons hpost
    have hlast : pre.length + q.length < (pre ++ (q ++ b :: t)).length := by
      simp only [List.length_append, List.length_cons]
      omega
    refine ⟨by simp only [hnext, hlast, if_true], hlast, ?_⟩
    rw [← List.append_assoc, ← List.length_append, inTurn_split hb, List.length_append, ht,
      List.map_append, activeFrom_append, List.length_map, Nat.zero_add, hq, List.append_nil,
      List.append_assoc]

theorem gwElect_inTurn {input : GwHostGetInput} {ext : GwExtension} (hge : -1 ≤ ext.lastUsedNdx)
    (hlt : ext.lastUsedNdx < ext.hosts.length) {r : ℕ} {rest : List ℕ}
    (h : inTurn (ext.hosts.map GwBackend.isActive) ext.lastUsedNdx = r :: rest) :
    ∃ last : ℤ, gwElect input ext .rr = (some r, last) ∧ -1 ≤ last ∧ last < ext.hosts.length ∧
      inTurn (ext.hosts.map GwBackend.isActive) last = rest ++ [r] := by
  rcases hb : ext.hosts with _ | ⟨b, _ | ⟨c, bs⟩⟩
  · simp [hb, inTurn, activeFrom] at h
  · have hlt' : ext.lastUsedNdx < 1 := by simpa [hb] using hlt
    have hfirst : (ext.lastUsedNdx + 1).toNat = 0 ∨ (ext.lastUsedNdx + 1).toNat = 1 := by omega
    have horder : inTurn [b.isActive] ext.lastUsedNdx = if b.isActive then [0] else [] := by
      rcases hfirst with hfirst | hfirst <;> simp [inTurn, hfirst, activeFrom]
    rw [hb, List.map_singleton, horder] at h
    split_ifs at h with hactive
    obtain ⟨rfl, rfl⟩ := List.cons.inj h
    exact ⟨ext.lastUsedNdx, by simp [gwElect, hb, hactive], hge, by simpa using hlt',
      horder.trans (if_pos hactive)⟩
  · obtain ⟨helect, hr, horder⟩ := electRr_inTurn hge hlt h
    rw [← hb]
    refine ⟨r, ?_, by omega, by omega, horder⟩
    rw [gwElect, if_neg (by rw [hb]; simp), helect]

/-- A run of calls in turn; between two calls the hosts may change as well. -/
def rrRun : List (GwHostGetInput × List GwBackend) → GwExtension → Option (List (Option ℕ))
  | [], _ => some []
  | call :: calls, ext =>
    (gwHostGet call.1 { ext with hosts := call.2 } .rr).bind fun got =>
      (rrRun calls got.ext).map fun ndxs => got.ndx :: ndxs

theorem rrRun_inTurn {p : List Bool} : ∀ {calls : List (GwHostGetInput × List GwBackend)}
    {ext : GwExtension} {turns rest : List ℕ}, -1 ≤ ext.lastUsedNdx → ext.lastUsedNdx < p.length →
      (∀ call ∈ calls, call.2.map GwBackend.isActive = p) →
        inTurn p ext.lastUsedNdx = turns ++ rest → calls.length = turns.length →
          rrRun calls ext = some (turns.map some)
  | [], _, turns, _, _, _, _, _, hlen => by
    obtain rfl := List.length_eq_zero_iff.mp hlen.symm
    rfl
  | call :: calls, ext, [], _, _, _, _, _, hlen => by simp at hlen
  | call :: calls, ext, r :: turns, rest, hge, hlt, hcalls, horder, hlen => by
    have hp : call.2.map GwBackend.isActive = p := hcalls call List.mem_cons_self
    have hplen : call.2.length = p.length := by rw [← hp, List.length_map]
    obtain ⟨last, helect, hge', hlt', horder'⟩ :=
      @gwElect_inTurn call.1 { ext with hosts := call.2 } hge (hplen ▸ hlt) r (turns ++ rest)
        (by rw [hp]; exact horder)
    have ih := @rrRun_inTurn p calls { ext with hosts := call.2, lastUsedNdx := last } turns
      (rest ++ [r]) hge' (hplen ▸ hlt') (fun c hc => hcalls c (List.mem_cons_of_mem call hc))
      (by rw [← hp, horder', List.append_assoc]) (by simpa using hlen)
    simp [rrRun, gwHostGet, helect, ih]

theorem mem_activeFrom {i : ℕ} : ∀ {p : List Bool} {k : ℕ},
    i ∈ activeFrom p k ↔ ∃ j, i = k + j ∧ p[j]? = some true
  | [], _ => by simp [activeFrom]
  | active :: p, k => by
    have ih := @mem_activeFrom i p (k + 1)
    constructor
    · intro h
      have htail : i ∈ activeFrom p (k + 1) → ∃ j, i = k + j ∧ (active :: p)[j]? = some true := by
        intro hi
        obtain ⟨j, rfl, hj⟩ := ih.mp hi
        exact ⟨j + 1, by omega, by simpa using hj⟩
      rw [activeFrom] at h
      split_ifs at h with hactive
      · rcases List.mem_cons.mp h with rfl | hi
        · exact ⟨0, rfl, by simp [hactive]⟩
        · exact htail hi
      · exact htail h
    · rintro ⟨j, rfl, hj⟩
      rw [activeFrom]
      cases j with
      | zero =>
        have hactive : active = true := by simpa using hj
        simp [hactive]
      | succ j =>
        have hi : k + (j + 1) ∈ activeFrom p (k + 1) :=
          ih.mpr ⟨j, by omega, by simpa using hj⟩
        split_ifs
        · exact List.mem_cons_of_mem k hi
        · exact hi

theorem length_activeFrom : ∀ (p : List Bool) (k : ℕ), (activeFrom p k).length = p.count true
  | [], _ => rfl
  | active :: p, k => by
    cases active <;> simp [activeFrom, length_activeFrom p]

theorem activeFrom_nodup : ∀ (p : List Bool) (k : ℕ), (activeFrom p k).Nodup
  | [], _ => List.nodup_nil
  | active :: p, k => by
    have ih := activeFrom_nodup p (k + 1)
    rw [activeFrom]
    split_ifs
    · refine List.nodup_cons.mpr ⟨fun h => ?_, ih⟩
      obtain ⟨j, hj, -⟩ := mem_activeFrom.mp h
      omega
    · exact ih

theorem inTurn_perm (p : List Bool) (last : ℤ) : (inTurn p last).Perm (activeFrom p 0) := by
  rcases Nat.lt_or_ge p.length (last + 1).toNat with hlong | hle
  · rw [inTurn, List.drop_of_length_le hlong.le, List.take_of_length_le hlong.le]
    exact .refl _
  · have hsplit := activeFrom_append (p.take (last + 1).toNat) (p.drop (last + 1).toNat) 0
    rw [List.take_append_drop, List.length_take_of_le hle, Nat.zero_add] at hsplit
    rw [inTurn, hsplit]
    exact List.perm_append_comm

/-! ## The whole choice -/

/-- Where the election by load finds no host although there are active ones. -/
def LoadFull (ext : GwExtension) (balance : GwBalance) : Prop :=
  balance = .leastConnection ∧ 2 ≤ ext.hosts.length ∧ SomeActive ext.hosts ∧ AllFull ext.hosts

theorem someActive_iff :
    SomeActive hosts ↔ ∃ i : ℕ, (hosts.map GwBackend.isActive)[i]? = some true := by
  rw [← List.mem_iff_getElem?, List.mem_map]
  rfl

theorem activeAt_iff {k : ℕ} :
    ActiveAt hosts k ↔ (hosts.map GwBackend.isActive)[k]? = some true := by
  rw [List.getElem?_map, Option.map_eq_some_iff]
  rfl

theorem mem_inTurn {p : List Bool} {last : ℤ} {i : ℕ} :
    i ∈ inTurn p last ↔ p[i]? = some true := by
  rw [(inTurn_perm p last).mem_iff, mem_activeFrom]
  simp

theorem electRr_of_nil (h : inTurn (ext.hosts.map GwBackend.isActive) ext.lastUsedNdx = []) :
    electRr ext = none := by
  obtain ⟨hpost, hpre⟩ := List.append_eq_nil_iff.mp h
  rw [← List.map_drop] at hpost
  rw [← List.map_take, activeFrom_eq_nil, List.any_map] at hpre
  rw [electRr, rrNext_of_nil hpost, List.length_drop, rrWrap_eq]
  have hend : ¬ (ext.lastUsedNdx + 1).toNat + (ext.hosts.length - (ext.lastUsedNdx + 1).toNat) <
      ext.hosts.length := by omega
  have hany : (ext.hosts.take (ext.lastUsedNdx + 1).toNat).any GwBackend.isActive = false := hpre
  simp [hend, hany]

/-- The election finds an active host unless there is none or all of them are full. -/
theorem gwElect_spec {input : GwHostGetInput} {ext : GwExtension} (h : ext.Ok)
    (balance : GwBalance) :
    (∀ k, (gwElect input ext balance).1 = some k → ActiveAt ext.hosts k) ∧
      ((gwElect input ext balance).1 = none ↔
        ¬ SomeActive ext.hosts ∨ LoadFull ext balance) := by
  unfold gwElect
  split_ifs with hone
  · have hfull : ¬ LoadFull ext balance := fun hfull => by
      have := hfull.2.1
      omega
    rcases hb : ext.hosts with _ | ⟨b, _ | ⟨c, bs⟩⟩
    · simp [SomeActive, hfull]
    · by_cases hactive : b.isActive = true
      · simp [SomeActive, ActiveAt, hfull, hactive]
      · simp [SomeActive, hfull, hactive]
    · rw [hb] at hone
      simp at hone
  · have htwo : 2 ≤ ext.hosts.length := by omega
    cases balance with
    | hash =>
      refine ⟨fun k hk => elect_activeAt hk, ?_⟩
      simp [electHash, elect_takesMax_none, LoadFull]
    | sticky =>
      refine ⟨fun k hk => elect_activeAt hk, ?_⟩
      simp [electSticky, elect_takesMax_none, LoadFull]
    | leastConnection =>
      refine ⟨fun k hk => elect_activeAt hk, ?_⟩
      rw [electLeast_none h.load_le]
      constructor
      · intro hall
        by_cases hsome : SomeActive ext.hosts
        · exact .inr ⟨rfl, htwo, hsome, hall⟩
        · exact .inl hsome
      · rintro (hnone | hfull)
        · exact fun b hb hactive => absurd ⟨b, hb, hactive⟩ hnone
        · exact hfull.2.2.2
    | rr =>
      cases horder : inTurn (ext.hosts.map GwBackend.isActive) ext.lastUsedNdx with
      | nil =>
        have hnone : ¬ SomeActive ext.hosts := by
          rw [someActive_iff]
          rintro ⟨i, hi⟩
          rw [← @mem_inTurn _ ext.lastUsedNdx, horder] at hi
          cases hi
        simp [electRr_of_nil horder, hnone]
      | cons r rest =>
        have hr : (ext.hosts.map GwBackend.isActive)[r]? = some true := by
          rw [← @mem_inTurn _ ext.lastUsedNdx, horder]
          exact List.mem_cons_self
        have hactive : ActiveAt ext.hosts r := activeAt_iff.mpr hr
        simp [(electRr_inTurn h.last_ge h.last_lt horder).1, hactive, hactive.some, LoadFull]

/-- A spawn of a first process is only tried at hosts without one. -/
theorem spawnFirst_spec (spawn : ℕ → SpawnInput) : ∀ {hosts : List GwBackend} (k : ℕ),
    (∀ b ∈ hosts, (b.gw.listed b.gw.unusedProcs).isSome) →
      ∃ ndx hosts', spawnFirst spawn hosts k = some (ndx, hosts') ∧
        ∀ j, ndx = some j → ∃ i b, j = k + i ∧ hosts[i]? = some b ∧ b.gw.numProcs = 0
  | [], _, _ => ⟨none, [], rfl, by simp⟩
  | b :: bs, k, hends => by
    obtain ⟨ndx, hosts', heq, hspawned⟩ :=
      spawnFirst_spec spawn (k + 1) fun c hc => hends c (List.mem_cons_of_mem b hc)
    have hlater : ∀ j, ndx = some j →
        ∃ i c, j = k + i ∧ (b :: bs)[i]? = some c ∧ c.gw.numProcs = 0 := by
      intro j hj
      obtain ⟨i, c, rfl, hc, hnum⟩ := hspawned j hj
      exact ⟨i + 1, c, by omega, by simpa using hc, hnum⟩
    rw [spawnFirst]
    split_ifs with hfirst
    · obtain ⟨gw, hgw⟩ : ∃ gw, gwProcSpawn (spawn k) b.gw = some gw := by
        obtain ⟨procs, hprocs⟩ := Option.isSome_iff_exists.mp (hends b List.mem_cons_self)
        rw [gwProcSpawn, hprocs, Option.map_some]
        cases spawnScan (spawn k).now b.gw procs <;> exact ⟨_, rfl⟩
      rw [hgw, Option.bind_some]
      split_ifs
      · refine ⟨some k, _, rfl, fun j hj => ?_⟩
        obtain rfl := Option.some.inj hj
        exact ⟨0, b, rfl, rfl, hfirst.2.1⟩
      · exact ⟨ndx, _, by rw [heq]; rfl, hlater⟩
    · exact ⟨ndx, _, by rw [heq]; rfl, hlater⟩

/-- A call has a result, and an active host that it returns is the elected one. -/
theorem gwHostGet_ndx {input : GwHostGetInput} {ext : GwExtension} (h : ext.Ok)
    (balance : GwBalance) :
    ∃ got, gwHostGet input ext balance = some got ∧
      ∀ k, got.ndx = some k ∧ ActiveAt ext.hosts k ↔ (gwElect input ext balance).1 = some k := by
  have hactive := (@gwElect_spec input ext h balance).1
  rw [gwHostGet]
  generalize gwElect input ext balance = sel at hactive ⊢
  obtain ⟨ndx, last⟩ := sel
  cases ndx with
  | some k => exact ⟨_, rfl, fun j => ⟨fun hj => hj.1, fun hj => ⟨hj, hactive j hj⟩⟩⟩
  | none =>
    dsimp only
    split_ifs
    · obtain ⟨ndx, hosts', hspawn, hfirst⟩ := spawnFirst_spec input.spawn 0 h.ends
      rw [hspawn]
      cases ndx with
      | none => exact ⟨_, rfl, fun j => by simp⟩
      | some i =>
        refine ⟨_, rfl, fun j => ⟨fun hj => ?_, by simp⟩⟩
        -- a host without processes has no active ones
        obtain ⟨hij, b, hb, hup⟩ := hj
        obtain rfl : i = j := Option.some.inj hij
        obtain ⟨i', c, rfl, hc, hnum⟩ := hfirst i rfl
        rw [Nat.zero_add] at hb
        obtain rfl := Option.some.inj (hb.symm.trans hc)
        have hle := h.active_le b (List.mem_of_getElem? hb)
        have hpos : 0 < b.gw.activeProcs := by simpa [GwBackend.isActive] using hup
        omega
    · exact ⟨_, rfl, fun j => by simp⟩

theorem gwHostGet_live_iff (input : GwHostGetInput) (h : ext.Ok) (balance : GwBalance) :
    ∃ got, gwHostGet input ext balance = some got ∧
      (((∃ k, got.ndx = some k ∧ ActiveAt ext.hosts k) ↔ SomeActive ext.hosts) ↔
        ¬ LoadFull ext balance) := by
  obtain ⟨got, hgot, hndx⟩ := @gwHostGet_ndx input ext h balance
  obtain ⟨hactive, hnone⟩ := @gwElect_spec input ext h balance
  refine ⟨got, hgot, ?_⟩
  simp only [hndx]
  cases helect : (gwElect input ext balance).1 with
  | some k =>
    have hfound : ¬ (¬ SomeActive ext.hosts ∨ LoadFull ext balance) := by
      rw [← hnone, helect]
      simp
    obtain ⟨hsome, hfull⟩ := not_or.mp hfound
    simp [not_not.mp hsome, hfull]
  | none =>
    have hsplit := hnone.mp helect
    have hfull : LoadFull ext balance → SomeActive ext.hosts := fun hfull => hfull.2.2.1
    simp only [reduceCtorEq, exists_false, false_iff]
    tauto

/-- A host with one process that was started elsewhere. -/
def proxyHost (load : ℤ) : GwHost where
  live := [1]
  cell _ :=
    { id := 0, pid := 0, load := load, lastUsed := 0, prev := none, next := none,
      disabledUntil := 0, isLocal := false, state := .running }
  first := some 1
  unusedProcs := none
  numProcs := 1
  activeProcs := 1
  maxId := 1
  load := load
  conf :=
    { minProcs := 1, maxProcs := 1, maxLoadPerProc := 1, idleTimeout := 60, disableTime := 1,
      binPath := false }

/-- Two of them, none of which was used yet. -/
def proxyExt (load : ℤ) : GwExtension where
  hosts := List.replicate 2 ⟨proxyHost load, str "127.0.0.1", 8080⟩
  lastUsedNdx := -1
  noteIsSent := false

def proxyInput : GwHostGetInput where
  crc32c _ := 0
  path := str "/"
  authority := str "localhost"
  dstAddrBuf := str "127.0.0.1"
  noWorkers := true
  spawn _ :=
    { now := 0, new := 2, sockaddr := true, calls := forkCalls 2 }

theorem proxyExt_ok {load : ℤ} (h : load ≤ intMax) : (proxyExt load).Ok where
  used_lt := by
    rw [proxyExt, List.length_replicate]
    decide
  last_ge := le_rfl
  last_lt := by simp [proxyExt]
  active_le b hb := by rw [List.eq_of_mem_replicate hb]; exact le_rfl
  load_le b hb := by rw [List.eq_of_mem_replicate hb]; exact h
  ends b hb := by rw [List.eq_of_mem_replicate hb]; rfl

end Lighttpd
