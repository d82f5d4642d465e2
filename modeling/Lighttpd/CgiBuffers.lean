import Lighttpd.Buffer
import Lighttpd.DataArray
import Mathlib.Data.List.Dedup

/-!
# The buffers of the CGI launcher

`mod_cgi` starts a command server for each thread and hands it the command, the environment and
the name of a socket as strings of a fixed size. Every write into one of these strings and every
entry of `usock_info` that is looked at is a `CgiAccess`; `cgiAccesses_inBounds_iff` says which
runs have only accesses inside the arrays.

A run goes on behind an access out of bounds as if the memory there were free. What the sockets and
the commands do is left out.
-/

namespace Lighttpd

open CString

/-! ## Writing strings -/

/-- A C string that `snprintf` can write with a blank behind it, so that the length it returns is
right. -/
structure CText where
  bytes : Bytes
  noNul : (0 : UInt8) ∉ bytes
  short : bytes.length + 2 < 2 ^ 31
  deriving DecidableEq

/-- The bytes as a text when they are one. -/
def CText.ofBytes (s : Bytes) : CText :=
  if h : (0 : UInt8) ∉ s ∧ s.length + 2 < 2 ^ 31 then ⟨s, h.1, h.2⟩
  else ⟨[], List.not_mem_nil, by decide⟩

/-- The range of a write. -/
structure WriteRange where
  start : ℕ
  len : ℕ
  deriving DecidableEq, Repr

/-- A write lies inside an array. -/
def WriteRange.Inside (size : ℕ) (w : WriteRange) : Prop := w.len = 0 ∨ w.start + w.len ≤ size

instance (size : ℕ) : DecidablePred (WriteRange.Inside size) := fun _ =>
  inferInstanceAs (Decidable (_ ∨ _))

/-- What `snprintf(&array[start], n, ..)` writes of a string of a length. -/
def snprintfWrite (start n textLength : ℕ) : WriteRange := ⟨start, min (textLength + 1) n⟩

def CGIPATH_LEN : ℕ := 256
def USOCK_LEN : ℕ := 16
def ENV_STRING : ℕ := 1024

/-! ## The launcher -/

/-- What `stat` says of a file: it is a regular file, and someone may execute it. -/
structure FileMode where
  isRegular : Bool
  isExecutable : Bool
  deriving DecidableEq, Repr

/-- The options of `mod_cgi` that `cgi_is_handled` reads. -/
structure CgiConf where
  cgi : DataArray Buffer
  executeXOnly : Bool
  deriving DecidableEq, Repr

/-- A step of a thread. `isHandled` is a call of `cgi_is_handled`, with `con->mode == DIRECT`, the
physical path and what `stat` says of it. `createEnv` is a call of `cgi_create_env` with what `stat`
says of the handler, the physical path, the environment and the length of the body. `sendCommand`
is the call of `cgi_send_command` when the body has been written. -/
inductive CgiEvent
  | isHandled (tid : ℕ) (conf : CgiConf) (direct : Bool) (fn : Option CText) (st : Option FileMode)
  | createEnv (tid : ℕ) (cgiHandler : Option CText) (stat : Bool) (path : CText)
      (envs : List CText) (contentLength : ℤ)
  | sendCommand (tid : ℕ)
  deriving DecidableEq

/-- An access to one of the arrays. `usockInfo` has the number of the entry that is looked at or
written and, where the entry of this thread is needed, whether it is one. -/
inductive CgiAccess
  | envString (write : WriteRange)
  | basecmd (write : WriteRange)
  | cgipath (write : WriteRange)
  | usockInfo (index : ℕ) (registered : Bool)
  deriving DecidableEq, Repr

/-- The access stays inside its array. -/
def CgiAccess.InBounds : CgiAccess → Prop
  | envString w => w.Inside ENV_STRING
  | basecmd w => w.Inside CGIPATH_LEN
  | cgipath w => w.Inside CGIPATH_LEN
  | usockInfo i registered => i < USOCK_LEN ∧ registered = true

instance : DecidablePred CgiAccess.InBounds
  | .envString w => inferInstanceAs (Decidable (w.Inside ENV_STRING))
  | .basecmd w => inferInstanceAs (Decidable (w.Inside CGIPATH_LEN))
  | .cgipath w => inferInstanceAs (Decidable (w.Inside CGIPATH_LEN))
  | .usockInfo i registered => inferInstanceAs (Decidable (i < USOCK_LEN ∧ registered = true))

/-- The part of `plugin_data` that the threads share: the string in `cgipath` and the threads of the
first `usock_num` entries of `usock_info`. -/
structure CgiPlugin where
  cgipath : Bytes
  tids : List ℕ
  deriving DecidableEq, Repr

/-- `mod_cgi_init`. -/
def CgiPlugin.init : CgiPlugin := ⟨[], []⟩

/-- `mod_cgi_find_usock_info`. -/
def modCgiFindUsockInfo (p : CgiPlugin) (tid : ℕ) : ℕ := p.tids.findIdx (· = tid)

/-- The entries that `mod_cgi_find_usock_info` looks at. -/
def findAccesses (p : CgiPlugin) (tid : ℕ) : List CgiAccess :=
  (List.range (min (modCgiFindUsockInfo p tid + 1) p.tids.length)).map (.usockInfo · true)

/-- The loop of `cgi_create_usock_env`. -/
def envStringWrites : ℕ → List CText → List WriteRange
  | _, [] => []
  | length, env :: envs =>
    snprintfWrite length (sizeSub ENV_STRING length) (env.bytes.length + 1) ::
      envStringWrites ((length + (env.bytes.length + 1)) % 2 ^ 64) envs

/-- The writes of `cgi_create_env` into `basecmd`. -/
def basecmdWrites (cgiHandler : Option CText) (path : CText) : List WriteRange :=
  match cgiHandler with
  | some h =>
    if h.bytes ≠ [] then
      [snprintfWrite 0 CGIPATH_LEN (h.bytes.length + 1),
        snprintfWrite (h.bytes.length + 1) (sizeSub CGIPATH_LEN (h.bytes.length + 1))
          path.bytes.length]
    else [snprintfWrite 0 CGIPATH_LEN path.bytes.length]
  | none => [snprintfWrite 0 CGIPATH_LEN path.bytes.length]

/-- `cgi_send_command`. -/
def cgiSendCommand (p : CgiPlugin) (tid : ℕ) : List CgiAccess :=
  findAccesses p tid ++
    [.usockInfo (modCgiFindUsockInfo p tid) (decide (modCgiFindUsockInfo p tid < p.tids.length))]

/-- The handler of a script is set and cannot be found. -/
def handlerFails (cgiHandler : Option CText) (stat : Bool) : Bool :=
  cgiHandler.any (·.bytes ≠ []) && !stat

/-- `cgi_create_env`. -/
def cgiCreateEnv (p : CgiPlugin) (tid : ℕ) (cgiHandler : Option CText) (stat : Bool)
    (path : CText) (envs : List CText) (contentLength : ℤ) : List CgiAccess :=
  if handlerFails cgiHandler stat then []
  else
    (basecmdWrites cgiHandler path).map .basecmd ++ (envStringWrites 0 envs).map .envString ++
      if contentLength ≠ 0 then [] else cgiSendCommand p tid

/-- `cgi_get_handler`. -/
def cgiGetHandler (a : DataArray Buffer) (fn : Bytes) : Option Buffer :=
  (a.live.find? fun ds => ds.key.isSome && decide (ds.key.string.length ≤ fn.length) &&
    decide (cstr (fn.drop (fn.length - ds.key.string.length)) = cstr ds.key.string)).map (·.value)

/-- The checks of `cgi_is_handled` in front of the part that sets up the launcher. -/
def cgiHandles (conf : CgiConf) (direct : Bool) (fn : Option CText) (st : Option FileMode) :
    Option CText :=
  match fn, st with
  | some fn, some st =>
    if direct && st.isRegular && (!conf.executeXOnly || st.isExecutable) &&
      (cgiGetHandler conf.cgi fn.bytes).isSome then some fn else none
  | _, _ => none

/-- The directory of the script, when `cgipath` is not set yet. -/
def setCgipath (p : CgiPlugin) (fn : CText) : CgiPlugin × List CgiAccess :=
  if p.cgipath = [] then
    match strrchr fn.bytes 47 with
    | none => ({ p with cgipath := [46] }, [.cgipath ⟨0, 1⟩])
    | some dir =>
      ({ p with cgipath := fn.bytes.take dir },
        [.cgipath (snprintfWrite 0 (dir + 1) fn.bytes.length)])
  else (p, [])

/-- The entry of a new thread. -/
def registerThread (p : CgiPlugin) (tid : ℕ) : CgiPlugin × List CgiAccess :=
  if modCgiFindUsockInfo p tid = p.tids.length then
    ({ p with tids := p.tids ++ [tid] },
      findAccesses p tid ++ [.usockInfo (modCgiFindUsockInfo p tid) true])
  else (p, findAccesses p tid)

/-- `cgi_is_handled`. -/
def cgiIsHandled (p : CgiPlugin) (tid : ℕ) (conf : CgiConf) (direct : Bool) (fn : Option CText)
    (st : Option FileMode) : CgiPlugin × List CgiAccess :=
  match cgiHandles conf direct fn st with
  | none => (p, [])
  | some fn =>
    let path := setCgipath p fn
    let thread := registerThread path.1 tid
    (thread.1, path.2 ++ thread.2)

/-- A step of a thread. -/
def cgiStep (p : CgiPlugin) : CgiEvent → CgiPlugin × List CgiAccess
  | .isHandled tid conf direct fn st => cgiIsHandled p tid conf direct fn st
  | .createEnv tid h stat path envs len => (p, cgiCreateEnv p tid h stat path envs len)
  | .sendCommand tid => (p, cgiSendCommand p tid)

/-- The accesses of a run. -/
def cgiAccesses (p : CgiPlugin) : List CgiEvent → List CgiAccess
  | [] => []
  | e :: es => (cgiStep p e).2 ++ cgiAccesses (cgiStep p e).1 es

/-- The launcher after a run. -/
def cgiRun (p : CgiPlugin) : List CgiEvent → CgiPlugin
  | [] => p
  | e :: es => cgiRun (cgiStep p e).1 es

/-- The length of the environment as `cgi_create_usock_env` writes it. -/
def envTextLength (envs : List CText) : ℕ := (envs.map fun e => e.bytes.length + 1).sum

theorem snprintfWrite_inside {start size : ℕ} (textLength : ℕ) (h : start ≤ size)
    (hs : size < 2 ^ 64) : (snprintfWrite start (sizeSub size start) textLength).Inside size := by
  rw [sizeSub_of_le h hs]
  right
  simp only [snprintfWrite]
  omega

/-- Behind the end of the array the size that is left is no bound any more. -/
theorem not_snprintfWrite_inside {start size textLength : ℕ} (h : size < start)
    (hs : start < 2 ^ 64) :
    ¬ (snprintfWrite start (sizeSub size start) textLength).Inside size := by
  have hpos := sizeSub_pos h hs
  simp only [WriteRange.Inside, snprintfWrite]
  omega

/-- Every variable is written inside the array when those in front of it leave the place for
a NUL. -/
theorem envStringWrites_inside_iff :
    ∀ (envs : List CText) {length : ℕ}, length ≤ ENV_STRING →
      ((∀ w ∈ envStringWrites length envs, w.Inside ENV_STRING) ↔
        length + envTextLength envs.dropLast ≤ ENV_STRING)
  | [], length, h => by simpa [envStringWrites, envTextLength] using h
  | env :: envs, length, h => by
    have hsize : ENV_STRING < 2 ^ 64 := by decide
    have hfirst := snprintfWrite_inside (env.bytes.length + 1) h hsize
    have hshort := env.short
    have hmod : (length + (env.bytes.length + 1)) % 2 ^ 64 = length + (env.bytes.length + 1) :=
      Nat.mod_eq_of_lt (by unfold ENV_STRING at h; omega)
    rw [envStringWrites, List.forall_mem_cons, hmod, and_iff_right hfirst]
    cases henvs : envs with
    | nil => simpa [envStringWrites, envTextLength] using h
    | cons next rest =>
      have htext : length + envTextLength (env :: next :: rest).dropLast =
          length + (env.bytes.length + 1) + envTextLength (next :: rest).dropLast := by
        simp [envTextLength, Nat.add_assoc]
      rw [htext]
      by_cases hle : length + (env.bytes.length + 1) ≤ ENV_STRING
      · exact envStringWrites_inside_iff (next :: rest) hle
      · refine iff_of_false (fun hall => ?_) (by omega)
        refine not_snprintfWrite_inside (not_le.mp hle) ?_ (hall _ List.mem_cons_self)
        unfold ENV_STRING at h
        omega

theorem basecmdWrites_inside_iff (cgiHandler : Option CText) (path : CText) :
    (∀ w ∈ basecmdWrites cgiHandler path, w.Inside CGIPATH_LEN) ↔
      ∀ h, cgiHandler = some h → h.bytes.length < CGIPATH_LEN := by
  have hsize : CGIPATH_LEN < 2 ^ 64 := by decide
  have hzero : ∀ n, (snprintfWrite 0 CGIPATH_LEN n).Inside CGIPATH_LEN := fun n => by
    simpa [sizeSub_of_le (Nat.zero_le _) hsize] using
      snprintfWrite_inside n (Nat.zero_le _) hsize
  cases cgiHandler with
  | none => simpa [basecmdWrites] using hzero _
  | some h =>
    have hshort := h.short
    simp only [basecmdWrites, Option.some.injEq, forall_eq']
    split_ifs with hne
    · simp only [List.mem_cons, List.not_mem_nil, or_false, forall_eq_or_imp, forall_eq,
        hzero, true_and]
      constructor
      · intro hw
        by_contra hlt
        exact not_snprintfWrite_inside (by omega) (by omega) hw
      · exact fun hlt => snprintfWrite_inside _ hlt hsize
    · have hnil : h.bytes = [] := not_not.mp hne
      simpa [hnil, CGIPATH_LEN] using hzero _

/-! ## The threads -/

/-- The thread and the physical path when a call of `cgi_is_handled` sets up the launcher. -/
def CgiEvent.handled : CgiEvent → Option (ℕ × CText)
  | isHandled tid conf direct fn st => (cgiHandles conf direct fn st).map fun path => (tid, path)
  | createEnv .. => none
  | sendCommand _ => none

/-- The thread of a step that sends a command. -/
def CgiEvent.sends : CgiEvent → Option ℕ
  | isHandled .. => none
  | createEnv tid h stat _ _ len =>
    if handlerFails h stat = false ∧ len = 0 then some tid else none
  | sendCommand tid => some tid

/-- The handler and the environment of a step have the place they need. -/
def CgiEvent.StringsFit : CgiEvent → Prop
  | isHandled .. => True
  | createEnv _ h stat _ envs _ =>
    handlerFails h stat = false →
      (∀ c, h = some c → c.bytes.length < CGIPATH_LEN) ∧ envTextLength envs.dropLast ≤ ENV_STRING
  | sendCommand _ => True

/-- The threads that set up the launcher, and the physical paths they had. -/
def handledBy (evs : List CgiEvent) : List (ℕ × CText) := evs.filterMap CgiEvent.handled

def handledThreads (evs : List CgiEvent) : List ℕ := (handledBy evs).map Prod.fst

/-- The length of the directory that a path gives `cgipath`. -/
def dirLength (path : CText) : ℕ := (strrchr path.bytes 47).getD 0

/-- A path leaves `cgipath` empty when its only slash stands in front. -/
def SetsCgipath (path : CText) : Prop := strrchr path.bytes 47 ≠ some 0

instance : DecidablePred SetsCgipath := fun _ => inferInstanceAs (Decidable (_ ≠ _))

variable {p : CgiPlugin} {tid : ℕ} {evs : List CgiEvent}

theorem mem_findAccesses {a : CgiAccess} (h : a ∈ findAccesses p tid) :
    ∃ i < p.tids.length, a = .usockInfo i true := by
  obtain ⟨i, hi, rfl⟩ := List.mem_map.mp h
  exact ⟨i, by have := List.mem_range.mp hi; omega, rfl⟩

theorem findAccesses_inBounds (hp : p.tids.length ≤ USOCK_LEN) (tid : ℕ) :
    ∀ a ∈ findAccesses p tid, a.InBounds := by
  intro a ha
  obtain ⟨i, hi, rfl⟩ := mem_findAccesses ha
  exact ⟨by omega, rfl⟩

theorem modCgiFindUsockInfo_lt : modCgiFindUsockInfo p tid < p.tids.length ↔ tid ∈ p.tids := by
  simp [modCgiFindUsockInfo, List.findIdx_lt_length]

theorem modCgiFindUsockInfo_eq : modCgiFindUsockInfo p tid = p.tids.length ↔ tid ∉ p.tids := by
  rw [← modCgiFindUsockInfo_lt]
  have : modCgiFindUsockInfo p tid ≤ p.tids.length := List.findIdx_le_length
  omega

theorem cgiSendCommand_inBounds_iff (hp : p.tids.length ≤ USOCK_LEN) (tid : ℕ) :
    (∀ a ∈ cgiSendCommand p tid, a.InBounds) ↔ tid ∈ p.tids := by
  have hfind := findAccesses_inBounds hp tid
  simp only [cgiSendCommand, List.forall_mem_append, List.forall_mem_singleton, CgiAccess.InBounds,
    decide_eq_true_eq, modCgiFindUsockInfo_lt]
  constructor
  · exact fun h => h.2.2
  · intro h
    have := modCgiFindUsockInfo_lt.mpr h
    exact ⟨hfind, by omega, h⟩

theorem setCgipath_inBounds_iff (p : CgiPlugin) (path : CText) :
    (∀ a ∈ (setCgipath p path).2, a.InBounds) ↔
      (p.cgipath = [] → dirLength path < CGIPATH_LEN) := by
  unfold setCgipath dirLength
  split_ifs with hp
  · cases hdir : strrchr path.bytes 47 with
    | none => simp [hp, CgiAccess.InBounds, WriteRange.Inside, CGIPATH_LEN]
    | some dir =>
      have hlt := strrchr_lt hdir
      simp only [List.forall_mem_singleton, CgiAccess.InBounds, WriteRange.Inside, snprintfWrite,
        hp, forall_const, Option.getD_some]
      omega
  · simp [hp]

theorem setCgipath_tids (p : CgiPlugin) (path : CText) : (setCgipath p path).1.tids = p.tids := by
  unfold setCgipath
  split_ifs
  · cases strrchr path.bytes 47 <;> rfl
  · rfl

theorem setCgipath_cgipath (p : CgiPlugin) (path : CText) :
    (setCgipath p path).1.cgipath = [] ↔ p.cgipath = [] ∧ ¬ SetsCgipath path := by
  unfold setCgipath SetsCgipath
  split_ifs with hp
  · cases hdir : strrchr path.bytes 47 with
    | none => simp
    | some dir =>
      have hlt := strrchr_lt hdir
      have hne : path.bytes ≠ [] := List.ne_nil_of_length_pos (by omega)
      simp [hp, hne]
  · simp [hp]

theorem registerThread_inBounds_iff (hp : p.tids.length ≤ USOCK_LEN) (tid : ℕ) :
    (∀ a ∈ (registerThread p tid).2, a.InBounds) ↔
      (registerThread p tid).1.tids.length ≤ USOCK_LEN := by
  have hfind := findAccesses_inBounds hp tid
  unfold registerThread
  split_ifs with h
  · simp only [List.forall_mem_append, List.forall_mem_singleton, CgiAccess.InBounds,
      List.length_append, List.length_singleton, h, and_true]
    exact ⟨fun h => by omega, fun h => ⟨hfind, by omega⟩⟩
  · exact iff_of_true hfind hp

theorem registerThread_tids (p : CgiPlugin) (tid : ℕ) :
    (registerThread p tid).1.tids = if tid ∈ p.tids then p.tids else p.tids ++ [tid] := by
  unfold registerThread
  by_cases h : tid ∈ p.tids
  · rw [if_neg fun h' => modCgiFindUsockInfo_eq.mp h' h, if_pos h]
  · rw [if_pos (modCgiFindUsockInfo_eq.mpr h), if_neg h]

theorem registerThread_cgipath (p : CgiPlugin) (tid : ℕ) :
    (registerThread p tid).1.cgipath = p.cgipath := by
  unfold registerThread
  split_ifs <;> rfl

/-! ## Runs -/

theorem cgiCreateEnv_inBounds_iff (hp : p.tids.length ≤ USOCK_LEN) (tid : ℕ) (h : Option CText)
    (stat : Bool) (path : CText) (envs : List CText) (len : ℤ) :
    (∀ a ∈ cgiCreateEnv p tid h stat path envs len, a.InBounds) ↔
      (CgiEvent.createEnv tid h stat path envs len).StringsFit ∧
        ∀ t, (CgiEvent.createEnv tid h stat path envs len).sends = some t → t ∈ p.tids := by
  have hbase := basecmdWrites_inside_iff h path
  have henv := envStringWrites_inside_iff envs (Nat.zero_le ENV_STRING)
  have hsend := cgiSendCommand_inBounds_iff hp tid
  rw [Nat.zero_add] at henv
  simp only [cgiCreateEnv, CgiEvent.StringsFit, CgiEvent.sends]
  cases handlerFails h stat with
  | true => simp
  | false =>
    have hwrites : (∀ a ∈ (basecmdWrites h path).map .basecmd ++
        (envStringWrites 0 envs).map .envString, CgiAccess.InBounds a) ↔
        (∀ c, h = some c → c.bytes.length < CGIPATH_LEN) ∧
          envTextLength envs.dropLast ≤ ENV_STRING := by
      rw [← hbase, ← henv]
      simp [CgiAccess.InBounds, or_imp, forall_and]
    simp only [Bool.false_eq_true, if_false, true_and, forall_const]
    by_cases hlen : len = 0
    · rw [List.forall_mem_append, hwrites]
      simp [hlen, hsend]
    · rw [List.forall_mem_append, hwrites]
      simp [hlen]

theorem cgiStep_inBounds_iff (hp : p.tids.length ≤ USOCK_LEN) (e : CgiEvent) :
    (∀ a ∈ (cgiStep p e).2, a.InBounds) ↔
      e.StringsFit ∧ (∀ tid, e.sends = some tid → tid ∈ p.tids) ∧
        (∀ t, e.handled = some t → p.cgipath = [] → dirLength t.2 < CGIPATH_LEN) ∧
        (cgiStep p e).1.tids.length ≤ USOCK_LEN := by
  cases e with
  | isHandled tid conf direct fn st =>
    simp only [cgiStep, cgiIsHandled, CgiEvent.StringsFit, CgiEvent.sends, CgiEvent.handled]
    cases cgiHandles conf direct fn st with
    | none => simpa using hp
    | some path =>
      have hset := setCgipath_inBounds_iff p path
      have hreg := registerThread_inBounds_iff (p := (setCgipath p path).1)
        (by rwa [setCgipath_tids]) tid
      simp only [List.forall_mem_append, hset, hreg, Option.map_some, Option.some.injEq,
        forall_eq', reduceCtorEq, false_imp_iff, implies_true, true_and]
  | createEnv tid h stat path envs len =>
    have hcreate := cgiCreateEnv_inBounds_iff hp tid h stat path envs len
    simpa [cgiStep, CgiEvent.handled, hp] using hcreate
  | sendCommand tid =>
    have hsend := cgiSendCommand_inBounds_iff hp tid
    simpa [cgiStep, CgiEvent.StringsFit, CgiEvent.sends, CgiEvent.handled, hp] using hsend

/-- What the threads of a run leave in the launcher. -/
structure Launched (p : CgiPlugin) (evs : List CgiEvent) : Prop where
  nodup : p.tids.Nodup
  mem_tids : ∀ t, t ∈ p.tids ↔ t ∈ handledThreads evs
  cgipath : p.cgipath = [] ↔ ∀ t ∈ handledBy evs, ¬ SetsCgipath t.2

theorem Launched.init : Launched .init [] :=
  ⟨List.nodup_nil, fun _ => Iff.rfl, by simp [CgiPlugin.init, handledBy]⟩

theorem Launched.length_tids (h : Launched p evs) :
    p.tids.length = (handledThreads evs).dedup.length := by
  refine List.Perm.length_eq ((List.perm_ext_iff_of_nodup h.nodup (List.nodup_dedup _)).mpr ?_)
  intro t
  rw [List.mem_dedup, h.mem_tids]

theorem handledBy_concat (evs : List CgiEvent) (e : CgiEvent) :
    handledBy (evs ++ [e]) = handledBy evs ++ e.handled.toList := by
  rw [handledBy, List.filterMap_append]
  cases h : e.handled <;> simp [handledBy, h]

theorem Launched.step (h : Launched p evs) (e : CgiEvent) :
    Launched (cgiStep p e).1 (evs ++ [e]) := by
  have hby := handledBy_concat evs e
  have hsame : e.handled = none → (cgiStep p e).1 = p → Launched (cgiStep p e).1 (evs ++ [e]) := by
    intro hnone hp
    rw [hnone, Option.toList_none, List.append_nil] at hby
    rw [hp]
    exact ⟨h.nodup, by simpa [handledThreads, hby] using h.mem_tids, by simpa [hby] using h.cgipath⟩
  cases e with
  | createEnv tid h stat path envs len => exact hsame rfl rfl
  | sendCommand tid => exact hsame rfl rfl
  | isHandled tid conf direct fn st =>
    cases hpath : cgiHandles conf direct fn st with
    | none => exact hsame (by simp [CgiEvent.handled, hpath]) (by simp [cgiStep, cgiIsHandled, hpath])
    | some path =>
      have hnew : (cgiStep p (.isHandled tid conf direct fn st)).1 =
          (registerThread (setCgipath p path).1 tid).1 := by
        simp [cgiStep, cgiIsHandled, hpath]
      simp only [CgiEvent.handled, hpath, Option.map_some, Option.toList_some] at hby
      rw [hnew]
      refine ⟨?_, fun t => ?_, ?_⟩
      · rw [registerThread_tids, setCgipath_tids]
        split_ifs with hmem
        · exact h.nodup
        · exact List.nodup_append.mpr ⟨h.nodup, List.nodup_singleton tid, by
            intro a ha b hb
            rw [List.mem_singleton.mp hb]
            rintro rfl
            exact hmem ha⟩
      · have hmem : t ∈ handledThreads (evs ++ [.isHandled tid conf direct fn st]) ↔
            t ∈ p.tids ∨ t = tid := by
          rw [handledThreads, hby, List.map_append, List.mem_append, h.mem_tids]
          simp [handledThreads]
        rw [hmem, registerThread_tids, setCgipath_tids]
        split_ifs with ht
        · exact ⟨.inl, fun h => h.elim id fun h => h ▸ ht⟩
        · simp
      · rw [registerThread_cgipath, setCgipath_cgipath, h.cgipath, hby]
        simp [or_imp, forall_and]

theorem cgiRun_concat (p : CgiPlugin) (evs : List CgiEvent) (e : CgiEvent) :
    cgiRun p (evs ++ [e]) = (cgiStep (cgiRun p evs) e).1 := by
  induction evs generalizing p with
  | nil => rfl
  | cons e' evs ih => exact ih _

theorem cgiAccesses_concat (p : CgiPlugin) (evs : List CgiEvent) (e : CgiEvent) :
    cgiAccesses p (evs ++ [e]) = cgiAccesses p evs ++ (cgiStep (cgiRun p evs) e).2 := by
  induction evs generalizing p with
  | nil => simp [cgiAccesses, cgiRun]
  | cons e' evs ih => simp [cgiAccesses, cgiRun, ih]

theorem Launched.run (evs : List CgiEvent) : Launched (cgiRun .init evs) evs := by
  induction evs using List.reverseRecOn with
  | nil => exact Launched.init
  | append_singleton evs e ih =>
    rw [cgiRun_concat]
    exact ih.step e

/-- The strings, the paths and the threads of a run have the place they need: the handlers and the
environments in their strings; the directory of the first path that sets `cgipath`; an entry for
each thread. A command is sent by a thread that has an entry. -/
structure CgiRunFits (evs : List CgiEvent) : Prop where
  strings : ∀ e ∈ evs, e.StringsFit
  cgipath : ∀ t, (handledBy evs).find? (SetsCgipath ·.2) = some t → dirLength t.2 < CGIPATH_LEN
  threads : (handledThreads evs).dedup.length ≤ USOCK_LEN
  sends : ∀ (i : ℕ) e, evs[i]? = some e → ∀ tid, e.sends = some tid →
    tid ∈ handledThreads (evs.take i)

theorem length_tids_le_cgiStep (p : CgiPlugin) (e : CgiEvent) :
    p.tids.length ≤ (cgiStep p e).1.tids.length := by
  cases e with
  | createEnv => exact le_rfl
  | sendCommand => exact le_rfl
  | isHandled tid conf direct fn st =>
    simp only [cgiStep, cgiIsHandled]
    cases cgiHandles conf direct fn st with
    | none => exact le_rfl
    | some path =>
      simp only [registerThread_tids, setCgipath_tids]
      split_ifs <;> simp

theorem CgiRunFits.nil : CgiRunFits [] where
  strings _ h := absurd h List.not_mem_nil
  cgipath _ h := by cases h
  threads := Nat.zero_le _
  sends _ _ h := by cases h

theorem CgiRunFits.concat_iff {e : CgiEvent} :
    CgiRunFits (evs ++ [e]) ↔ CgiRunFits evs ∧ e.StringsFit ∧
      (∀ tid, e.sends = some tid → tid ∈ (cgiRun .init evs).tids) ∧
      (∀ t, e.handled = some t → (cgiRun .init evs).cgipath = [] → dirLength t.2 < CGIPATH_LEN) ∧
      (cgiStep (cgiRun .init evs) e).1.tids.length ≤ USOCK_LEN := by
  have hrun := Launched.run evs
  have hnext := (hrun.step e).length_tids
  have hby := handledBy_concat evs e
  constructor
  · intro h
    refine ⟨⟨fun e' he' => h.strings e' (List.mem_append_left _ he'), fun t ht => ?_, ?_,
      fun i e' hi tid hs => ?_⟩, h.strings e (by simp), fun tid hs => ?_, fun t ht hp => ?_, ?_⟩
    · exact h.cgipath t (by rw [hby, List.find?_append, ht]; rfl)
    · have hle := length_tids_le_cgiStep (cgiRun .init evs) e
      have := h.threads
      rw [← hrun.length_tids]
      omega
    · have hlt := (List.getElem?_eq_some_iff.mp hi).1
      have := h.sends i e' (by rw [List.getElem?_append_left hlt]; exact hi) tid hs
      rwa [List.take_append_of_le_length hlt.le] at this
    · have := h.sends evs.length e (by simp) tid hs
      rw [List.take_left] at this
      exact (hrun.mem_tids tid).mpr this
    · by_cases hset : SetsCgipath t.2
      · refine h.cgipath t ?_
        have hnone : (handledBy evs).find? (SetsCgipath ·.2) = none := by
          simpa using hrun.cgipath.mp hp
        rw [hby, List.find?_append, hnone, ht]
        simp [hset]
      · rw [dirLength, not_not.mp hset]
        decide
    · rw [hnext]
      exact h.threads
  · rintro ⟨h, hstrings, hsends, hdir, hlen⟩
    refine ⟨fun e' he' => ?_, fun t ht => ?_, by rwa [← hnext], fun i e' hi tid hs => ?_⟩
    · rcases List.mem_append.mp he' with he' | he'
      · exact h.strings e' he'
      · rwa [List.mem_singleton.mp he']
    · rw [hby, List.find?_append] at ht
      cases hfind : (handledBy evs).find? (SetsCgipath ·.2) with
      | some t' =>
        rw [hfind] at ht
        exact h.cgipath t (hfind.trans ht)
      | none =>
        rw [hfind, Option.none_or] at ht
        have hp := hrun.cgipath.mpr (by simpa using hfind)
        exact hdir t (Option.mem_toList.mp (List.mem_of_find?_eq_some ht)) hp
    · rcases lt_or_ge i evs.length with hlt | hge
      · rw [List.getElem?_append_left hlt] at hi
        rw [List.take_append_of_le_length hlt.le]
        exact h.sends i e' hi tid hs
      · have hlen := (List.getElem?_eq_some_iff.mp hi).1
        rw [List.length_append, List.length_singleton] at hlen
        obtain rfl : i = evs.length := by omega
        rw [List.getElem?_concat_length, Option.some.injEq] at hi
        rw [List.take_left]
        exact (hrun.mem_tids tid).mp (hsends tid (hi ▸ hs))

/-- The accesses of a run stay inside the arrays exactly when the handlers, the environments, the
first directory and the number of threads fit and each command is sent by a thread that
`cgi_is_handled` has registered. -/
theorem cgiAccesses_inBounds_iff (evs : List CgiEvent) :
    (∀ a ∈ cgiAccesses .init evs, a.InBounds) ↔ CgiRunFits evs := by
  induction evs using List.reverseRecOn with
  | nil => exact iff_of_true (fun _ h => absurd h List.not_mem_nil) CgiRunFits.nil
  | append_singleton evs e ih =>
    rw [cgiAccesses_concat, List.forall_mem_append, ih, CgiRunFits.concat_iff]
    refine and_congr_right fun h => ?_
    have hp : (cgiRun .init evs).tids.length ≤ USOCK_LEN := by
      rw [(Launched.run evs).length_tids]
      exact h.threads
    exact cgiStep_inBounds_iff hp e

/-- The environment of a request with a long query, as `http_cgi_headers` builds it. -/
def longQueryEnv : List CText :=
  ([str "CONTENT_LENGTH=0", str "QUERY_STRING=" ++ List.replicate 1100 97,
    str "REQUEST_URI=/a.pl?" ++ List.replicate 1100 97, str "REDIRECT_STATUS=200",
    str "SCRIPT_NAME=/a.pl", str "SCRIPT_FILENAME=/srv/a.pl", str "DOCUMENT_ROOT=/srv",
    str "REQUEST_METHOD=GET", str "SERVER_PROTOCOL=HTTP/1.0", str "SERVER_SOFTWARE=lighttpd/1.4.49",
    str "GATEWAY_INTERFACE=CGI/1.1", str "REQUEST_SCHEME=http", str "SERVER_PORT=80",
    str "SERVER_ADDR=127.0.0.1", str "SERVER_NAME=127.0.0.1", str "REMOTE_ADDR=127.0.0.1",
    str "REMOTE_PORT=1024"]).map CText.ofBytes

/-- `cgi.assign = (".pl" => "")`. -/
def plConf : CgiConf where
  cgi := ⟨[some ⟨.string, some (str ".pl"), false, some []⟩], [0], 1, 0⟩
  executeXOnly := false

/-- A request with a long query makes `cgi_create_usock_env` write behind `env_string`. -/
theorem cgiAccesses_not_inBounds :
    ¬ ∀ (evs : List CgiEvent), ∀ a ∈ cgiAccesses .init evs, a.InBounds := by
  intro h
  have hrun := h [.isHandled 7 plConf true (some (.ofBytes (str "/srv/a.pl"))) (some ⟨true, true⟩),
    .createEnv 7 (some (.ofBytes [])) true (.ofBytes (str "/srv/a.pl")) longQueryEnv 0]
  exact absurd hrun (by decide +kernel)

end Lighttpd
