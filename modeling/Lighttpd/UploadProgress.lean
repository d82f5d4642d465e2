import Mathlib.Data.List.Count
import Mathlib.Logic.Function.Basic
import Lighttpd.RequestHeaders
import Lighttpd.Lib.PartialRuns
import Lighttpd.Lib.Strtol

/-!
# The table of uploads

`mod_uploadprogress` keeps a table of connections under the ids that their requests name. The
handler of a POST request appends an entry, and the `connection_reset` hook removes the first entry
of the connection, if the request is a POST request by then. An entry of the model also says for
which request it was made, and how often the hook of the connection had run.

`uploads_running_iff` says in which runs the table has running uploads only.
-/

namespace Lighttpd

open CString PartialRuns

/-- An entry of `con_map`. The request and the number of runs of the hook are those of the
connection when the entry was made. -/
structure MapEntry where
  conId : Bytes
  con : ℕ
  request : ℕ
  hooks : ℕ
  deriving DecidableEq, Repr

/-- `connection_map_insert`. -/
def connectionMapInsert (cm : List MapEntry) (cme : MapEntry) : List MapEntry := cm ++ [cme]

/-- `connection_map_get_connection`. -/
def connectionMapGetConnection (cm : List MapEntry) (id : Bytes) : Option ℕ :=
  (cm.find? fun cme => cme.conId = id).map MapEntry.con

/-- `connection_map_remove_connection`: the last entry takes the place of the first one of the
connection. -/
def connectionMapRemoveConnection (cm : List MapEntry) (con : ℕ) : List MapEntry :=
  match cm.findIdx? fun cme => cme.con = con, cm.getLast? with
  | some i, some last => (cm.set i last).dropLast
  | _, _ => cm

/-- What the hooks read of a connection. `running` says that a request has been read and its
connection not been reset, `request` counts the requests and `hooks` the runs of the hook. -/
structure UploadCon where
  httpMethod : HttpMethod
  uriPath : Buffer
  uriQuery : Buffer
  progressId : Option Bytes
  contentLength : ℤ
  bytesIn : ℕ
  running : Bool
  request : ℕ
  hooks : ℕ
  deriving DecidableEq, Repr

/-- The text that should start with the id. -/
def UploadCon.idText (con : UploadCon) : Option Bytes :=
  match con.progressId with
  | some value => some value
  | none =>
    match if bufferStringIsEmpty con.uriQuery then none
      else strstr con.uriQuery.string (str "X-Progress-ID=") with
    | some i => some (con.uriQuery.string.drop (i + 14))
    | none =>
      let path := con.uriPath.string
      if 33 ≤ path.length ∧ path[path.length - 33]? = some 47 then
        some (path.drop (path.length - 32))
      else none

/-- The 32 hexadecimal digits that a request names. -/
def UploadCon.id (con : UploadCon) : Option Bytes :=
  con.idText.bind fun text =>
    if (text.takeWhile isXDigit).length = 32 then some (text.takeWhile isXDigit) else none

/-- What the handler answers: nothing, that the id is not known, or the size of a request and the
bytes received of it. -/
inductive UploadAnswer
  | goOn
  | notInProgress
  | report (size : ℤ) (received : ℕ)
  deriving DecidableEq, Repr

/-- The table and the connections. -/
structure UploadState where
  conMap : List MapEntry
  cons : ℕ → UploadCon

/-- `mod_uploadprogress_uri_handler` with the `progress_url` that is configured for the request:
the answer and the table. -/
def modUploadprogressUriHandler (progressUrl : Buffer) (s : UploadState) (c : ℕ) :
    UploadAnswer × List MapEntry :=
  let con := s.cons c
  if bufferStringIsEmpty con.uriPath then (.goOn, s.conMap)
  else if con.httpMethod ≠ .get ∧ con.httpMethod ≠ .post then (.goOn, s.conMap)
  else if bufferStringIsEmpty progressUrl then (.goOn, s.conMap)
  else if con.httpMethod = .get ∧ con.uriPath.string ≠ progressUrl.string then (.goOn, s.conMap)
  else
    match con.id with
    | none => (.goOn, s.conMap)
    | some id =>
      if con.httpMethod = .post then
        (.goOn, connectionMapInsert s.conMap ⟨id, c, con.request, con.hooks⟩)
      else
        match connectionMapGetConnection s.conMap id with
        | none => (.notInProgress, s.conMap)
        | some p => (.report (s.cons p).contentLength (s.cons p).bytesIn, s.conMap)

/-- `mod_uploadprogress_request_done`. -/
def modUploadprogressRequestDone (s : UploadState) (c : ℕ) : List MapEntry :=
  if (s.cons c).httpMethod ≠ .post then s.conMap
  else if bufferStringIsEmpty (s.cons c).uriPath then s.conMap
  else connectionMapRemoveConnection s.conMap c

/-! ## Runs -/

/-- What happens to the connections. -/
inductive UploadEvent
  /-- A request has been read. -/
  | parsed (c : ℕ) (httpMethod : HttpMethod) (progressId : Option Bytes) (contentLength : ℤ)
  /-- A part of its body has been read. -/
  | received (c n : ℕ)
  /-- `http_response_prepare` has set the URI of the request and calls the handler; after a rewrite
  or for an error handler it does so again. -/
  | prepared (c : ℕ) (uriPath uriQuery progressUrl : Buffer)
  /-- `server.error-handler` takes over: the hook runs, and the method becomes GET. -/
  | errorHandler (c : ℕ)
  /-- A backend failed, and the hook runs. -/
  | backendFailed (c : ℕ)
  /-- The method is set, by a local redirect or when the error handler has answered. -/
  | methodSet (c : ℕ) (httpMethod : HttpMethod)
  /-- `connection_reset`. -/
  | reset (c : ℕ)

/-- The connections with a change to one. -/
def UploadState.modify (s : UploadState) (c : ℕ) (f : UploadCon → UploadCon) : ℕ → UploadCon :=
  Function.update s.cons c (f (s.cons c))

/-- The hook for a connection, with what else becomes of the connection. -/
def UploadState.hook (s : UploadState) (c : ℕ) (f : UploadCon → UploadCon) : UploadState where
  conMap := modUploadprogressRequestDone s c
  cons := s.modify c fun con => { f con with hooks := con.hooks + 1 }

/-- The state in which the handler is called for a URI. -/
def UploadState.withUri (s : UploadState) (c : ℕ) (uriPath uriQuery : Buffer) : UploadState where
  conMap := s.conMap
  cons := s.modify c fun con => { con with uriPath, uriQuery }

/-- The error handler has the request without its body. -/
def UploadCon.forErrorHandler (con : UploadCon) : UploadCon :=
  { con with
    httpMethod := .get
    contentLength := 0
    bytesIn := if con.contentLength = 0 then con.bytesIn else 0 }

/-- One event. -/
def uploadStep (s : UploadState) : UploadEvent → Option UploadState
  | .parsed c httpMethod progressId contentLength =>
    if (s.cons c).running then none
    else some
      { s with
        cons := s.modify c fun con =>
          { con with
            httpMethod, progressId, contentLength
            uriPath := none
            uriQuery := none
            bytesIn := 0
            running := true
            request := con.request + 1 } }
  | .received c n =>
    if (s.cons c).running then
      some { s with cons := s.modify c fun con => { con with bytesIn := con.bytesIn + n } }
    else none
  | .prepared c uriPath uriQuery progressUrl =>
    if (s.cons c).running then
      some
        { s.withUri c uriPath uriQuery with
          conMap := (modUploadprogressUriHandler progressUrl (s.withUri c uriPath uriQuery) c).2 }
    else none
  | .errorHandler c =>
    if (s.cons c).running then some (s.hook c UploadCon.forErrorHandler) else none
  | .backendFailed c => if (s.cons c).running then some (s.hook c id) else none
  | .methodSet c httpMethod =>
    if (s.cons c).running then
      some { s with cons := s.modify c fun con => { con with httpMethod } }
    else none
  | .reset c =>
    some (s.hook c fun con => { con with httpMethod := .unset, bytesIn := 0, running := false })

/-- An empty table, and connections without a request. -/
def uploadInit : UploadState where
  conMap := []
  cons := fun _ => ⟨.unset, none, none, none, 0, 0, false, 0, 0⟩

/-- The request of an entry is the one that its connection has, and the hook has not run since. -/
def UploadState.Current (s : UploadState) (cme : MapEntry) : Prop :=
  (s.cons cme.con).running ∧ cme.request = (s.cons cme.con).request ∧
    cme.hooks = (s.cons cme.con).hooks

/-- An answer about an upload is about the running request that an entry with the id has. -/
def ReportsRunning (s : UploadState) (c : ℕ) (progressUrl : Buffer) : Prop :=
  ∀ size received, (modUploadprogressUriHandler progressUrl s c).1 = .report size received →
    ∃ cme ∈ s.conMap, (s.cons c).id = some cme.conId ∧ s.Current cme ∧
      size = (s.cons cme.con).contentLength ∧ received = (s.cons cme.con).bytesIn

/-- All entries are for running requests, and so are all answers. -/
def UploadsRunning (s : UploadState) : Prop :=
  (∀ cme ∈ s.conMap, s.Current cme) ∧
    ∀ c uriPath uriQuery progressUrl, ReportsRunning (s.withUri c uriPath uriQuery) c progressUrl

/-- The hook finds no entry, or one and a POST request with a path. -/
def HookClears (s : UploadState) (c : ℕ) : Prop :=
  s.conMap.countP (fun cme => cme.con = c) = 0 ∨
    s.conMap.countP (fun cme => cme.con = c) = 1 ∧ (s.cons c).httpMethod = .post ∧
      bufferStringIsEmpty (s.cons c).uriPath = false

/-- Where an event runs the hook, it clears the table of the connection. -/
def EventClears (s : UploadState) : UploadEvent → Prop
  | .errorHandler c | .backendFailed c | .reset c => HookClears s c
  | _ => True

variable {cm : List MapEntry} {c : ℕ} {cme : MapEntry} {s : UploadState}

/-- An entry of the connection is taken out, and the others may change their order. -/
theorem connectionMapRemove_perm (h : ∃ cme ∈ cm, cme.con = c) :
    ∃ cme, cme.con = c ∧ (cme :: connectionMapRemoveConnection cm c).Perm cm := by
  obtain ⟨cme, hmem, hcon⟩ := h
  rcases hi : cm.findIdx? fun cme => cme.con = c with _ | i
  · exact absurd hcon (by simpa using List.findIdx?_eq_none_iff.mp hi cme hmem)
  · obtain ⟨hlt, hp, -⟩ := List.findIdx?_eq_some_iff_getElem.mp hi
    obtain ⟨l, e, r, rfl, rfl⟩ : ∃ l e r, cm = l ++ e :: r ∧ l.length = i :=
      ⟨cm.take i, cm[i], cm.drop (i + 1), by simp, by simp; omega⟩
    have hcon : e.con = c := by simpa using hp
    refine ⟨e, hcon, ?_⟩
    rcases List.eq_nil_or_concat r with rfl | ⟨r, last, rfl⟩
    · have hremove : connectionMapRemoveConnection (l ++ [e]) c = l := by
        rw [connectionMapRemoveConnection, hi, List.getLast?_concat]
        simp
      rw [hremove]
      exact (List.perm_append_singleton e l).symm
    · rw [List.concat_eq_append] at hi ⊢
      have hremove : connectionMapRemoveConnection (l ++ e :: (r ++ [last])) c =
          l ++ last :: r := by
        have hlast : (l ++ e :: (r ++ [last])).getLast? = some last := by
          rw [← List.cons_append, ← List.append_assoc, List.getLast?_concat]
        have hset : (l ++ e :: (r ++ [last])).set l.length last =
            l ++ last :: r ++ [last] := by simp
        rw [connectionMapRemoveConnection, hi, hlast]
        simp only [hset, List.dropLast_concat]
      rw [hremove]
      refine List.Perm.trans ?_ List.perm_middle.symm
      refine List.Perm.cons e (List.perm_middle.trans ?_)
      rw [← List.append_assoc]
      exact (List.perm_append_singleton last (l ++ r)).symm

theorem connectionMapRemove_of_countP_eq_zero (h : cm.countP (fun cme => cme.con = c) = 0) :
    connectionMapRemoveConnection cm c = cm := by
  have hnone : cm.findIdx? (fun cme => cme.con = c) = none :=
    List.findIdx?_eq_none_iff.mpr fun cme hmem => by simpa using List.countP_eq_zero.mp h cme hmem
  rw [connectionMapRemoveConnection, hnone]

theorem countP_connectionMapRemove (cm : List MapEntry) (c : ℕ) :
    (connectionMapRemoveConnection cm c).countP (fun cme => cme.con = c) =
      cm.countP (fun cme => cme.con = c) - 1 := by
  by_cases h : ∃ cme ∈ cm, cme.con = c
  · obtain ⟨cme, hcon, hperm⟩ := connectionMapRemove_perm h
    have hcount := hperm.countP_eq fun cme => cme.con = c
    rw [List.countP_cons_of_pos (by simpa using hcon)] at hcount
    omega
  · have hzero : cm.countP (fun cme => cme.con = c) = 0 :=
      List.countP_eq_zero.mpr fun cme hmem => by simpa using fun hcon => h ⟨cme, hmem, hcon⟩
    rw [connectionMapRemove_of_countP_eq_zero hzero, hzero]

theorem mem_of_mem_connectionMapRemove (h : cme ∈ connectionMapRemoveConnection cm c) :
    cme ∈ cm := by
  by_cases hex : ∃ cme ∈ cm, cme.con = c
  · obtain ⟨e, -, hperm⟩ := connectionMapRemove_perm hex
    exact hperm.mem_iff.mp (List.mem_cons_of_mem _ h)
  · rwa [connectionMapRemove_of_countP_eq_zero] at h
    exact List.countP_eq_zero.mpr fun cme hmem => by simpa using fun hcon => hex ⟨cme, hmem, hcon⟩

theorem mem_of_mem_requestDone (h : cme ∈ modUploadprogressRequestDone s c) : cme ∈ s.conMap := by
  rw [modUploadprogressRequestDone] at h
  split_ifs at h
  · exact h
  · exact h
  · exact mem_of_mem_connectionMapRemove h

/-- The hook leaves no entry of the connection exactly if it clears the table. -/
theorem countP_requestDone_eq_zero_iff (s : UploadState) (c : ℕ) :
    (modUploadprogressRequestDone s c).countP (fun cme => cme.con = c) = 0 ↔ HookClears s c := by
  rw [modUploadprogressRequestDone, HookClears]
  split_ifs with hmethod hpath
  · simp [hmethod]
  · simp [hpath]
  · rw [countP_connectionMapRemove]
    simp only [not_not.mp hmethod, Bool.not_eq_true _ ▸ hpath, and_true]
    omega

theorem uriHandler_cases (progressUrl : Buffer) (s : UploadState) (c : ℕ) :
    (∃ answer, modUploadprogressUriHandler progressUrl s c = (answer, s.conMap) ∧
      ∀ size received, answer = .report size received → ∃ id p, (s.cons c).id = some id ∧
        connectionMapGetConnection s.conMap id = some p ∧
          size = (s.cons p).contentLength ∧ received = (s.cons p).bytesIn) ∨
    ∃ id, (s.cons c).id = some id ∧ (s.cons c).httpMethod = .post ∧
      modUploadprogressUriHandler progressUrl s c =
        (.goOn, s.conMap ++ [⟨id, c, (s.cons c).request, (s.cons c).hooks⟩]) := by
  have hgo : ∀ {p : ℤ → ℕ → Prop} size received, UploadAnswer.goOn = .report size received →
      p size received := by
    rintro _ _ _ ⟨⟩
  rw [modUploadprogressUriHandler]
  rcases hid : (s.cons c).id with _ | id
  · refine .inl ⟨.goOn, ?_, hgo⟩
    simp only
    split_ifs <;> rfl
  · simp only
    split_ifs with hpath hmethod hurl hget hpost
    · exact .inl ⟨_, rfl, hgo⟩
    · exact .inl ⟨_, rfl, hgo⟩
    · exact .inl ⟨_, rfl, hgo⟩
    · exact .inl ⟨_, rfl, hgo⟩
    · exact .inr ⟨id, rfl, hpost, rfl⟩
    · left
      rcases hp : connectionMapGetConnection s.conMap id with _ | p
      · exact ⟨.notInProgress, rfl, by rintro _ _ ⟨⟩⟩
      · refine ⟨_, rfl, ?_⟩
        rintro size received ⟨⟩
        exact ⟨id, p, rfl, hp, rfl, rfl⟩

/-! ## One event -/

theorem modify_same (s : UploadState) (c : ℕ) (f : UploadCon → UploadCon) :
    s.modify c f c = f (s.cons c) := Function.update_self ..

theorem modify_of_ne (s : UploadState) {d : ℕ} (h : d ≠ c) (f : UploadCon → UploadCon) :
    s.modify c f d = s.cons d := Function.update_of_ne h ..

/-- A change that leaves the request and the hooks alone keeps an entry current. -/
theorem UploadState.Current.modify (h : s.Current cme) {f : UploadCon → UploadCon}
    (hf : (f (s.cons c)).running = (s.cons c).running ∧
      (f (s.cons c)).request = (s.cons c).request ∧ (f (s.cons c)).hooks = (s.cons c).hooks)
    (cm : List MapEntry) : UploadState.Current ⟨cm, s.modify c f⟩ cme := by
  by_cases hc : cme.con = c
  · subst hc
    simp only [UploadState.Current, modify_same, hf.1, hf.2.1, hf.2.2]
    exact h
  · simpa only [UploadState.Current, modify_of_ne s hc] using h

/-- A change of a connection without entries keeps an entry current. -/
theorem UploadState.Current.modify_of_ne (h : s.Current cme) (hc : cme.con ≠ c)
    (f : UploadCon → UploadCon) (cm : List MapEntry) :
    UploadState.Current ⟨cm, s.modify c f⟩ cme := by
  simpa only [UploadState.Current, Lighttpd.modify_of_ne s hc] using h

/-- With a current table an answer is about a running request. -/
theorem uploadsRunning_iff (s : UploadState) :
    UploadsRunning s ↔ ∀ cme ∈ s.conMap, s.Current cme := by
  refine ⟨fun h => h.1, fun h => ⟨h, fun c uriPath uriQuery progressUrl size received ha => ?_⟩⟩
  rcases uriHandler_cases progressUrl (s.withUri c uriPath uriQuery) c with
    ⟨answer, heq, hreport⟩ | ⟨id, -, -, heq⟩
  · rw [heq] at ha
    obtain ⟨id, p, hid, hget, hsize, hreceived⟩ := hreport size received ha
    obtain ⟨cme, hfind, rfl⟩ := Option.map_eq_some_iff.mp hget
    have hcur := h cme (List.mem_of_find?_eq_some hfind)
    have hcon : cme.conId = id := by simpa using List.find?_some hfind
    refine ⟨cme, List.mem_of_find?_eq_some hfind, ?_, ?_, hsize, hreceived⟩
    · rw [hid, hcon]
    · exact hcur.modify ⟨rfl, rfl, rfl⟩ _
  · rw [heq] at ha
    cases ha

/-- Behind the hook the table is current exactly if the hook clears the entries of its
connection. -/
theorem hook_current_iff (h : ∀ cme ∈ s.conMap, s.Current cme) (c : ℕ) (f : UploadCon → UploadCon) :
    (∀ cme ∈ (s.hook c f).conMap, (s.hook c f).Current cme) ↔ HookClears s c := by
  rw [← countP_requestDone_eq_zero_iff, List.countP_eq_zero]
  constructor
  · intro hcur cme hmem hcon
    have hcon : cme.con = c := by simpa using hcon
    subst hcon
    have hnew : cme.hooks = (s.modify cme.con _ cme.con).hooks := (hcur cme hmem).2.2
    have hold := (h cme (mem_of_mem_requestDone hmem)).2.2
    rw [modify_same] at hnew
    simp only at hnew
    omega
  · intro hnone cme hmem
    have hcon : cme.con ≠ c := by simpa using hnone cme hmem
    exact (h cme (mem_of_mem_requestDone hmem)).modify_of_ne hcon _ _

/-- An event that clears what it has to clear keeps the table current. -/
theorem uploadStep_current {s' : UploadState} {e : UploadEvent}
    (h : ∀ cme ∈ s.conMap, s.Current cme) (hclear : EventClears s e)
    (hstep : uploadStep s e = some s') : ∀ cme ∈ s'.conMap, s'.Current cme := by
  cases e with
  | parsed c httpMethod progressId contentLength =>
    rw [uploadStep] at hstep
    split_ifs at hstep with hrunning
    obtain rfl := Option.some.inj hstep
    intro cme hmem
    refine (h cme hmem).modify_of_ne ?_ _ _
    rintro rfl
    exact hrunning (h cme hmem).1
  | received c n =>
    rw [uploadStep] at hstep
    split_ifs at hstep
    obtain rfl := Option.some.inj hstep
    exact fun cme hmem => (h cme hmem).modify ⟨rfl, rfl, rfl⟩ _
  | prepared c uriPath uriQuery progressUrl =>
    rw [uploadStep] at hstep
    split_ifs at hstep with hrunning
    obtain rfl := Option.some.inj hstep
    rcases uriHandler_cases progressUrl (s.withUri c uriPath uriQuery) c with
      ⟨answer, heq, -⟩ | ⟨id, -, -, heq⟩
    · rw [heq]
      exact fun cme hmem => (h cme hmem).modify ⟨rfl, rfl, rfl⟩ _
    · rw [heq]
      intro cme hmem
      rcases List.mem_append.mp hmem with hmem | hmem
      · exact (h cme hmem).modify ⟨rfl, rfl, rfl⟩ _
      · rw [List.mem_singleton.mp hmem]
        refine ⟨?_, rfl, rfl⟩
        change (s.modify c _ c).running = true
        rw [modify_same]
        exact hrunning
  | errorHandler c =>
    rw [uploadStep] at hstep
    split_ifs at hstep
    obtain rfl := Option.some.inj hstep
    exact (hook_current_iff h c _).mpr hclear
  | backendFailed c =>
    rw [uploadStep] at hstep
    split_ifs at hstep
    obtain rfl := Option.some.inj hstep
    exact (hook_current_iff h c _).mpr hclear
  | methodSet c httpMethod =>
    rw [uploadStep] at hstep
    split_ifs at hstep
    obtain rfl := Option.some.inj hstep
    exact fun cme hmem => (h cme hmem).modify ⟨rfl, rfl, rfl⟩ _
  | reset c =>
    obtain rfl := Option.some.inj hstep
    exact (hook_current_iff h c _).mpr hclear

/-- The hook of a connection without a running request has nothing to clear. -/
theorem hookClears_of_not_running (h : ∀ cme ∈ s.conMap, s.Current cme)
    (hc : (s.cons c).running ≠ true) : HookClears s c := by
  refine .inl (List.countP_eq_zero.mpr fun cme hmem hcon => hc ?_)
  have hcon : cme.con = c := by simpa using hcon
  exact hcon ▸ (h cme hmem).1

theorem eventClears_of_current {e : UploadEvent} (h : ∀ cme ∈ s.conMap, s.Current cme)
    (h' : ∀ s', uploadStep s e = some s' → ∀ cme ∈ s'.conMap, s'.Current cme) :
    EventClears s e := by
  cases e with
  | errorHandler c =>
    by_cases hc : (s.cons c).running = true
    · exact (hook_current_iff h c _).mp (h' _ (if_pos hc))
    · exact hookClears_of_not_running h hc
  | backendFailed c =>
    by_cases hc : (s.cons c).running = true
    · exact (hook_current_iff h c _).mp (h' _ (if_pos hc))
    · exact hookClears_of_not_running h hc
  | reset c => exact (hook_current_iff h c _).mp (h' _ rfl)
  | parsed | received | prepared | methodSet => trivial

/-- A run has running uploads only in all its states if and only if, each time the hook runs for a
connection, the table has no entry of it, or one and the request is a POST request with a path. -/
theorem uploads_running_iff (events : List UploadEvent) :
    (∀ pre post s, events = pre ++ post → run uploadStep pre uploadInit = some s →
      UploadsRunning s) ↔ Throughout uploadStep EventClears events uploadInit := by
  have hinit : ∀ cme ∈ uploadInit.conMap, uploadInit.Current cme := by
    intro cme hmem
    cases hmem
  simp only [uploadsRunning_iff]
  constructor
  · intro h
    rw [throughout_iff]
    rintro pre e post rfl s hrun
    refine eventClears_of_current (h pre (e :: post) s rfl hrun) fun s' hstep => ?_
    refine h (pre ++ [e]) post s' (by simp) (run_append.mpr ⟨s, hrun, ?_⟩)
    exact run_cons.mpr ⟨s', hstep, rfl⟩
  · rintro h pre post s rfl hrun
    exact h.left.invariant (fun s e s' (hs : ∀ cme ∈ s.conMap, s.Current cme) hp hstep =>
      uploadStep_current hs hp hstep) hinit hrun

/-- The URI handler runs twice for an upload, after a rewrite, and the hook takes out one of the
two entries. -/
def restartedUpload : List UploadEvent :=
  [.parsed 0 .post (some (List.replicate 32 97)) 5,
    .prepared 0 (some (str "/upload")) none (some (str "/progress")),
    .prepared 0 (some (str "/rewritten")) none (some (str "/progress")),
    .reset 0, .parsed 0 .post none 777]

/-- A progress request then gets the size of the request that the connection has next, which named
no id. -/
theorem not_uploadsRunning : ∃ s, run uploadStep restartedUpload uploadInit = some s ∧
    (∀ t, uploadStep s (.parsed 1 .get (some (List.replicate 32 97)) 0) = some t →
      (modUploadprogressUriHandler (some (str "/progress"))
        (t.withUri 1 (some (str "/progress")) none) 1).1 = .report 777 0) ∧
    (s.cons 0).id = none ∧ ¬ UploadsRunning s := by
  refine ⟨_, rfl, ?_, ?_, fun h => ?_⟩
  · rintro t ⟨⟩
    decide +kernel
  · decide +kernel
  · have hcur := h.1 ⟨List.replicate 32 97, 0, 1, 0⟩ (by decide +kernel)
    exact absurd hcur.2.1 (by decide +kernel)

end Lighttpd
