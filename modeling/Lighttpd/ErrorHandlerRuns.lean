import Lighttpd.ErrorHandler

/-!
# Runs of the error handler

One call either keeps what the error handler saved, or calls the error handler and saves it; the
response behind it is then made from what was saved (`handlePrepared_cases`). Over all calls for a
request this gives `handleRequestRun_keepsOutcome`.
-/

namespace Lighttpd

open CString

variable {con' : ResponseCon} {con : ErrorCon} {r : HandlerT × ErrorCon} {hs : PrepareHandlers}
  {conf : ErrorConf} {handler : Bytes} {s : RequestOutcome × ErrorCon} {turn : RequestTurn}
  {t : HandledTurn}

theorem errdocInit_method {con : ResponseCon} (h : connectionHandleErrdocInit con = some con') :
    con'.httpMethod = con.httpMethod := by
  obtain ⟨con₀, h₀, he⟩ := errdocInit_spec con
  rw [h] at h₀
  cases h₀
  rw [he.eq]

theorem errorBody_method {conf : WriteConf} {con : ResponseCon} (h : errorBody conf con = some con') :
    con'.httpMethod = con.httpMethod := by
  unfold errorBody at h
  split at h
  · dsimp only at h
    split at h
    · obtain ⟨headers, -, rfl⟩ := Option.map_eq_some_iff.mp h
      rfl
    · cases h
      rfl
  · obtain ⟨headers, -, rfl⟩ := Option.map_eq_some_iff.mp h
    rfl

theorem prepareDirect_method {con : ResponseCon} (h : prepareDirect con = some con') :
    con'.httpMethod = con.httpMethod := by
  unfold prepareDirect at h
  split_ifs at h
  · obtain ⟨headers, -, rfl⟩ := Option.map_eq_some_iff.mp h
    rfl
  all_goals
    cases h
    rfl

theorem prepareStatus_method {conf : WriteConf} {con : ResponseCon}
    (h : prepareStatus conf con = some con') : con'.httpMethod = con.httpMethod := by
  unfold prepareStatus at h
  split_ifs at h
  · cases h
    rfl
  · obtain ⟨con₁, h₁, h₂⟩ := Option.bind_eq_some_iff.mp h
    rw [errorBody_method h₂, errdocInit_method h₁]
  · cases h
    rfl

/-- What is sent for a `HEAD` request is the header block. -/
theorem writePrepare_head {conf : WriteConf} {con r : ResponseCon}
    (h : connectionHandleWritePrepare conf con = some r) (hhead : con.httpMethod = .head) :
    r.writeQueue.bytes = headerBlock conf r := by
  unfold connectionHandleWritePrepare at h
  obtain ⟨con₁, h₁, h⟩ := Option.bind_eq_some_iff.mp h
  obtain ⟨con₂, h₂, h⟩ := Option.bind_eq_some_iff.mp h
  obtain ⟨con₃, h₃, h⟩ := Option.bind_eq_some_iff.mp h
  have hm : con₃.httpMethod = .head := by
    rw [(prepareFraming_same h₃).2.2, prepareStatus_method h₂, prepareDirect_method h₁, hhead]
  have hempty : (prepareHead con₃).writeQueue.bytes = [] := by
    rw [prepareHead, if_pos hm]
    rfl
  rw [(writeHeader_same h).1, hempty, List.append_nil]

theorem headerOnly_of_head (h : con.httpMethod = .head) : HeaderOnly con :=
  fun _ _ hr => writePrepare_head hr h

/-- The two connections have the same saved status and method. -/
structure SameSaved (con con' : ErrorCon) : Prop where
  status_eq : con'.savedStatus = con.savedStatus
  method_eq : con'.savedMethod = con.savedMethod

theorem SameSaved.trans {con₁ con₂ con₃ : ErrorCon} (h : SameSaved con₁ con₂)
    (h' : SameSaved con₂ con₃) : SameSaved con₁ con₃ :=
  ⟨h'.status_eq.trans h.status_eq, h'.method_eq.trans h.method_eq⟩

theorem callStage_sameSaved {h : Handler} {next : ErrorCon → Option (HandlerT × ErrorCon)}
    (hnext : ∀ con', SameSaved con con' → next con' = some r → SameSaved con r.2)
    (hr : callStage h con next = some r) : SameSaved con r.2 := by
  unfold callStage at hr
  dsimp only at hr
  split_ifs at hr
  · exact hnext (h.call con).2 ⟨rfl, rfl⟩ hr
  · obtain rfl := Option.some.inj hr
    exact ⟨rfl, rfl⟩

theorem prepareSubrequest_sameSaved (hr : prepareSubrequest hs con = some r) :
    SameSaved con r.2 := by
  unfold prepareSubrequest at hr
  dsimp only at hr
  split_ifs at hr
  all_goals
    obtain rfl := Option.some.inj hr
    exact ⟨rfl, rfl⟩

theorem prepareFromUri_sameSaved (hr : prepareFromUri conf hs con = some r) :
    SameSaved con r.2 := by
  unfold prepareFromUri at hr
  dsimp only at hr
  have hstrings : SameSaved con (prepareStrings conf con) := ⟨rfl, rfl⟩
  split_ifs at hr
  · obtain rfl := Option.some.inj hr
    exact ⟨rfl, rfl⟩
  refine hstrings.trans (callStage_sameSaved ?_ hr)
  intro con₁ h₁ hr
  refine h₁.trans (callStage_sameSaved ?_ hr)
  intro con₂ h₂ hr
  split_ifs at hr
  · obtain ⟨headers, -, rfl⟩ := Option.map_eq_some_iff.mp hr
    exact ⟨h₂.status_eq, h₂.method_eq⟩
  refine h₂.trans (@SameSaved.trans _ { con₂ with
    docRoot := conf.documentRoot, relPath := some con₂.uri.path } _ ⟨rfl, rfl⟩
    (callStage_sameSaved ?_ hr))
  intro con₃ h₃ hr
  have hphysical : SameSaved con₃ (preparePhysical conf con₃) := ⟨rfl, rfl⟩
  refine h₃.trans (hphysical.trans (callStage_sameSaved ?_ hr))
  intro con₄ h₄ hr
  exact h₄.trans (prepareSubrequest_sameSaved hr)

theorem prepareWith_sameSaved (hr : httpResponsePrepareWith conf hs con = some r) :
    SameSaved con r.2 := by
  unfold httpResponsePrepareWith at hr
  split_ifs at hr
  · obtain rfl := Option.some.inj hr
    exact ⟨rfl, rfl⟩
  · obtain rfl := Option.some.inj hr
    exact ⟨rfl, rfl⟩
  · exact prepareFromUri_sameSaved hr
  · exact prepareSubrequest_sameSaved hr

/-! ## The call of the error handler -/

/-- What closing contexts of backends keeps. -/
structure ContextsClosed (con con' : ErrorCon) : Prop where
  method_eq : con'.httpMethod = con.httpMethod
  environment_eq : con'.environment = con.environment
  status_eq : con'.httpStatus = con.httpStatus ∨ con'.httpStatus = 500

theorem closeResponse_spec (con : ErrorCon) : ContextsClosed con (closeResponse con) := by
  unfold closeResponse
  split_ifs <;> exact ⟨rfl, rfl, .inl rfl⟩

theorem backendDone_spec (con : ErrorCon) : ContextsClosed con (httpResponseBackendDone con) := by
  have hstarted : ContextsClosed con
      (if ¬ con.fileStarted then { con with httpStatus := 500, mode := 0 }
        else closeResponse con) := by
    split_ifs
    · exact closeResponse_spec con
    · exact ⟨rfl, rfl, .inr rfl⟩
  unfold httpResponseBackendDone
  split
  · exact hstarted
  · exact hstarted
  · exact closeResponse_spec con
  · exact ⟨rfl, rfl, .inl rfl⟩

theorem closeContext_spec (con : ErrorCon) (id : ℕ+) : ContextsClosed con (closeContext con id) := by
  unfold closeContext
  split_ifs
  · exact backendDone_spec con
  · exact ⟨rfl, rfl, .inl rfl⟩

theorem foldl_closeContext_spec :
    ∀ (ids : List ℕ+) (con : ErrorCon), ContextsClosed con (ids.foldl closeContext con)
  | [], _ => ⟨rfl, rfl, .inl rfl⟩
  | id :: ids, con => by
    have h := closeContext_spec con id
    have h' := foldl_closeContext_spec ids (closeContext con id)
    refine ⟨h'.method_eq.trans h.method_eq, h'.environment_eq.trans h.environment_eq, ?_⟩
    rcases h'.status_eq with hs | hs
    · rw [List.foldl_cons, hs]
      exact h.status_eq
    · exact .inr hs

/-- In mode `DIRECT` no backend has a response to finish. -/
theorem foldl_closeContext_direct {con : ErrorCon} (h : con.mode = 0) :
    ∀ ids : List ℕ+, ids.foldl closeContext con = con
  | [] => rfl
  | id :: ids => by
    have hid : closeContext con id = con := by
      rw [closeContext, h, if_neg id.pos.ne]
    rw [List.foldl_cons, hid]
    exact foldl_closeContext_direct h ids

theorem dropBody_same (con : ErrorCon) :
    (dropBody con).httpMethod = con.httpMethod ∧ (dropBody con).httpStatus = con.httpStatus ∧
      (dropBody con).mode = con.mode ∧ (dropBody con).environment = con.environment := by
  unfold dropBody
  split_ifs <;> exact ⟨rfl, rfl, rfl, rfl⟩

/-- What calling the error handler makes of a connection. -/
structure ErrorHandlerCalled (conf : ErrorConf) (handler : Bytes) (con con' : ErrorCon) :
    Prop where
  uri_eq : con'.requestUri = handler
  path_eq : con'.physicalPath = none
  status_eq : con'.httpStatus = 0
  redirected : con'.environment =
    arrayInsertUnique con.environment (str "REDIRECT_STATUS") (itostr con.httpStatus)
  direct : con.mode = 0 → con'.mode = 0
  errorHandler : conf.errorHandler ≠ [] → 0 < con'.savedStatus ∧
    con'.savedMethod = con.httpMethod ∧ (con.mode = 0 → con'.savedStatus = con.httpStatus)
  errorHandler404 : conf.errorHandler = [] → con'.savedStatus = -con.httpStatus

theorem callErrorHandler_spec {con' : ErrorCon} (hstatus : 400 ≤ con.httpStatus)
    (h : callErrorHandler conf handler con = some con') :
    ErrorHandlerCalled conf handler con con' := by
  unfold callErrorHandler at h
  dsimp only at h
  obtain ⟨con₁, h₁, rfl⟩ := Option.map_eq_some_iff.mp h
  obtain ⟨response, -, rfl⟩ := Option.map_eq_some_iff.mp h₁
  by_cases hnew : conf.errorHandler ≠ []
  · simp only [if_pos hnew, saveRequest]
    have hclosed := foldl_closeContext_spec con.contexts (setRedirectStatus con)
    obtain ⟨hmethod, hstatus', hmode, henv⟩ :=
      dropBody_same (pluginsCallConnectionReset (setRedirectStatus con))
    have hdirect : con.mode = 0 →
        (setRedirectStatus con).contexts.foldl closeContext (setRedirectStatus con) =
          setRedirectStatus con :=
      fun h0 => @foldl_closeContext_direct (setRedirectStatus con) h0 _
    refine ⟨rfl, rfl, rfl, henv.trans hclosed.environment_eq, fun h0 => ?_, fun _ => ⟨?_, ?_, ?_⟩,
      fun hold => absurd hold hnew⟩
    · refine hmode.trans ?_
      rw [pluginsCallConnectionReset, hdirect h0]
      exact h0
    · have hpos : 0 < (pluginsCallConnectionReset (setRedirectStatus con)).httpStatus := by
        rcases hclosed.status_eq with hs | hs
        · exact hs.symm ▸ Nat.lt_of_lt_of_le (by decide) hstatus
        · exact hs.symm ▸ (by decide)
      rw [← hstatus'] at hpos
      exact Int.natCast_pos.mpr hpos
    · exact hmethod.trans hclosed.method_eq
    · intro h0
      rw [hstatus', pluginsCallConnectionReset, hdirect h0]
      rfl
  · simp only [if_neg hnew]
    exact ⟨rfl, rfl, rfl, rfl, fun h0 => h0, fun h => absurd h hnew, fun _ => rfl⟩

theorem le_of_errorHandlerFor (h : errorHandlerFor conf con = some handler) :
    400 ≤ con.httpStatus := by
  unfold errorHandlerFor at h
  split_ifs at h <;> omega

theorem ErrorHandlerCalled.fromScratch {con' : ErrorCon}
    (h : ErrorHandlerCalled conf handler con con') (hdirect : con.mode = 0) :
    FromScratch con' handler := by
  refine ⟨h.uri_eq, fun conf' hs => ?_⟩
  have hnone : ¬ (con'.mode = 0 ∧ con'.httpStatus ≠ 0 ∧ con'.httpStatus ≠ 200) :=
    fun hdone => hdone.2.1 h.status_eq
  rw [httpResponsePrepareWith, if_neg hnone, if_pos ⟨h.direct hdirect, h.path_eq⟩]

/-! ## The response -/

/-- What a response has of the one that the error handler saved. -/
structure Responded (conf : ErrorConf) (con con' : ErrorCon) : Prop where
  mode_eq : con'.mode = con.mode
  errorHandler : 0 < con.savedStatus → con'.httpMethod = con.savedMethod ∧
    (con.mode = 0 → con'.httpStatus = con.savedStatus.toNat)
  errorHandler404 : con.savedStatus < 0 → con'.httpStatus =
    if con.mode = 0 ∨ conf.errorIntercept then
      pageStatus (-con.savedStatus).toNat con.httpStatus
    else ownStatus con.httpStatus

theorem restoreMethod_of_pos (h : 0 < con.savedStatus) :
    restoreMethod con = { con with httpMethod := con.savedMethod } := if_pos h

theorem restoreMethod_of_le (h : con.savedStatus ≤ 0) : restoreMethod con = con :=
  if_neg (not_lt.mpr h)

/-- A response behind the error handler in a mode in which its status may be replaced. -/
theorem responded_replaced (hsaved : con.savedStatus ≠ 0)
    (hmode : con.mode = 0 ∨ conf.errorIntercept) :
    Responded conf con (startResponse (handlerStatus (restoreMethod con))) := by
  rcases lt_or_gt_of_ne hsaved with hneg | hpos
  · rw [restoreMethod_of_le hneg.le]
    unfold handlerStatus
    rw [if_neg (not_lt.mpr hneg.le)]
    by_cases hpage : con.httpStatus = 404 ∨ con.httpStatus = 403
    · rw [if_pos hpage]
      refine ⟨rfl, fun h => absurd h (not_lt.mpr hneg.le), fun _ => ?_⟩
      have hne : (-con.savedStatus).toNat ≠ 0 := by omega
      rw [if_pos hmode, pageStatus, if_pos hpage, startResponse]
      exact if_neg hne
    · rw [if_neg hpage]
      refine ⟨rfl, fun h => absurd h (not_lt.mpr hneg.le), fun _ => ?_⟩
      rw [if_pos hmode, pageStatus, if_neg hpage]
      rfl
  · rw [restoreMethod_of_pos hpos]
    unfold handlerStatus
    rw [if_pos hpos]
    refine ⟨rfl, fun _ => ⟨rfl, fun _ => ?_⟩, fun h => absurd h (not_lt.mpr hpos.le)⟩
    have hne : con.savedStatus.toNat ≠ 0 := by omega
    exact if_neg hne

theorem responded_kept (hmode : ¬ (con.mode = 0 ∨ conf.errorIntercept)) :
    Responded conf con (startResponse (restoreMethod con)) := by
  rcases lt_or_ge 0 con.savedStatus with hpos | hle
  · rw [restoreMethod_of_pos hpos]
    exact ⟨rfl, fun _ => ⟨rfl, fun h0 => absurd (.inl h0) hmode⟩,
      fun h => absurd h (not_lt.mpr hpos.le)⟩
  · rw [restoreMethod_of_le hle]
    refine ⟨rfl, fun h => absurd h (not_lt.mpr hle), fun _ => ?_⟩
    rw [if_neg hmode]
    rfl

theorem responded_first (hsaved : con.savedStatus = 0) : Responded conf con (startResponse con) :=
  ⟨rfl, fun h => absurd h hsaved.not_gt, fun h => absurd h hsaved.not_lt⟩

/-- What one call does with the result of `http_response_prepare`. -/
inductive HandledAs (conf : ErrorConf) (con : ErrorCon) : RequestOutcome → ErrorCon → Prop
  | restart {handler : Bytes} {con' : ErrorCon} (first : con.savedStatus = 0)
      (found : errorHandlerFor conf con = some handler)
      (called : ErrorHandlerCalled conf handler con con') : HandledAs conf con .restart con'
  | respond {con' : ErrorCon} (same : SameSaved con con') (responded : Responded conf con con') :
      HandledAs conf con .respond con'
  | other {outcome : RequestOutcome} {con' : ErrorCon} (same : SameSaved con con')
      (hrestart : outcome ≠ .restart) (hrespond : outcome ≠ .respond) :
      HandledAs conf con outcome con'

theorem handleFinished_cases (h : handleFinished conf con = some s) :
    HandledAs conf con s.1 s.2 := by
  have hsame : SameSaved con (startResponse (restoreMethod con)) := by
    unfold restoreMethod
    split_ifs <;> exact ⟨rfl, rfl⟩
  have hstatus : SameSaved con (startResponse (handlerStatus (restoreMethod con))) := by
    refine hsame.trans ?_
    unfold handlerStatus
    split_ifs <;> exact ⟨rfl, rfl⟩
  have hmode : (restoreMethod con).mode = con.mode := by
    unfold restoreMethod
    split_ifs <;> rfl
  have hsaved : (restoreMethod con).savedStatus = con.savedStatus := hsame.status_eq
  unfold handleFinished at h
  dsimp only at h
  rw [hmode, hsaved] at h
  by_cases hreplaces : con.mode = 0 ∨ conf.errorIntercept
  · rw [if_pos hreplaces] at h
    by_cases hfirst : con.savedStatus = 0
    · rw [if_neg (not_not.mpr hfirst), restoreMethod_of_le hfirst.le] at h
      cases hfound : errorHandlerFor conf con with
      | none =>
        rw [hfound] at h
        obtain rfl := Option.some.inj h
        exact .respond ⟨rfl, rfl⟩ (responded_first hfirst)
      | some handler =>
        rw [hfound] at h
        obtain ⟨con', hcalled, rfl⟩ := Option.map_eq_some_iff.mp h
        exact .restart hfirst hfound (callErrorHandler_spec (le_of_errorHandlerFor hfound) hcalled)
    · rw [if_pos hfirst] at h
      obtain rfl := Option.some.inj h
      exact .respond hstatus (responded_replaced hfirst hreplaces)
  · rw [if_neg hreplaces] at h
    obtain rfl := Option.some.inj h
    exact .respond hsame (responded_kept hreplaces)

theorem handlePrepared_cases {r : HandlerT} (h : handlePrepared conf r con = some s) :
    HandledAs conf con s.1 s.2 := by
  have hother : ∀ (outcome : RequestOutcome) (con' : ErrorCon), SameSaved con con' →
      outcome ≠ .restart → outcome ≠ .respond → some (outcome, con') = some s →
      HandledAs conf con s.1 s.2 := by
    intro outcome con' hsame hrestart hrespond hs
    obtain rfl := Option.some.inj hs
    exact .other hsame hrestart hrespond
  cases r with
  | goOn => exact hother .unknown con ⟨rfl, rfl⟩ (by decide) (by decide) h
  | finished => exact handleFinished_cases h
  | comeback => exact hother .comeback con ⟨rfl, rfl⟩ (by decide) (by decide) h
  | waitForEvent =>
    unfold handlePrepared at h
    dsimp only at h
    split_ifs at h
    · exact hother .wait con ⟨rfl, rfl⟩ (by decide) (by decide) h
    · exact handleFinished_cases h
  | error => exact hother .error { con with state := .error } ⟨rfl, rfl⟩ (by decide) (by decide) h
  | waitForFd => exact hother .waitForFd con ⟨rfl, rfl⟩ (by decide) (by decide) h

/-! ## All calls for a request -/

theorem handleTurn_cases (h : handleTurn turn con = some t) :
    SameSaved con t.prepared ∧ HandledAs t.turn.conf t.prepared t.outcome t.con := by
  obtain ⟨r, hr, h⟩ := Option.bind_eq_some_iff.mp h
  obtain ⟨s, hs, rfl⟩ := Option.map_eq_some_iff.mp h
  exact ⟨prepareWith_sameSaved hr, handlePrepared_cases hs⟩

/-- The calls of a request are those behind the first turn with a call, or there are none. -/
theorem handleRequestRun_cons_cases {again : Bool} {turns : List RequestTurn} :
    (∃ again' con', SameSaved con con' ∧
        handleRequestRun again (turn :: turns) con = handleRequestRun again' turns con') ∨
      handleRequestRun again (turn :: turns) con = [] ∨
      ∃ con' t, SameSaved con con' ∧ handleTurn turn con' = some t ∧
        ((t.outcome = .respond ∨ t.outcome = .error) ∧
            handleRequestRun again (turn :: turns) con = [t] ∨
          ¬ (t.outcome = .respond ∨ t.outcome = .error) ∧
            handleRequestRun again (turn :: turns) con =
              t :: handleRequestRun (t.outcome.done = -1) turns t.con) := by
  have hsame : SameSaved con (turn.before again con) := by
    unfold RequestTurn.before
    split_ifs <;> exact ⟨rfl, rfl⟩
  rw [handleRequestRun]
  generalize turn.before again con = con' at hsame ⊢
  by_cases hstate : con'.state = .readPost ∨ con'.state = .handleRequest
  · rw [if_pos hstate]
    cases hturn : handleTurn turn con' with
    | none => exact .inr (.inl rfl)
    | some t =>
      refine .inr (.inr ⟨con', t, hsame, hturn, ?_⟩)
      by_cases hend : t.outcome = .respond ∨ t.outcome = .error
      · exact .inl ⟨hend, if_pos hend⟩
      · exact .inr ⟨hend, if_neg hend⟩
  · rw [if_neg hstate]
    exact .inl ⟨false, con', hsame, rfl⟩

/-- Behind the error handler, no call starts it again, and a response is made from what it
saved. -/
theorem handleRequestRun_saved :
    ∀ (turns : List RequestTurn) (again : Bool) (con : ErrorCon), con.savedStatus ≠ 0 →
      ∀ t ∈ handleRequestRun again turns con, t.outcome ≠ .restart ∧ SameSaved con t.prepared ∧
        (t.outcome = .respond → Responded t.turn.conf t.prepared t.con)
  | [], _, _, _, t, ht => by simp [handleRequestRun] at ht
  | turn :: turns, again, con, hsaved, t, ht => by
    rcases handleRequestRun_cons_cases with ⟨again', con', hsame, heq⟩ | heq |
      ⟨con', t₀, hsame, hturn, hrun⟩
    · rw [heq] at ht
      obtain ⟨hne, hprep, hresp⟩ :=
        handleRequestRun_saved turns again' con' (hsame.status_eq ▸ hsaved) t ht
      exact ⟨hne, hsame.trans hprep, hresp⟩
    · rw [heq] at ht
      simp at ht
    · obtain ⟨hprep, hcases⟩ := handleTurn_cases hturn
      have hne : t₀.prepared.savedStatus ≠ 0 := by
        rw [hprep.status_eq, hsame.status_eq]
        exact hsaved
      have hhead : t₀.outcome ≠ .restart ∧ SameSaved t₀.prepared t₀.con ∧
          (t₀.outcome = .respond → Responded t₀.turn.conf t₀.prepared t₀.con) := by
        generalize t₀.outcome = outcome, t₀.con = con₁ at hcases ⊢
        cases hcases with
        | restart first => exact absurd first hne
        | respond same responded => exact ⟨by decide, same, fun _ => responded⟩
        | other same hrestart hrespond => exact ⟨hrestart, same, fun h => absurd h hrespond⟩
      rcases hrun with ⟨-, heq⟩ | ⟨-, heq⟩
      · rw [heq, List.mem_singleton] at ht
        subst ht
        exact ⟨hhead.1, hsame.trans hprep, hhead.2.2⟩
      · rw [heq, List.mem_cons] at ht
        rcases ht with rfl | ht
        · exact ⟨hhead.1, hsame.trans hprep, hhead.2.2⟩
        · have hne' : t₀.con.savedStatus ≠ 0 := hhead.2.1.status_eq ▸ hne
          obtain ⟨h₁, h₂, h₃⟩ := handleRequestRun_saved turns _ t₀.con hne' t ht
          exact ⟨h₁, hsame.trans (hprep.trans (hhead.2.1.trans h₂)), h₃⟩

/-- A request for which no error handler ran keeps every outcome. -/
theorem keepsDirectOutcome_of_forall {trace : List HandledTurn}
    (h : ∀ t ∈ trace, t.outcome ≠ .restart) : KeepsDirectOutcome trace where
  once := by
    have hfilter : (trace.filter fun t => t.outcome = .restart) = [] := by
      simpa [List.filter_eq_nil_iff] using h
    rw [hfilter]
    exact Nat.zero_le 1
  fromScratch t ht hrestart := absurd hrestart (h t ht)
  redirected t ht hrestart := absurd hrestart (h t ht)
  errorHandler t ht _ _ hrestart := absurd hrestart (h t ht)
  errorHandler404 t ht _ _ hrestart := absurd hrestart (h t ht)

/-- A call without a restart and without a response in front of others. -/
theorem KeepsDirectOutcome.cons {trace : List HandledTurn} (h : KeepsDirectOutcome trace)
    {t : HandledTurn} (hrestart : t.outcome ≠ .restart) (hrespond : t.outcome ≠ .respond) :
    KeepsDirectOutcome (t :: trace) where
  once := by
    rw [List.filter_cons_of_neg (by simpa using hrestart)]
    exact h.once
  fromScratch t' ht' hr := by
    rcases List.mem_cons.mp ht' with rfl | ht'
    · exact absurd hr hrestart
    · exact h.fromScratch t' ht' hr
  redirected t' ht' hr := by
    rcases List.mem_cons.mp ht' with rfl | ht'
    · exact absurd hr hrestart
    · exact h.redirected t' ht' hr
  errorHandler t₁ h₁ t₂ h₂ hr hresp := by
    rcases List.mem_cons.mp h₁ with rfl | h₁
    · exact absurd hr hrestart
    rcases List.mem_cons.mp h₂ with rfl | h₂
    · exact absurd hresp hrespond
    exact h.errorHandler t₁ h₁ t₂ h₂ hr hresp
  errorHandler404 t₁ h₁ t₂ h₂ hr hresp := by
    rcases List.mem_cons.mp h₁ with rfl | h₁
    · exact absurd hr hrestart
    rcases List.mem_cons.mp h₂ with rfl | h₂
    · exact absurd hresp hrespond
    exact h.errorHandler404 t₁ h₁ t₂ h₂ hr hresp

theorem redirectStatus_insert {con' : ErrorCon} {status : ℕ} (h : con'.environment =
      arrayInsertUnique con.environment (str "REDIRECT_STATUS") (itostr status))
    (hnone : redirectStatus con = none) : redirectStatus con' = some (some (itostr status)) := by
  rw [redirectStatus] at hnone ⊢
  rw [h, arrayGetElement_arrayInsertUnique, if_pos (CaseEq.refl _), hnone]
  rfl

/-- The call of the error handler in front of the calls behind it. -/
theorem keepsDirectOutcome_restart (hrestart : t.outcome = .restart)
    (hfound : errorHandlerFor t.turn.conf t.prepared = some handler)
    (hcalled : ErrorHandlerCalled t.turn.conf handler t.prepared t.con) (again : Bool)
    (turns : List RequestTurn) : KeepsDirectOutcome (t :: handleRequestRun again turns t.con) := by
  have hstatus := le_of_errorHandlerFor hfound
  have hsaved : t.con.savedStatus ≠ 0 := by
    by_cases hnew : t.turn.conf.errorHandler = []
    · have := hcalled.errorHandler404 hnew
      omega
    · exact (hcalled.errorHandler hnew).1.ne'
  have hbehind := handleRequestRun_saved turns again t.con hsaved
  have honly : ∀ t' ∈ t :: handleRequestRun again turns t.con, t'.outcome = .restart → t' = t := by
    intro t' ht' hr
    rcases List.mem_cons.mp ht' with rfl | ht'
    · rfl
    · exact absurd hr (hbehind t' ht').1
  have hresponse : ∀ t' ∈ t :: handleRequestRun again turns t.con, t'.outcome = .respond →
      SameSaved t.con t'.prepared ∧ Responded t'.turn.conf t'.prepared t'.con := by
    intro t' ht' hr
    rcases List.mem_cons.mp ht' with rfl | ht'
    · rw [hrestart] at hr
      exact absurd hr (by decide)
    · exact ⟨(hbehind t' ht').2.1, (hbehind t' ht').2.2 hr⟩
  refine ⟨?_, ?_, ?_, ?_, ?_⟩
  · have hnil : ((handleRequestRun again turns t.con).filter fun t => t.outcome = .restart) = [] := by
      simpa [List.filter_eq_nil_iff] using fun t' ht' => (hbehind t' ht').1
    rw [List.filter_cons_of_pos (by simpa using hrestart), hnil]
    exact le_refl 1
  · intro t' ht' hr hdirect
    obtain rfl := honly t' ht' hr
    exact ⟨handler, hfound, hcalled.fromScratch hdirect⟩
  · intro t' ht' hr hnone
    obtain rfl := honly t' ht' hr
    exact redirectStatus_insert hcalled.redirected hnone
  · intro t₁ h₁ t' ht' hr hresp hnew hdirect hmode
    obtain rfl := honly t₁ h₁ hr
    obtain ⟨hsame, hres⟩ := hresponse t' ht' hresp
    obtain ⟨hpos, hmethod, hstatus'⟩ := hcalled.errorHandler hnew
    obtain ⟨hm, hs⟩ := hres.errorHandler (hsame.status_eq.symm ▸ hpos)
    have hmeth : t'.con.httpMethod = t₁.prepared.httpMethod := by
      rw [hm, hsame.method_eq, hmethod]
    refine ⟨?_, hmeth, fun hhead => headerOnly_of_head (hmeth.trans hhead)⟩
    rw [hs (hres.mode_eq ▸ hmode), hsame.status_eq, hstatus' hdirect, Int.toNat_natCast]
  · intro t₁ h₁ t' ht' hr hresp hold
    obtain rfl := honly t₁ h₁ hr
    obtain ⟨hsame, hres⟩ := hresponse t' ht' hresp
    have hneg : t'.prepared.savedStatus = -t₁.prepared.httpStatus :=
      hsame.status_eq.trans (hcalled.errorHandler404 hold)
    rw [hres.errorHandler404 (by omega), hneg, neg_neg, Int.toNat_natCast]

/-- In every run of the calls for a request, the error handler runs at most once, and a response
keeps the outcome that called it as far as the code means it to. -/
theorem handleRequestRun_keepsOutcome :
    ∀ (turns : List RequestTurn) (again : Bool) (con : ErrorCon), con.savedStatus = 0 →
      KeepsDirectOutcome (handleRequestRun again turns con)
  | [], _, _, _ => keepsDirectOutcome_of_forall (by simp [handleRequestRun])
  | turn :: turns, again, con, hsaved => by
    rcases handleRequestRun_cons_cases with ⟨again', con', hsame, heq⟩ | heq |
      ⟨con', t, hsame, hturn, hrun⟩
    · rw [heq]
      exact handleRequestRun_keepsOutcome turns again' con' (hsame.status_eq.trans hsaved)
    · rw [heq]
      exact keepsDirectOutcome_of_forall (by simp)
    · obtain ⟨hprep, hcases⟩ := handleTurn_cases hturn
      have hfirst : t.prepared.savedStatus = 0 :=
        hprep.status_eq.trans (hsame.status_eq.trans hsaved)
      rcases hrun with ⟨hend, heq⟩ | ⟨hend, heq⟩
      · rw [heq]
        refine keepsDirectOutcome_of_forall fun t' ht' hr => ?_
        obtain rfl := List.mem_singleton.mp ht'
        rw [hr] at hend
        exact absurd hend (by decide)
      · rw [heq]
        rw [not_or] at hend
        by_cases hrestart : t.outcome = .restart
        · rw [hrestart] at hcases
          cases hcases with
          | restart _ found called =>
            exact keepsDirectOutcome_restart hrestart found called _ turns
          | other _ hne => exact absurd rfl hne
        · have hkept : t.con.savedStatus = 0 := by
            generalize t.outcome = outcome, t.con = con₁ at hcases hrestart hend
            cases hcases with
            | restart => exact absurd rfl hrestart
            | respond => exact absurd rfl hend.1
            | other same => exact same.status_eq.trans hfirst
          exact (handleRequestRun_keepsOutcome turns _ t.con hkept).cons hrestart hend.1

/-- A request for which nothing was done yet. -/
def newRequest (httpMethod : HttpMethod) (uri : Bytes) : ErrorCon where
  state := .handleRequest
  mode := 0
  httpMethod := httpMethod
  httpVersion := .http11
  httpStatus := 0
  keepAlive := true
  requestCount := 1
  requestUri := uri
  httpHost := some (str "h")
  proto := some (str "http")
  serverName := none
  uri := ⟨none, none, [], [], none⟩
  docRoot := none
  basedir := none
  relPath := none
  physicalPath := none
  contentLength := 0
  requestContentQueue := chunkqueueInit 0 0
  environment := []
  contexts := []
  isWritable := true
  fileStarted := false
  fileFinished := false
  parsedResponse := .none
  responseKeepAlive := false
  responseContentLength := -1
  chunked := false
  headers := ⟨.register, ⟨[], [], 0⟩⟩
  writeQueue := chunkqueueInit 0 0
  io := .success
  savedStatus := 0
  savedMethod := .unset

/-- A hook that changes nothing. -/
def goOn : Handler := fun con => (.goOn, con.toHandledCon)

/-- A file that is not found. -/
def notFoundHandlers : PrepareHandlers where
  uriRaw := goOn
  uriClean := goOn
  docroot := goOn
  physical := goOn
  physicalPathCheck := fun con => (.finished, { con.toHandledCon with httpStatus := 404 })
  subrequestStart := goOn
  subrequest := goOn

/-- A program that answers with a status. -/
def programHandlers (httpStatus : ℕ) : PrepareHandlers where
  uriRaw := goOn
  uriClean := goOn
  docroot := goOn
  physical := goOn
  physicalPathCheck := goOn
  subrequestStart := fun con => (.goOn, { con.toHandledCon with mode := 1 })
  subrequest := fun con => (.finished, { con.toHandledCon with
    httpStatus := httpStatus, fileStarted := true, fileFinished := true })

/-- Settings with these error handlers. -/
def errorConf (errorHandler errorHandler404 : Bytes) : ErrorConf :=
  ⟨errorHandler, errorHandler404, false, false, true, some (str "/srv"), false, 0⟩

/-- The request for a missing file, and the page of the error handler. -/
def missingFile (conf : ErrorConf) (page : PrepareHandlers) (method : HttpMethod) :
    List HandledTurn :=
  handleRequestRun false
    [⟨conf, ErrorCon.toHandledCon, notFoundHandlers⟩, ⟨conf, ErrorCon.toHandledCon, page⟩]
    (newRequest method (str "/missing"))

/-- `HEAD` for a missing file, and a page that is missing, too. -/
theorem handleRequestRun_keepsOutcome_head :
    (missingFile (errorConf (str "/error") []) notFoundHandlers .head).map
        (fun t => (t.outcome, t.con.httpStatus, t.con.httpMethod)) =
      [(.restart, 0, .get), (.respond, 404, .head)] ∧
    KeepsDirectOutcome (missingFile (errorConf (str "/error") []) notFoundHandlers .head) :=
  ⟨by decide +kernel, handleRequestRun_keepsOutcome
    [⟨errorConf (str "/error") [], ErrorCon.toHandledCon, notFoundHandlers⟩,
      ⟨errorConf (str "/error") [], ErrorCon.toHandledCon, notFoundHandlers⟩]
    false (newRequest .head (str "/missing")) rfl⟩

/-- The program of `server.error-handler-404` answers with 403. -/
theorem not_handleRequestRun_keepsOutcome :
    ¬ ∀ (turns : List RequestTurn) (con : ErrorCon), con.savedStatus = 0 →
      KeepsOutcome con.httpMethod (handleRequestRun false turns con) := by
  intro h
  have hrun : (missingFile (errorConf [] (str "/404.cgi")) (programHandlers 403) .get).map
      (fun t => (t.outcome, t.turn.conf.errorHandler, t.prepared.httpStatus, t.con.httpStatus)) =
        [(.restart, [], 404, 0), (.respond, [], 403, 403)] := by
    decide +kernel
  have hkeeps : KeepsOutcome .get
      (missingFile (errorConf [] (str "/404.cgi")) (programHandlers 403) .get) :=
    h _ (newRequest .get (str "/missing")) rfl
  generalize missingFile (errorConf [] (str "/404.cgi")) (programHandlers 403) .get = trace
    at hrun hkeeps
  obtain ⟨t, rest, rfl, ht, hrest⟩ := List.map_eq_cons_iff.mp hrun
  obtain ⟨t', rest', rfl, ht', -⟩ := List.map_eq_cons_iff.mp hrest
  simp only [Prod.mk.injEq] at ht ht'
  have hpage := hkeeps.errorHandler404 t (by simp) t' (by simp) ht.1 ht'.1 ht.2.1
  rw [ht'.2.2.2, ht.2.2.1, ht'.2.2.1] at hpage
  exact absurd hpage (by decide)

end Lighttpd
