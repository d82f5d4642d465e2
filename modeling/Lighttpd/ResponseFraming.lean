import Lighttpd.WritePrepare

/-!
# Framing of responses

A response on a connection that is kept alive has to tell the client where its body ends.
`connection_handle_errdoc_init` drops the headers of the backend and not the flags in
`parsed_response`, so that an error document in place of a response with a `Content-Length` is
sent without one (`writePrepare_not_selfDelimiting`). `writePrepare_selfDelimiting_iff` says when
the response is framed.
-/

namespace Lighttpd

open CString ResponseHeaders

/-! ## The written headers -/

/-- The values of the written headers with a name. -/
def fieldValues (fields : List (Bytes × Bytes)) (name : Bytes) : List Bytes :=
  (fields.filter fun field => CaseEq name field.1).map Prod.snd

/-- The body is sent with the chunked coding. -/
def ChunkedField (fields : List (Bytes × Bytes)) : Prop :=
  ∃ v, fieldValues fields (str "Transfer-Encoding") = [v] ∧ CaseEq v (str "chunked")

/-- The headers frame a body of `n` octets: by a `Content-Length` that is `n` or by the chunked
coding, and not by both. -/
def SelfDelimiting (fields : List (Bytes × Bytes)) (n : ℕ) : Prop :=
  (fieldValues fields (str "Content-Length") = [itostr n] ∨ ChunkedField fields) ∧
    ¬ (fieldValues fields (str "Content-Length") ≠ [] ∧ ChunkedField fields)

/-- The value of the header with a name, empty when there is none. -/
def valueOf (h : ResponseHeaders) (name : Bytes) : Bytes :=
  Buffer.string ((h.getElement name).bind DataUnset.value)

/-- The headers of a connection frame a body of `n` octets. -/
def HeadersFrame (h : ResponseHeaders) (n : ℕ) : Prop :=
  (valueOf h (str "Content-Length") = itostr n ∨
      CaseEq (valueOf h (str "Transfer-Encoding")) (str "chunked")) ∧
    ¬ (valueOf h (str "Content-Length") ≠ [] ∧
      CaseEq (valueOf h (str "Transfer-Encoding")) (str "chunked"))

/-- A predicate that holds of one element of a list at most filters out that element. -/
theorem filter_eq_singleton {α : Type*} {l : List α} {p : α → Bool} {e : α}
    (hone : l.Pairwise fun a b => ¬ (p a ∧ p b)) (he : e ∈ l) (hp : p e) : l.filter p = [e] := by
  induction l with
  | nil => simp at he
  | cons a l ih =>
    obtain ⟨ha, hl⟩ := List.pairwise_cons.mp hone
    rcases List.mem_cons.mp he with rfl | he
    · rw [List.filter_cons_of_pos hp, List.filter_eq_nil_iff.mpr fun b hb hpb => ha b hb ⟨hp, hpb⟩]
    · rw [List.filter_cons_of_neg fun hpa => ha e he ⟨hpa, hp⟩]
      exact ih hl he

variable {h h' : ResponseHeaders} {con con₂ con₀ con₃ r : ResponseCon} {name : Bytes}
  {conf : WriteConf}

theorem pairwise_elements (hi : Indexed h.view) :
    h.elements.Pairwise fun e e' => ¬ CaseEq e.key.string e'.key.string := by
  rw [List.pairwise_iff_getElem]
  intro i j hilt hjlt hij hk
  have := eq_of_key hi (List.getElem?_eq_getElem hilt) (List.getElem?_eq_getElem hjlt) hk
  omega

/-- A header of this name is written when it has a value. -/
def AlwaysWritten (name : Bytes) : Prop :=
  name ≠ [] ∧ ¬ strncaseeq name (str "X-Sendfile") ∧ ¬ strncaseeq name (str "X-LIGHTTPD-") ∧
    ¬ strcaseeq name (str "Content-Encoding")

instance : DecidablePred AlwaysWritten := fun _ => inferInstanceAs (Decidable (_ ∧ _))

/-- The one value written under a name is the value of the header. -/
theorem fieldValues_headerFields (hi : Indexed con.headers.view) (hname : AlwaysWritten name) :
    fieldValues (headerFields con) name =
      if valueOf con.headers name = [] then [] else [valueOf con.headers name] := by
  have hwritten : ∀ e : DataUnset Buffer, CaseEq name e.key.string →
      (isWritten con.httpStatus e ↔ e.value.string ≠ []) := by
    intro e hk
    have hkey : e.key.string ≠ [] := fun h => hname.1
      (List.length_eq_zero_iff.mp (by rw [hk.length_eq, h]; rfl))
    rw [isWritten, ← strncaseeq_congr hk, ← strncaseeq_congr hk, ← strcaseeq_congr hk]
    simp [hname.2.1, hname.2.2.1, hname.2.2.2, hkey]
  have hfilter : fieldValues (headerFields con) name =
      (con.headers.elements.filter fun e =>
        decide (CaseEq name e.key.string) && isWritten con.httpStatus e).map
          fun e => e.value.string := by
    rw [fieldValues, headerFields, List.filter_map, List.map_map, List.filter_filter]
    rfl
  rw [hfilter]
  rcases hget : con.headers.getElement name with _ | e
  · have hnone := (getElement_eq_none_iff hi).mp hget
    have hv : valueOf con.headers name = [] := by
      rw [valueOf, hget]
      rfl
    rw [if_pos hv, List.filter_eq_nil_iff.mpr]
    · rfl
    · intro e he
      simp [hnone e he]
  · obtain ⟨hmem, hk⟩ := (getElement_eq_some_iff hi).mp hget
    have hv : valueOf con.headers name = e.value.string := by
      rw [valueOf, hget]
      rfl
    have hone : con.headers.elements.Pairwise fun a b =>
        ¬ ((decide (CaseEq name a.key.string) && isWritten con.httpStatus a) = true ∧
          (decide (CaseEq name b.key.string) && isWritten con.httpStatus b) = true) := by
      refine (pairwise_elements hi).imp fun {a b} hab hboth => hab ?_
      simp only [Bool.and_eq_true, decide_eq_true_eq] at hboth
      exact hboth.1.1.symm.trans hboth.2.1
    rw [hv]
    split_ifs with hempty
    · rw [List.filter_eq_nil_iff.mpr]
      · rfl
      · intro e' he' hp
        simp only [Bool.and_eq_true, decide_eq_true_eq] at hp
        have hee : e' = e := by
          have hget' := (getElement_eq_some_iff hi).mpr ⟨he', hp.1⟩
          rw [hget] at hget'
          cases hget'
          rfl
        exact (hwritten e' hp.1).mp hp.2 (hee ▸ hempty)
    · rw [filter_eq_singleton hone hmem]
      · rfl
      · simp only [Bool.and_eq_true, decide_eq_true_eq]
        exact ⟨hk, (hwritten e hk).mpr hempty⟩

/-- The written headers frame the body when the headers of the connection do. -/
theorem selfDelimiting_iff (hi : Indexed con.headers.view) (n : ℕ) :
    SelfDelimiting (headerFields con) n ↔ HeadersFrame con.headers n := by
  have hcl := fieldValues_headerFields hi (show AlwaysWritten (str "Content-Length") by decide)
  have hte := fieldValues_headerFields hi (show AlwaysWritten (str "Transfer-Encoding") by decide)
  have hchunked : ChunkedField (headerFields con) ↔
      CaseEq (valueOf con.headers (str "Transfer-Encoding")) (str "chunked") := by
    rw [ChunkedField, hte]
    split_ifs with hnil
    · rw [hnil]
      exact iff_of_false (by simp) (by decide)
    · simp
  have hlength : fieldValues (headerFields con) (str "Content-Length") = [itostr n] ↔
      valueOf con.headers (str "Content-Length") = itostr n := by
    rw [hcl]
    split_ifs with hnil
    · rw [hnil]
      exact iff_of_false (by simp) (itostr_ne_nil n).symm
    · simp
  have hpresent : fieldValues (headerFields con) (str "Content-Length") ≠ [] ↔
      valueOf con.headers (str "Content-Length") ≠ [] := by
    rw [hcl]
    split_ifs with hnil <;> simp [hnil]
  rw [SelfDelimiting, HeadersFrame, hchunked, hlength, hpresent]

theorem valueOf_changedAt {key : Bytes} (hc : ChangedAt key h h') (hne : ¬ CaseEq name key) :
    valueOf h' name = valueOf h name := by
  rw [valueOf, hc.others name hne, valueOf]

theorem headersFrame_congr
    (hcl : valueOf h' (str "Content-Length") = valueOf h (str "Content-Length"))
    (hte : valueOf h' (str "Transfer-Encoding") = valueOf h (str "Transfer-Encoding")) (n : ℕ) :
    HeadersFrame h' n ↔ HeadersFrame h n := by
  rw [HeadersFrame, HeadersFrame, hcl, hte]

/-! ## The parts of the preparation -/

/-- Backend headers were parsed into a response that had been reset; everything else of the
connection may have changed in between. -/
inductive BackendHistory : ResponseHeaders → ParsedResponse → Prop
  | reset (h : ResponseHeaders) : BackendHistory h.reset .none
  | headers {con : ResponseCon} (opts : HttpResponseOpts) (hdrs : Bytes)
      {r : Bool × ResponseCon} (before : BackendHistory con.headers con.parsedResponse)
      (parsed : httpResponseProcessHeaders opts con hdrs = some r) :
      BackendHistory r.2.headers r.2.parsedResponse

theorem BackendHistory.synced {h : ResponseHeaders} {p : ParsedResponse} (hist : BackendHistory h p) :
    ∀ {con : ResponseCon}, con.headers = h → con.parsedResponse = p → Synced con := by
  induction hist with
  | reset h =>
    intro con hh hp
    exact synced_reset (by rw [hh]; rfl) hp
  | @headers con' opts hdrs r _ parsed ih =>
    intro con hh hp
    obtain ⟨r', hr', hs⟩ := (ih rfl rfl).processHeaders opts hdrs
    rw [parsed] at hr'
    cases hr'
    exact hs.congr ⟨hh, by rw [hp], by rw [hp], by rw [hp]⟩

/-- The status of the response. -/
def preparedStatus (con : ResponseCon) : ℕ :=
  if isOptions con then 200
  else if con.httpStatus ≠ 0 then con.httpStatus
  else if con.direct ∧ con.httpMethod ∉ [.get, .post, .head, .options] then 501
  else 403

/-- The body that is queued is dropped. -/
def dropsBody (con : ResponseCon) : Bool := isOptions con ∨ isHeaderOnly (preparedStatus con)

/-- An error document takes the place of the response. -/
def preparesErrorDocument (conf : WriteConf) (con : ResponseCon) : Bool :=
  isErrorDocument conf { con with httpStatus := preparedStatus con }

/-- The length of the body, unless it is an error document. -/
def preparedLength (con : ResponseCon) : ℕ :=
  if dropsBody con then 0 else con.writeQueue.bytes.length

/-- The response is framed: nothing the backend sent lets the server leave out the
`Content-Length`, or the headers of the backend frame the body that is sent. -/
def Framed (conf : WriteConf) (con : ResponseCon) : Prop :=
  if preparesErrorDocument conf con then
    ¬ con.parsedResponse.contentLength ∧ ¬ con.parsedResponse.transferEncoding
  else
    ((¬ con.parsedResponse.contentLength ∨ dropsBody con) ∧ ¬ con.parsedResponse.transferEncoding) ∨
      HeadersFrame con.headers (preparedLength con)

/-- What the first two parts leave: the headers and flags that the framing is decided from. -/
structure Prepared (conf : WriteConf) (con con' : ResponseCon) : Prop where
  httpMethod : con'.httpMethod = con.httpMethod
  httpStatus : con'.httpStatus = preparedStatus con
  own : OwnHeaders con'.headers
  noEncoding : ¬ con'.parsedResponse.transferEncoding →
    valueOf con'.headers (str "Transfer-Encoding") = []
  framed : (¬ con'.parsedResponse.contentLength ∧ ¬ con'.parsedResponse.transferEncoding) ∨
      HeadersFrame con'.headers con'.writeQueue.bytes.length ↔ Framed conf con

theorem valueOf_of_none (hnone : h.getElement name = none) : valueOf h name = [] := by
  rw [valueOf, hnone]
  rfl

theorem not_headersFrame (hcl : valueOf h (str "Content-Length") = [])
    (hte : valueOf h (str "Transfer-Encoding") = []) (n : ℕ) : ¬ HeadersFrame h n := by
  rw [HeadersFrame, hcl, hte]
  rintro ⟨hlen | hchunked, -⟩
  · exact itostr_ne_nil n hlen.symm
  · exact absurd hchunked (by decide)

/-- What an error document leaves of the connection: the headers of the backend are gone. -/
structure ErrorHeaders (con con' : ResponseCon) : Prop where
  eq : con' = { con with
    headers := con'.headers
    writeQueue := con'.writeQueue
    io := con'.io
    chunked := con'.chunked
    fileFinished := con'.fileFinished }
  own : OwnHeaders con'.headers
  absent : ∀ name, ¬ CaseEq name (str "WWW-Authenticate") → ¬ CaseEq name (str "Content-Type") →
    con'.headers.getElement name = none

theorem errdocInit_spec (con : ResponseCon) :
    ∃ con', connectionHandleErrdocInit con = some con' ∧ ErrorHeaders con con' := by
  unfold connectionHandleErrdocInit
  dsimp only
  split
  · next ds _ =>
    obtain ⟨h₁, hins, ho, hc, -⟩ := (ownHeaders_reset con.headers).insert
      (str "WWW-Authenticate") ds.value.string
    rw [hins]
    exact ⟨_, rfl, rfl, ho, fun name hne _ => (hc.others name hne).trans (getElement_reset _ _)⟩
  · exact ⟨_, rfl, rfl, ownHeaders_reset _, fun name _ _ => getElement_reset _ _⟩

theorem ErrorHeaders.finished (h : ErrorHeaders con₀ con) (queue : Chunkqueue) (io : TempIo)
    (headers : ResponseHeaders) (ho : OwnHeaders headers)
    (habsent : ∀ name, ¬ CaseEq name (str "WWW-Authenticate") →
      ¬ CaseEq name (str "Content-Type") → headers.getElement name = none) :
    ErrorHeaders con₀ { con with
      writeQueue := queue, io := io, fileFinished := true, headers := headers } := by
  refine ⟨?_, ho, habsent⟩
  rw [h.eq]

theorem errorBody_spec (conf : WriteConf) (h₀ : ErrorHeaders con₀ con) :
    ∃ con', errorBody conf con = some con' ∧ ErrorHeaders con₀ con' ∧ con'.fileFinished := by
  have hset : ∀ value : Bytes, ∃ headers,
      responseHeaderOverwrite con.headers (str "Content-Type") value = some headers ∧
      OwnHeaders headers ∧ ∀ name, ¬ CaseEq name (str "WWW-Authenticate") →
        ¬ CaseEq name (str "Content-Type") → headers.getElement name = none := by
    intro value
    obtain ⟨headers, e, hover, ho, hc, -⟩ := h₀.own.overwrite (str "Content-Type") value
    exact ⟨headers, hover, ho, fun name hw ht => (hc.others name ht).trans (h₀.absent name hw ht)⟩
  unfold errorBody
  split
  · next file contentType _ =>
    generalize httpChunkAppendFile (con.chunkConf conf) con.writeQueue (some file) = r
    dsimp only
    split
    · next contentType' _ =>
      obtain ⟨headers, hover, ho, habsent⟩ := hset contentType'
      rw [hover]
      exact ⟨_, rfl, h₀.finished r.2 con.io headers ho habsent, rfl⟩
    · exact ⟨_, rfl, h₀.finished r.2 con.io con.headers h₀.own h₀.absent, rfl⟩
  · obtain ⟨headers, hover, ho, habsent⟩ := hset (str "text/html")
    generalize httpChunkAppendBuffer (con.chunkConf conf) con.writeQueue
      (some (errorPage conf con.httpStatus)) con.io = r
    dsimp only
    rw [hover]
    exact ⟨_, rfl, h₀.finished r.queue r.io headers ho habsent, rfl⟩

theorem prepareDirect_spec (ho : OwnHeaders con.headers) :
    (isOptions con = false ∧
        prepareDirect con = some { con with httpStatus := preparedStatus con }) ∨
      (isOptions con = true ∧ ∃ headers, OwnHeaders headers ∧
        ChangedAt (str "Allow") con.headers headers ∧
        prepareDirect con = some { con with
          headers := headers
          chunked := false
          parsedResponse := { con.parsedResponse with contentLength := false }
          httpStatus := preparedStatus con
          fileFinished := true
          writeQueue := chunkqueueReset con.writeQueue }) := by
  unfold prepareDirect preparedStatus
  by_cases hopt : isOptions con
  · obtain ⟨headers, hins, ho', hc, -⟩ := ho.insert (str "Allow") (str "OPTIONS, GET, HEAD, POST")
    simp only [if_pos hopt, hins]
    exact .inr ⟨hopt, headers, ho', hc, rfl⟩
  · simp only [if_neg hopt]
    refine .inl ⟨by simpa using hopt, ?_⟩
    split_ifs <;> rfl

theorem not_isErrorDocument (h : con.httpStatus < 400) : isErrorDocument conf con = false := by
  simp only [isErrorDocument, decide_eq_false_iff_not]
  omega

theorem lt_of_isHeaderOnly {httpStatus : ℕ} (h : isHeaderOnly httpStatus) : httpStatus < 400 := by
  simp only [isHeaderOnly, decide_eq_true_eq, List.mem_cons, List.not_mem_nil, or_false] at h
  omega

theorem prepared {con₁ : ResponseCon} (hs : Synced con) (h₁ : prepareDirect con = some con₁)
    (h₂ : prepareStatus conf con₁ = some con₂) : Prepared conf con con₂ := by
  have hte : ¬ con.parsedResponse.transferEncoding →
      valueOf con.headers (str "Transfer-Encoding") = [] := by
    intro hflag
    rw [hs.transferEncoding, Option.not_isSome_iff_eq_none] at hflag
    exact valueOf_of_none hflag
  unfold prepareStatus at h₂
  rcases prepareDirect_spec hs.own with ⟨hopt, hcon₁⟩ | ⟨hopt, headers, ho, hc, hcon₁⟩
  all_goals
    rw [h₁] at hcon₁
    cases hcon₁
  · dsimp only at h₂
    by_cases honly : isHeaderOnly (preparedStatus con)
    · have herr : preparesErrorDocument conf con = false :=
        not_isErrorDocument (lt_of_isHeaderOnly honly)
      rw [if_pos honly] at h₂
      cases h₂
      refine ⟨rfl, rfl, hs.own, hte, ?_⟩
      simp [Framed, herr, dropsBody, honly, preparedLength]
    · rw [if_neg honly] at h₂
      by_cases herr : preparesErrorDocument conf con
      · rw [if_pos (show isErrorDocument conf _ = true from herr)] at h₂
        obtain ⟨con', hinit, hbody⟩ := Option.bind_eq_some_iff.mp h₂
        obtain ⟨con₀, hinit', herror₀⟩ := errdocInit_spec
          { con with httpStatus := preparedStatus con, fileFinished := false }
        rw [hinit] at hinit'
        cases hinit'
        obtain ⟨con₃, hbody', herror, -⟩ := errorBody_spec conf herror₀
        rw [hbody] at hbody'
        cases hbody'
        have hcl₂ := valueOf_of_none (herror.absent (str "Content-Length") (by decide) (by decide))
        have hte₂ := valueOf_of_none
          (herror.absent (str "Transfer-Encoding") (by decide) (by decide))
        refine ⟨by rw [herror.eq], by rw [herror.eq], herror.own, fun _ => hte₂, ?_⟩
        rw [Framed, if_pos herr, or_iff_left (not_headersFrame hcl₂ hte₂ _), herror.eq]
      · rw [if_neg (show ¬ isErrorDocument conf _ = true from herr)] at h₂
        cases h₂
        refine ⟨rfl, rfl, hs.own, hte, ?_⟩
        simp [Framed, herr, dropsBody, hopt, honly, preparedLength]
  · have hstatus : preparedStatus con = 200 := if_pos hopt
    have herr : preparesErrorDocument conf con = false := not_isErrorDocument (by simp [hstatus])
    have honly : ¬ isHeaderOnly (preparedStatus con) := by
      rw [hstatus]
      decide
    rw [if_neg honly, not_isErrorDocument (by simp [hstatus]), if_neg Bool.false_ne_true] at h₂
    cases h₂
    have hcl₁ := valueOf_changedAt hc (show ¬ CaseEq (str "Content-Length") (str "Allow") by decide)
    have hte₁ := valueOf_changedAt hc
      (show ¬ CaseEq (str "Transfer-Encoding") (str "Allow") by decide)
    refine ⟨rfl, rfl, ho, fun hflag => hte₁.trans (hte hflag), ?_⟩
    simp [Framed, herr, dropsBody, hopt, preparedLength, headersFrame_congr hcl₁ hte₁]

theorem frameFinished_spec (hp : Prepared conf con con₂) (hhead : con.httpMethod ≠ .head)
    (hcontent : hasNoContent (preparedStatus con) = false) (h : frameFinished con₂ = some con₃) :
    Indexed con₃.headers.view ∧
      (HeadersFrame con₃.headers con₃.writeQueue.bytes.length ↔ Framed conf con) := by
  unfold frameFinished at h
  by_cases hflags : con₂.parsedResponse.contentLength ∨ con₂.parsedResponse.transferEncoding
  · rw [if_pos hflags] at h
    cases h
    refine ⟨hp.own.indexed, ?_⟩
    rw [← hp.framed, or_iff_right fun hno => hflags.elim hno.1 hno.2]
  · rw [not_or] at hflags
    rw [if_neg (not_or.mpr hflags), hp.httpStatus, hcontent] at h
    dsimp only at h
    rw [if_neg Bool.false_ne_true, if_pos (.inr (hp.httpMethod ▸ hhead)),
      chunkqueueLength_eq] at h
    obtain ⟨headers, hover, rfl⟩ := Option.map_eq_some_iff.mp h
    obtain ⟨h₁, e, hover', ho, hc, he, hv⟩ := hp.own.overwrite (str "Content-Length")
      (itostr con₂.writeQueue.bytes.length)
    rw [hover] at hover'
    cases hover'
    have hcl : valueOf headers (str "Content-Length") = itostr con₂.writeQueue.bytes.length := by
      rw [valueOf, he, Option.bind_some, hv]
      rfl
    have hte : valueOf headers (str "Transfer-Encoding") = [] :=
      (valueOf_changedAt hc (by decide)).trans (hp.noEncoding hflags.2)
    refine ⟨ho.indexed, iff_of_true ?_ (hp.framed.mp (.inl hflags))⟩
    dsimp only
    rw [HeadersFrame, hcl, hte]
    exact ⟨.inl rfl, fun hboth => absurd hboth.2 (by decide)⟩

/-- The third part changes neither the status nor whether the body is complete. -/
theorem prepareFraming_same (h : prepareFraming con₂ = some con₃) :
    con₃.httpStatus = con₂.httpStatus ∧ con₃.fileFinished = con₂.fileFinished ∧
      con₃.httpMethod = con₂.httpMethod := by
  unfold prepareFraming at h
  split_ifs at h
  · unfold frameFinished at h
    dsimp only at h
    split_ifs at h
    all_goals first
      | obtain ⟨headers, -, rfl⟩ := Option.map_eq_some_iff.mp h
        exact ⟨rfl, rfl, rfl⟩
      | cases h
        exact ⟨rfl, rfl, rfl⟩
  · obtain ⟨con', hstarted, rfl⟩ := Option.map_eq_some_iff.mp h
    have hfollow : ∀ con : ResponseCon, (followBackend con).httpStatus = con.httpStatus ∧
        (followBackend con).fileFinished = con.fileFinished ∧
        (followBackend con).httpMethod = con.httpMethod := fun con => by
      unfold followBackend
      split_ifs <;> exact ⟨rfl, rfl, rfl⟩
    obtain ⟨hs, hf, hm⟩ := hfollow con'
    rw [hs, hf, hm]
    unfold frameStarted at hstarted
    split_ifs at hstarted
    all_goals first
      | obtain ⟨headers, -, rfl⟩ := Option.map_eq_some_iff.mp hstarted
        exact ⟨rfl, rfl, rfl⟩
      | cases hstarted
        exact ⟨rfl, rfl, rfl⟩

theorem limitKeepAlive_eq (conf : WriteConf) (con : ResponseCon) :
    ∃ b, limitKeepAlive conf con = { con with keepAlive := b } := by
  unfold limitKeepAlive
  split_ifs
  · exact ⟨false, rfl⟩
  · exact ⟨con.keepAlive, rfl⟩

theorem insertConnectionHeader_eq {con' : ResponseCon} (h : insertConnectionHeader con = some con') :
    (∃ t value, t.registered = some (str "Connection", value) ∧
        responseHeaderFixedOverwrite con.headers t = some con'.headers ∧
        con' = { con with headers := con'.headers }) ∨ con' = con := by
  unfold insertConnectionHeader at h
  split at h
  · next t ht =>
    obtain ⟨headers, hover, rfl⟩ := Option.map_eq_some_iff.mp h
    obtain ⟨value, hreg⟩ : ∃ value, t.registered = some (str "Connection", value) := by
      unfold connectionHeader at ht
      split_ifs at ht <;> cases ht <;> exact ⟨_, rfl⟩
    exact .inl ⟨t, value, hreg, hover, rfl⟩
  · cases h
    exact .inr rfl

/-- `http_response_write_header` puts the block in front of the queue. -/
theorem writeHeader_same (h : httpResponseWriteHeader conf con = some r) :
    r.writeQueue.bytes = headerBlock conf r ++ con.writeQueue.bytes ∧
      r.httpStatus = con.httpStatus ∧ r.fileFinished = con.fileFinished := by
  obtain ⟨b, hb⟩ := limitKeepAlive_eq conf con
  unfold httpResponseWriteHeader at h
  rw [hb] at h
  obtain ⟨con', hins, rfl⟩ := Option.map_eq_some_iff.mp h
  have hblock : (chunkqueuePrependBuffer con'.writeQueue (headerBlock conf con')).bytes =
      headerBlock conf con' ++ con'.writeQueue.bytes := bytes_prependBuffer _ _
  rcases insertConnectionHeader_eq hins with ⟨t, value, -, -, heq⟩ | rfl
  · rw [heq] at hblock ⊢
    exact ⟨hblock, rfl, rfl⟩
  · exact ⟨hblock, rfl, rfl⟩

/-- `http_response_write_header` adds the header for the end of the connection and no other. -/
theorem valueOf_writeHeader (hi : Indexed con.headers.view)
    (h : httpResponseWriteHeader conf con = some r) :
    Indexed r.headers.view ∧
      ∀ name, ¬ CaseEq name (str "Connection") →
        valueOf r.headers name = valueOf con.headers name := by
  obtain ⟨b, hb⟩ := limitKeepAlive_eq conf con
  unfold httpResponseWriteHeader at h
  rw [hb] at h
  obtain ⟨con', hins, rfl⟩ := Option.map_eq_some_iff.mp h
  rcases insertConnectionHeader_eq hins with ⟨t, value, hreg, hover, -⟩ | rfl
  · have hc := changedAt_fixedOverwrite hi hreg hover
    exact ⟨hc.indexed, fun name hne => valueOf_changedAt hc hne⟩
  · exact ⟨hi, fun name _ => rfl⟩

/-- A response of which all of the body is queued is framed exactly when no flag of the backend
stands in the way, or the headers of the backend frame the body that is sent. -/
theorem writePrepare_selfDelimiting_iff (conf : WriteConf) (con r : ResponseCon)
    (hist : BackendHistory con.headers con.parsedResponse)
    (hprep : connectionHandleWritePrepare conf con = some r) (hfinished : r.fileFinished)
    (hhead : con.httpMethod ≠ .head) (hcontent : ¬ hasNoContent r.httpStatus) :
    ∃ body, r.writeQueue.bytes = headerBlock conf r ++ body ∧
      (SelfDelimiting (headerFields r) body.length ↔ Framed conf con) := by
  unfold connectionHandleWritePrepare at hprep
  obtain ⟨con₁, h₁, hprep⟩ := Option.bind_eq_some_iff.mp hprep
  obtain ⟨con₂, h₂, hprep⟩ := Option.bind_eq_some_iff.mp hprep
  obtain ⟨con₃, h₃, hprep⟩ := Option.bind_eq_some_iff.mp hprep
  have hp := prepared (hist.synced rfl rfl) h₁ h₂
  obtain ⟨hs₃, hf₃, hm₃⟩ := prepareFraming_same h₃
  have hm : con₃.httpMethod ≠ .head := by
    rw [hm₃, hp.httpMethod]
    exact hhead
  rw [prepareHead, if_neg hm] at hprep
  obtain ⟨hbytes, hsr, hfr⟩ := writeHeader_same hprep
  have hfin : con₂.fileFinished := by rwa [← hf₃, ← hfr]
  have hstatus : r.httpStatus = preparedStatus con := hsr.trans (hs₃.trans hp.httpStatus)
  rw [prepareFraming, if_pos hfin] at h₃
  obtain ⟨hi, hframe⟩ := frameFinished_spec hp hhead (by rw [← hstatus]; simpa using hcontent) h₃
  obtain ⟨hir, hvalue⟩ := valueOf_writeHeader hi hprep
  refine ⟨_, hbytes, ?_⟩
  rw [selfDelimiting_iff hir, headersFrame_congr (hvalue _ (by decide)) (hvalue _ (by decide))]
  exact hframe

/-- A configuration without error documents of its own. -/
def plainConf : WriteConf := ⟨false, fun _ => none, fun _ => [], 100, 5, [], [], false⟩

theorem writePrepare_selfDelimiting_iff_plain :
    ∃ r body, connectionHandleWritePrepare plainConf (.start .get .http11 (str "/")) = some r ∧
      r.writeQueue.bytes = headerBlock plainConf r ++ body ∧
      SelfDelimiting (headerFields r) body.length := by
  have hany : ((connectionHandleWritePrepare plainConf (.start .get .http11 (str "/"))).any
      fun r => r.fileFinished && !hasNoContent r.httpStatus) := by decide +kernel
  obtain ⟨r, hr, hfacts⟩ := (Option.any_eq_true _ _).mp hany
  simp only [Bool.and_eq_true, Bool.not_eq_true'] at hfacts
  obtain ⟨body, hbody, hiff⟩ := writePrepare_selfDelimiting_iff plainConf
    (.start .get .http11 (str "/")) r (.reset ⟨.register, ⟨[], [], 0⟩⟩) hr hfacts.1 (by decide)
    (by simp [hfacts.2])
  refine ⟨r, body, hr, hbody, hiff.mpr ?_⟩
  have herr : preparesErrorDocument plainConf (.start .get .http11 (str "/")) = true := by
    decide +kernel
  rw [Framed, if_pos herr]
  decide

/-- A backend announces a body and then sends a bad `Status`. The error document that takes the
place of the response is sent without a `Content-Length` on a connection that is kept alive. -/
theorem writePrepare_not_selfDelimiting :
    ∃ con r, httpResponseProcessHeaders ⟨.cgi, false⟩ (.start .get .http11 (str "/"))
        (str "Content-Length: 5\r\nStatus: bad\r\n") = some (true, con) ∧
      connectionHandleWritePrepare plainConf con = some r ∧ r.direct ∧ r.fileFinished ∧
      r.keepAlive ∧ con.httpMethod ≠ .head ∧ ¬ hasNoContent r.httpStatus ∧
      ∀ n, ¬ SelfDelimiting (headerFields r) n := by
  have hany : ((httpResponseProcessHeaders ⟨.cgi, false⟩ (.start .get .http11 (str "/"))
      (str "Content-Length: 5\r\nStatus: bad\r\n")).any fun p => p.1 &&
        (connectionHandleWritePrepare plainConf p.2).any fun r =>
          r.direct && r.fileFinished && r.keepAlive && decide (p.2.httpMethod ≠ .head) &&
            !hasNoContent r.httpStatus &&
            decide (fieldValues (headerFields r) (str "Content-Length") = []) &&
            decide (fieldValues (headerFields r) (str "Transfer-Encoding") = [])) := by
    decide +kernel
  obtain ⟨⟨ok, con⟩, hparsed, hfacts⟩ := (Option.any_eq_true _ _).mp hany
  simp only [Bool.and_eq_true] at hfacts
  obtain ⟨r, hr, hfacts'⟩ := (Option.any_eq_true _ _).mp hfacts.2
  simp only [Bool.and_eq_true, decide_eq_true_eq, Bool.not_eq_true'] at hfacts'
  obtain ⟨⟨⟨⟨⟨⟨hd, hf⟩, hk⟩, hm⟩, hc⟩, hcl⟩, hte⟩ := hfacts'
  refine ⟨con, r, by rw [hparsed, hfacts.1], hr, hd, hf, hk, hm, by simp [hc], fun n h => ?_⟩
  rcases h.1 with hlen | ⟨v, hv, -⟩
  · simp [hcl] at hlen
  · simp [hte] at hv

end Lighttpd
