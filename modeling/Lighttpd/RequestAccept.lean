import Lighttpd.HeaderStore
import Lighttpd.Request

/-!
# Accepted requests

Every path of `http_request_parse` that gives up sets a status (`Refuses`), so an accepted
request passed the request line, the header and the checks behind it
(`httpRequestParse_accepted`). For each check there is one lemma that says what it leaves of
the connection.
-/

namespace Lighttpd

open CString

/-! ## How a request ends -/

/-- What every error that ends the request leaves of the connection. -/
def EndsWith {α : Type*} (P : RequestCon → Prop) (r : Except RequestCon α) : Prop :=
  ∀ con, r = .error con → P con

/-- A property of every connection that was given a status for an error. -/
structure OfRejected (P : RequestCon → Prop) : Prop where
  reject : ∀ con n, 400 ≤ n → P (RequestCon.reject con n)
  rejectBoth : ∀ con n, 400 ≤ n → P (RequestCon.rejectBoth con n)

variable {con con' : RequestCon} {opts : ParseOpts} {s request : Bytes} {lib : AddrLib}
  {requestCount : ℕ} {proto : Buffer} {st : ParseState} {r : RequestCon × ℕ}

section

variable {P : RequestCon → Prop}

variable {α : Type*}

theorem endsWith_ok (a : α) : EndsWith P (.ok a) := fun _ h => by cases h

theorem endsWith_error (h : P con) : EndsWith P (.error con : Except RequestCon α) := fun _ h' => by
  cases h'
  exact h

theorem EndsWith.bind {α β : Type} {r : Except RequestCon α} {f : α → Except RequestCon β}
    (hr : EndsWith P r) (hf : ∀ a, EndsWith P (f a)) : EndsWith P (r >>= f) := by
  cases r with
  | error con => exact endsWith_error (hr con rfl)
  | ok a => exact hf a

variable (hP : OfRejected P)
include hP

theorem endsWith_reject (con : RequestCon) {n : ℕ} (hn : 400 ≤ n) :
    EndsWith P (.error (con.reject n) : Except RequestCon α) :=
  endsWith_error (hP.reject con n hn)

theorem endsWith_rejectBoth (con : RequestCon) {n : ℕ} (hn : 400 ≤ n) :
    EndsWith P (.error (con.rejectBoth n) : Except RequestCon α) :=
  endsWith_error (hP.rejectBoth con n hn)

theorem endsWith_storeHeader (st : ParseState) (key value : Bytes) :
    EndsWith P (storeHeader st key value) := by
  unfold storeHeader rejectHeader
  dsimp only
  repeat' split
  all_goals first
    | exact endsWith_ok _
    | exact endsWith_reject hP _ le_rfl

theorem endsWith_endOfHeaderLine (st : ParseState) (line : HeaderLine) :
    EndsWith P (endOfHeaderLine st line) := by
  unfold endOfHeaderLine
  dsimp only
  repeat' split
  all_goals first
    | exact endsWith_ok _
    | exact endsWith_rejectBoth hP _ le_rfl
    | exact endsWith_storeHeader hP _ _ _

theorem endsWith_headerLoop (strict : Bool) (st : ParseState) (m : HeaderMode) (s : Bytes) :
    EndsWith P (headerLoop strict st m s) := by
  fun_induction headerLoop strict st m s
  all_goals first
    | assumption
    | exact endsWith_ok _
    | exact endsWith_reject hP _ le_rfl
    | exact endsWith_rejectBoth hP _ le_rfl
    | exact endsWith_error (endsWith_endOfHeaderLine hP _ _ _ ‹_›)

theorem endsWith_checkKeepAlive (st : ParseState) : EndsWith P (checkKeepAlive st) := by
  unfold checkKeepAlive
  dsimp only
  repeat' split
  all_goals first
    | exact endsWith_ok _
    | exact endsWith_rejectBoth hP _ le_rfl

theorem endsWith_checkHost (lib : AddrLib) (opts : ParseOpts) (proto : Buffer)
    (con : RequestCon) : EndsWith P (checkHost lib opts proto con) := by
  unfold checkHost
  dsimp only
  repeat' split
  all_goals first
    | exact endsWith_ok _
    | exact endsWith_rejectBoth hP _ le_rfl

theorem endsWith_checkTransferEncoding (con : RequestCon) (set : Bool) :
    EndsWith P (checkTransferEncoding con set) := by
  unfold checkTransferEncoding
  dsimp only
  repeat' split
  all_goals first
    | exact endsWith_ok _
    | exact endsWith_reject hP _ (by decide)

theorem endsWith_checkMethod (con : RequestCon) (set : Bool) :
    EndsWith P (checkMethod con set) := by
  unfold checkMethod
  repeat' split
  all_goals first
    | exact endsWith_ok _
    | exact endsWith_reject hP _ (by decide)

theorem endsWith_finishRequest (lib : AddrLib) (opts : ParseOpts) (proto : Buffer)
    (st : ParseState) : EndsWith P (finishRequest lib opts proto st) :=
  (endsWith_checkKeepAlive hP _).bind fun _ => (endsWith_checkHost hP _ _ _ _).bind fun _ =>
    (endsWith_checkTransferEncoding hP _ _).bind fun _ => (endsWith_checkMethod hP _ _).bind fun _ =>
      endsWith_ok _

theorem endsWith_endOfRequestLine (opts : ParseOpts) (con : RequestCon)
    (method target proto : Bytes)
    (hversion : ∀ major minor, getHttpMethodKey method ≠ .unset →
      scanProto proto = .version major minor → ¬ (major = 1 ∧ (minor = 1 ∨ minor = 0)) →
      P { con with httpMethod := getHttpMethodKey method, httpStatus := 505 }) :
    EndsWith P (endOfRequestLine opts con method target proto) := by
  unfold endOfRequestLine
  dsimp only
  split
  · exact endsWith_rejectBoth hP _ (by decide)
  next hm =>
  split
  · exact endsWith_reject hP _ le_rfl
  · exact endsWith_reject hP _ le_rfl
  next major minor hproto =>
  split
  next hv => exact endsWith_error (hversion major minor hm hproto hv)
  repeat' split
  all_goals first
    | exact endsWith_ok _
    | exact endsWith_reject hP _ le_rfl

theorem endsWith_parseRequestLine (opts : ParseOpts) (con : RequestCon) (s : Bytes)
    (hline : ∀ method target proto rest,
      requestLineLoop opts.headerStrict [] [] s = .line [method, target] proto rest →
      EndsWith P (endOfRequestLine opts con method target proto)) :
    EndsWith P (parseRequestLine opts con s) := by
  unfold parseRequestLine httpRequestMissingCRBeforeLF
  split
  case h_4 method target proto rest hloop =>
    split
    next con' hend => exact endsWith_error (hline method target proto rest hloop con' hend)
    repeat' split
    all_goals first
      | exact endsWith_ok _
      | exact endsWith_rejectBoth hP _ le_rfl
  all_goals exact endsWith_rejectBoth hP _ le_rfl

theorem endsWith_parseHeader (h : EndsWith P (parseRequestLine opts con s)) :
    EndsWith P (parseHeader opts con s) :=
  h.bind fun _ => (endsWith_headerLoop hP _ _ _ _).bind fun _ => endsWith_ok _

end

/-- Every error that ends the request carries a status. -/
def Refuses {α : Type*} (r : Except RequestCon α) : Prop :=
  ∀ con, r = .error con → con.httpStatus ≠ 0

theorem ofRejected_refused : OfRejected fun con => con.httpStatus ≠ 0 where
  reject _ n hn := fun h : n = 0 => by omega
  rejectBoth _ n hn := fun h : n = 0 => by omega

theorem refuses_parseHeader (opts : ParseOpts) (con : RequestCon) (s : Bytes) :
    Refuses (parseHeader opts con s) :=
  endsWith_parseHeader ofRejected_refused <|
    endsWith_parseRequestLine ofRejected_refused _ _ _ fun _ _ _ _ _ =>
      endsWith_endOfRequestLine ofRejected_refused _ _ _ _ _ fun _ _ _ _ _ =>
        Nat.succ_ne_zero 504

theorem refuses_finishRequest (lib : AddrLib) (opts : ParseOpts) (proto : Buffer)
    (st : ParseState) : Refuses (finishRequest lib opts proto st) :=
  endsWith_finishRequest ofRejected_refused lib opts proto st

/-! ## What an accepted request passed -/

/-- `http_request_parse` returned and left the status zero. -/
def Accepted (r : RequestCon × ℕ) : Prop := r.1.httpStatus = 0

instance : DecidablePred Accepted := fun _ => inferInstanceAs (Decidable (_ = _))

theorem httpRequestParse_accepted
    (h : Accepted (httpRequestParse lib opts requestCount proto con request)) :
    ∃ skip st, leadingSkip opts requestCount request = some skip ∧
      parseHeader opts con (request.drop skip) = .ok st ∧
      finishRequest lib opts proto st =
        .ok (httpRequestParse lib opts requestCount proto con request) := by
  unfold httpRequestParse at h ⊢
  cases hs : leadingSkip opts requestCount request with
  | none =>
    rw [hs] at h
    exact absurd h (Nat.succ_ne_zero 399)
  | some skip =>
    simp only [hs] at h ⊢
    cases hr : parseHeader opts con (request.drop skip) >>= finishRequest lib opts proto with
    | error con' =>
      simp only [hr] at h
      have hne := EndsWith.bind (refuses_parseHeader opts con (request.drop skip))
        (refuses_finishRequest lib opts proto) con' hr
      exact absurd h hne
    | ok r =>
      obtain ⟨st, hp, hf⟩ := bind_eq_ok_iff.mp hr
      exact ⟨skip, st, rfl, hp, hf⟩

theorem endOfRequestLine_eq_ok {method target proto : Bytes} {host : Option Bytes}
    (h : endOfRequestLine opts con method target proto = .ok (con', host)) :
    ∃ version uri, (version = .http10 ∨ version = .http11) ∧
      scanUri opts.headerStrict (getHttpMethodKey method) target = some (uri, host) ∧
      getHttpMethodKey method ≠ .unset ∧ requestUriIsValid opts.headerStrict uri ∧
      con' = { con with
        httpMethod := getHttpMethodKey method
        httpVersion := version
        uri := some uri
        origUri := some uri
        httpStatus := 0 } := by
  unfold endOfRequestLine at h
  dsimp only at h
  split at h
  · cases h
  next hm =>
  split at h
  · cases h
  · cases h
  next major minor _ =>
  split at h
  · cases h
  split at h
  · cases h
  next uri host' hu =>
  split at h
  · cases h
  next hv =>
  obtain ⟨rfl, rfl⟩ := Prod.mk.inj (Except.ok.inj h)
  refine ⟨_, uri, ?_, hu, hm, not_not.mp hv, rfl⟩
  split
  · exact .inr rfl
  · exact .inl rfl

/-- The request line that was read, and the state before the header. -/
theorem parseRequestLine_eq_ok {rest : Bytes} (h : parseRequestLine opts con s = .ok (st, rest)) :
    ∃ method target proto con' host,
      requestLineLoop opts.headerStrict [] [] s = .line [method, target] proto rest ∧
      endOfRequestLine opts con method target proto = .ok (con', host) ∧
      bufferStringIsEmpty con'.uri = false ∧
      (host = none ∧ st = ⟨con', .unset, false, false, none⟩ ∨
        ∃ name, host = some name ∧
          st = ParseState.insert ⟨{ con' with httpHost := true }, .unset, false, true, none⟩
            (str "Host") name) := by
  unfold parseRequestLine at h
  split at h
  · cases h
  · cases h
  · cases h
  next method target proto rest' hloop =>
    dsimp only at h
    split at h
    · cases h
    next con' host hend =>
    split at h
    · cases h
    next hu =>
    have hu : bufferStringIsEmpty con'.uri = false := by simpa using hu
    split at h
    · obtain ⟨rfl, rfl⟩ := Prod.mk.inj (Except.ok.inj h)
      exact ⟨method, target, proto, con', none, hloop, hend, hu, .inl ⟨rfl, rfl⟩⟩
    · next name =>
      obtain ⟨rfl, rfl⟩ := Prod.mk.inj (Except.ok.inj h)
      exact ⟨method, target, proto, con', some name, hloop, hend, hu, .inr ⟨name, rfl, rfl⟩⟩
  · cases h

theorem parseHeader_eq_ok (h : parseHeader opts con s = .ok st) :
    ∃ st₀ st₁ rest lines rest', parseRequestLine opts con s = .ok (st₀, rest) ∧
      scanHeader opts.headerStrict (.key []) rest = some (lines, rest') ∧
      lines.foldlM endOfHeaderLine st₀ = .ok st₁ ∧
      st = { st₁ with con := { st₁.con with headerLen := s.length - rest'.length } } := by
  obtain ⟨⟨st₀, rest⟩, h₀, h⟩ := bind_eq_ok_iff.mp h
  obtain ⟨⟨st₁, rest'⟩, h₁, h⟩ := bind_eq_ok_iff.mp h
  obtain ⟨lines, hs, hf⟩ := headerLoop_eq_ok_iff.mp h₁
  exact ⟨st₀, st₁, rest, lines, rest', h₀, hs, hf, (Except.ok.inj h).symm⟩

theorem checkKeepAlive_eq_ok (h : checkKeepAlive st = .ok con) :
    ∃ k, con = { st.con with keepAlive := k } := by
  unfold checkKeepAlive at h
  dsimp only at h
  split_ifs at h
  · exact ⟨_, (Except.ok.inj h).symm⟩
  · exact ⟨_, (Except.ok.inj h).symm⟩

theorem checkHost_eq_ok (h : checkHost lib opts proto con = .ok con') :
    con' = con ∨ ∃ host, con' = { con with
      headers := arrayModify con.headers (str "Host") fun _ => some host } := by
  unfold checkHost at h
  dsimp only at h
  split at h
  · split_ifs at h
    exact .inr ⟨_, (Except.ok.inj h).symm⟩
  · exact .inl (Except.ok.inj h).symm

theorem checkTransferEncoding_eq_ok {set : Bool} {r : RequestCon × Bool}
    (h : checkTransferEncoding con set = .ok r) :
    arrayGetElement con.headers (str "Transfer-Encoding") = none ∧ r = (con, set) ∨
    ∃ value, arrayGetElement con.headers (str "Transfer-Encoding") = some value ∧
      con.httpVersion ≠ .http10 ∧ strcaseeq value.string (str "chunked") ∧
      r = ({ con with
        headers := arrayModify (arrayModify con.headers (str "Transfer-Encoding") fun _ => none)
          (str "Content-Length") fun _ => none
        contentLength := -1 }, true) := by
  unfold checkTransferEncoding at h
  split at h
  · next hn => exact .inl ⟨hn, (Except.ok.inj h).symm⟩
  · next value hv =>
    split_ifs at h with h10 hc
    exact .inr ⟨value, hv, h10, hc, (Except.ok.inj h).symm⟩

theorem checkMethod_eq_ok {set : Bool} (h : checkMethod con set = .ok con') : con' = con := by
  unfold checkMethod at h
  split_ifs at h
  exact (Except.ok.inj h).symm

theorem finishRequest_eq_ok (h : finishRequest lib opts proto st = .ok r) :
    ∃ con₁ con₂ set, checkKeepAlive st = .ok con₁ ∧ checkHost lib opts proto con₁ = .ok con₂ ∧
      checkTransferEncoding con₂ st.conLengthSet = .ok (r.1, set) := by
  obtain ⟨con₁, h₁, h⟩ := bind_eq_ok_iff.mp h
  obtain ⟨con₂, h₂, h⟩ := bind_eq_ok_iff.mp h
  obtain ⟨⟨con₃, set⟩, h₃, h⟩ := bind_eq_ok_iff.mp h
  obtain ⟨con₄, h₄, h⟩ := bind_eq_ok_iff.mp h
  have hr : r.1 = con₃ := by
    rw [← Except.ok.inj h]
    exact checkMethod_eq_ok h₄
  exact ⟨con₁, con₂, set, h₁, h₂, hr ▸ h₃⟩

theorem finishRequest_sameRequestLine (h : finishRequest lib opts proto st = .ok r) :
    SameRequestLine st.con r.1 := by
  obtain ⟨con₁, con₂, set, h₁, h₂, h₃⟩ := finishRequest_eq_ok h
  obtain ⟨k, rfl⟩ := checkKeepAlive_eq_ok h₁
  have h₂' : SameRequestLine st.con con₂ := by
    rcases checkHost_eq_ok h₂ with rfl | ⟨host, rfl⟩ <;> exact ⟨rfl, rfl, rfl⟩
  refine h₂'.trans ?_
  rcases checkTransferEncoding_eq_ok h₃ with ⟨-, hr⟩ | ⟨value, -, -, -, hr⟩
  · rw [(Prod.mk.inj hr).1]
    exact .refl _
  · rw [(Prod.mk.inj hr).1]
    exact ⟨rfl, rfl, rfl⟩

theorem parseHeader_requestLine (h : parseHeader opts con s = .ok st) :
    ∃ method target proto con₀ host,
      endOfRequestLine opts con method target proto = .ok (con₀, host) ∧
      bufferStringIsEmpty con₀.uri = false ∧ SameRequestLine con₀ st.con := by
  obtain ⟨st₀, st₁, rest, lines, rest', hline, -, hfold, rfl⟩ := parseHeader_eq_ok h
  obtain ⟨method, target, proto, con₀, host, -, hend, hu, hst⟩ := parseRequestLine_eq_ok hline
  have h₀ : SameRequestLine con₀ st₀.con := by
    rcases hst with ⟨-, rfl⟩ | ⟨name, -, rfl⟩ <;> exact ⟨rfl, rfl, rfl⟩
  have h₁ := h₀.trans (foldlM_sameRequestLine hfold)
  exact ⟨method, target, proto, con₀, host, hend, hu, h₁.method_eq, h₁.version_eq, h₁.uri_eq⟩

theorem httpRequestParse_requestLine
    (h : Accepted (httpRequestParse lib opts requestCount proto con request)) :
    ∃ method target protocol con₀ host,
      endOfRequestLine opts con method target protocol = .ok (con₀, host) ∧
      bufferStringIsEmpty con₀.uri = false ∧
      SameRequestLine con₀ (httpRequestParse lib opts requestCount proto con request).1 := by
  obtain ⟨skip, st, -, hparse, hfin⟩ := httpRequestParse_accepted h
  obtain ⟨method, target, protocol, con₀, host, hend, hu, hsame⟩ := parseHeader_requestLine hparse
  exact ⟨method, target, protocol, con₀, host, hend, hu,
    hsame.trans (finishRequest_sameRequestLine hfin)⟩

theorem httpRequestParse_httpVersion
    (h : Accepted (httpRequestParse lib opts requestCount proto con request)) :
    (httpRequestParse lib opts requestCount proto con request).1.httpVersion = .http10 ∨
      (httpRequestParse lib opts requestCount proto con request).1.httpVersion = .http11 := by
  obtain ⟨method, target, protocol, con₀, host, hend, -, hsame⟩ := httpRequestParse_requestLine h
  obtain ⟨version, uri, hv, -, -, -, rfl⟩ := endOfRequestLine_eq_ok hend
  rw [hsame.version_eq]
  exact hv

theorem headerLen_of_finishRequest (h : finishRequest lib opts proto st = .ok r) :
    r.1.headerLen = st.con.headerLen := by
  obtain ⟨con₁, con₂, set, h₁, h₂, h₃⟩ := finishRequest_eq_ok h
  obtain ⟨k, rfl⟩ := checkKeepAlive_eq_ok h₁
  have hlen : con₂.headerLen = st.con.headerLen := by
    rcases checkHost_eq_ok h₂ with rfl | ⟨host, rfl⟩ <;> rfl
  rcases checkTransferEncoding_eq_ok h₃ with ⟨-, hr⟩ | ⟨value, -, -, -, hr⟩
  · rw [(Prod.mk.inj hr).1, hlen]
  · rw [(Prod.mk.inj hr).1]
    exact hlen

end Lighttpd
