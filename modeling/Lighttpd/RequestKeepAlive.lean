import Lighttpd.RequestAccept

/-!
# Keep-alive of a rejected request

`keep_alive` is not reset between the requests of a connection, so every exit of
`http_request_parse` with an error has to clear it. All but one do: the check of the version sets
the status 505 and returns (`httpRequestParse_closes_iff`).
-/

namespace Lighttpd

open CString

variable {st st' : ParseState} {opts : ParseOpts} {s : Bytes}

theorem storeHeader_httpStatus {key value : Bytes} (h : storeHeader st key value = .ok st') :
    st'.con.httpStatus = st.con.httpStatus := by
  unfold storeHeader rejectHeader at h
  dsimp only at h
  split_ifs at h
  all_goals
    obtain rfl := Except.ok.inj h
    rfl

theorem endOfHeaderLine_httpStatus {line : HeaderLine} (h : endOfHeaderLine st line = .ok st') :
    st'.con.httpStatus = st.con.httpStatus := by
  cases line with
  | field key raw =>
    unfold endOfHeaderLine at h
    dsimp only at h
    split_ifs at h
    · rw [← Except.ok.inj h]
    · exact (storeHeader_httpStatus h).trans rfl
  | continuation value =>
    obtain ⟨key, -, rfl⟩ := endOfHeaderLine_continuation h
    rfl

theorem foldlM_httpStatus :
    ∀ {lines : List HeaderLine} {st : ParseState},
      lines.foldlM endOfHeaderLine st = .ok st' → st'.con.httpStatus = st.con.httpStatus
  | [], st, h => by rw [← Except.ok.inj h]
  | line :: lines, st, h => by
    rw [List.foldlM_cons] at h
    obtain ⟨st₁, h₁, h⟩ := bind_eq_ok_iff.mp h
    exact (foldlM_httpStatus h).trans (endOfHeaderLine_httpStatus h₁)

theorem parseHeader_httpStatus {con : RequestCon} (h : parseHeader opts con s = .ok st) :
    st.con.httpStatus = 0 := by
  obtain ⟨st₀, st₁, rest, lines, rest', hline, -, hfold, rfl⟩ := parseHeader_eq_ok h
  obtain ⟨method, target, proto, con₀, host, -, hend, -, hst⟩ := parseRequestLine_eq_ok hline
  obtain ⟨version, uri, -, -, -, -, rfl⟩ := endOfRequestLine_eq_ok hend
  refine (foldlM_httpStatus hfold).trans ?_
  rcases hst with ⟨-, rfl⟩ | ⟨name, -, rfl⟩ <;> rfl

theorem finishRequest_httpStatus {lib : AddrLib} {proto : Buffer} {r : RequestCon × ℕ}
    (h : finishRequest lib opts proto st = .ok r) : r.1.httpStatus = st.con.httpStatus := by
  obtain ⟨con₁, con₂, set, h₁, h₂, h₃⟩ := finishRequest_eq_ok h
  obtain ⟨k, rfl⟩ := checkKeepAlive_eq_ok h₁
  have hstatus : con₂.httpStatus = st.con.httpStatus := by
    rcases checkHost_eq_ok h₂ with rfl | ⟨host, rfl⟩ <;> rfl
  rcases checkTransferEncoding_eq_ok h₃ with ⟨-, hr⟩ | ⟨value, -, -, -, hr⟩
  · rw [(Prod.mk.inj hr).1, hstatus]
  · rw [(Prod.mk.inj hr).1]
    exact hstatus

/-- The request line that is read has a known method and another version than 1.0 and 1.1. -/
def VersionRefused (opts : ParseOpts) (s : Bytes) : Prop :=
  ∃ method target proto rest major minor,
    requestLineLoop opts.headerStrict [] [] s = .line [method, target] proto rest ∧
      getHttpMethodKey method ≠ .unset ∧ scanProto proto = .version major minor ∧
      ¬ (major = 1 ∧ (minor = 1 ∨ minor = 0))

/-- The same for a request, behind a blank line that is skipped. -/
def RequestVersionRefused (opts : ParseOpts) (requestCount : ℕ) (request : Bytes) : Prop :=
  ∃ skip, leadingSkip opts requestCount request = some skip ∧
    VersionRefused opts (request.drop skip)

/-- A connection that an error closed. -/
def Closed (con : RequestCon) : Prop := con.keepAlive = false ∧ 400 ≤ con.httpStatus

theorem ofRejected_closed : OfRejected Closed where
  reject _ _ hn := ⟨rfl, hn⟩
  rejectBoth _ _ hn := ⟨rfl, hn⟩

theorem endsWith_closed {con : RequestCon} (lib : AddrLib) (proto : Buffer)
    (h : ¬ VersionRefused opts s) :
    EndsWith Closed (parseHeader opts con s >>= finishRequest lib opts proto) := by
  refine EndsWith.bind (endsWith_parseHeader ofRejected_closed ?_)
    (endsWith_finishRequest ofRejected_closed lib opts proto)
  refine endsWith_parseRequestLine ofRejected_closed _ _ _ fun method target proto rest hloop => ?_
  refine endsWith_endOfRequestLine ofRejected_closed _ _ _ _ _ fun major minor hm hp hv => ?_
  exact absurd ⟨method, target, proto, rest, major, minor, hloop, hm, hp, hv⟩ h

/-- The exit for the version leaves `keep_alive` as it was. -/
theorem parseHeader_of_versionRefused (con : RequestCon) (h : VersionRefused opts s) :
    ∃ method, parseHeader opts con s =
      .error { con with httpMethod := getHttpMethodKey method, httpStatus := 505 } := by
  obtain ⟨method, target, proto, rest, major, minor, hloop, hm, hp, hv⟩ := h
  have hend : endOfRequestLine opts con method target proto =
      .error { con with httpMethod := getHttpMethodKey method, httpStatus := 505 } := by
    unfold endOfRequestLine
    dsimp only
    rw [if_neg hm, hp]
    exact if_pos hv
  refine ⟨method, ?_⟩
  unfold parseHeader parseRequestLine
  rw [hloop]
  simp only [hend]
  rfl

/-- A request that is rejected clears `keep_alive`, unless it is rejected for its version. -/
theorem httpRequestParse_closes_iff (lib : AddrLib) (opts : ParseOpts) (requestCount : ℕ)
    (proto : Buffer) (con : RequestCon) (request : Bytes) :
    (400 ≤ (httpRequestParse lib opts requestCount proto con request).1.httpStatus →
        (httpRequestParse lib opts requestCount proto con request).1.keepAlive = false) ↔
      ¬ (con.keepAlive = true ∧ RequestVersionRefused opts requestCount request) := by
  unfold httpRequestParse
  cases hs : leadingSkip opts requestCount request with
  | none =>
    refine iff_of_true (fun _ => rfl) fun h => ?_
    obtain ⟨skip, hskip, -⟩ := h.2
    cases hs.symm.trans hskip
  | some skip =>
    have hreq : RequestVersionRefused opts requestCount request ↔
        VersionRefused opts (request.drop skip) := by
      refine ⟨fun ⟨n, hn, h⟩ => ?_, fun h => ⟨skip, hs, h⟩⟩
      rwa [Option.some.inj (hs.symm.trans hn)]
    rw [hreq]
    dsimp only
    by_cases hv : VersionRefused opts (request.drop skip)
    · obtain ⟨method, hparse⟩ := parseHeader_of_versionRefused con hv
      have herr : (parseHeader opts con (request.drop skip) >>= finishRequest lib opts proto) =
          .error { con with httpMethod := getHttpMethodKey method, httpStatus := 505 } := by
        rw [hparse]
        rfl
      simp only [herr, hv, and_true, Bool.not_eq_true]
      exact ⟨fun h => h (by decide), fun h _ => h⟩
    · refine iff_of_true ?_ fun h => hv h.2
      cases hr : parseHeader opts con (request.drop skip) >>= finishRequest lib opts proto with
      | error con' => exact fun _ => (endsWith_closed lib proto hv con' hr).1
      | ok r =>
        obtain ⟨st, hparse, hfin⟩ := bind_eq_ok_iff.mp hr
        have hzero : r.1.httpStatus = 0 :=
          (finishRequest_httpStatus hfin).trans (parseHeader_httpStatus hparse)
        intro h
        simp only [hzero] at h
        omega

/-- A second request that is rejected for its version and keeps the connection. -/
theorem httpRequestParse_not_closes :
    ¬ (400 ≤ (httpRequestParse .noAddress strictOpts 2 none (.reset true false)
          (str "GET / HTTP/2.0\r\nHost: a\r\n\r\n")).1.httpStatus →
        (httpRequestParse .noAddress strictOpts 2 none (.reset true false)
          (str "GET / HTTP/2.0\r\nHost: a\r\n\r\n")).1.keepAlive = false) := by
  decide +kernel

end Lighttpd
