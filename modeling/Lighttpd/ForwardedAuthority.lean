import Lighttpd.ForwardedBounds
import Lighttpd.ResponsePrepare

/-!
# The two hosts of a request

`http_response_prepare` derives `uri.authority`, which the conditions on the host and the modules
for virtual hosts go by, from `request.http_host` before it calls the hooks for the raw URI, and
`mod_extforward_Forwarded` then sets `request.http_host` alone. `oneHost_iff` says that the two stay
the same just for a header that gives no other host.
-/

namespace Lighttpd

open CString

/-- What the hook leaves, with `uri.authority`. -/
structure UriRaw where
  handled : ForwardedHandled
  authority : Bytes

/-- `http_response_prepare` from where it derives the authority to behind the hooks for the raw
URI. -/
def prepareUriRaw (conf : ExtforwardConf) (s : Bytes) (offsets : Offsets) (con : ForwardedCon) :
    ForwardedRun UriRaw := do
  let authority := bufferToLower con.httpHost
  let handled ← modExtforwardForwarded conf s offsets con
  pure ⟨handled, authority⟩

/-- The host and the authority of a request that goes on. -/
def UriRaw.hosts (u : UriRaw) : Option (Bytes × Bytes) :=
  match u.handled with
  | .goOn con => some (con.httpHost, u.authority)
  | .finished _ => none

/-- The hook ends, and where the request goes on its authority is its host, in lower case. -/
def OneHost (r : ForwardedRun UriRaw) : Prop :=
  ∃ u, r = .ok u ∧ ∀ host authority, u.hosts = some (host, authority) →
    authority = bufferToLower host

theorem prepareUriRaw_eq_ok {conf : ExtforwardConf} {s : Bytes} {offsets : Offsets}
    {con : ForwardedCon} {u : UriRaw} (h : prepareUriRaw conf s offsets con = .ok u) :
    ∃ handled, modExtforwardForwarded conf s offsets con = .ok handled ∧
      u = ⟨handled, bufferToLower con.httpHost⟩ := by
  unfold prepareUriRaw at h
  cases hheader : modExtforwardForwarded conf s offsets con with
  | ok handled =>
    rw [hheader] at h
    cases h
    exact ⟨handled, rfl, rfl⟩
  | error f =>
    rw [hheader] at h
    cases h

/-! ## The host that a header gives -/

/-- The header `s` has the tokens `ts`, is not rejected, has an address at `t` and gives the host
`h` in the parameter `p`. -/
structure GivesHostAt (conf : ExtforwardConf) (s : Bytes) (con : ForwardedCon)
    (ts : List ForwardedToken) (t : ForwardedTaken) (p : ForwardedParam) (h : Bytes) : Prop where
  tokens : forwardedTokens s (s.length + 1) 0 = .ok (ts, true)
  fits : entries ts ≤ 252
  taken : forwardedTaken conf s false ts.reverse none = some (some t)
  addr : ∃ addr, t.param.addr s = some addr ∧ conf.isNumericAddr addr = true
  host : optionParam conf.forwardedHost (hostParam s t.front (t.behind ts)) = some p
  escapes : (decodedValue (p.text s)).2 = true
  policy : conf.hostPolicy (decodedValue (p.text s)).1
    (takeProto conf s con (protoParam s t.front (t.behind ts))).uriScheme = some h
  remote_user : ∀ q, optionParam conf.forwardedRemoteUser
    (remoteUserParam s t.front (t.behind ts)) = some q → (decodedValue (q.text s)).2 = true

/-- The header is not rejected and gives the host `h`. -/
def GivesHost (conf : ExtforwardConf) (s : Bytes) (con : ForwardedCon) (h : Bytes) : Prop :=
  ∃ ts t p, GivesHostAt conf s con ts t p h

section Frame

variable {conf : ExtforwardConf} {s : Bytes} {con con' : ForwardedCon}

theorem modExtforwardSetAddr_eq_some {addr : Bytes}
    (h : modExtforwardSetAddr conf con addr = some con') :
    conf.isNumericAddr addr = true ∧ con'.httpHost = con.httpHost ∧
      con'.uriScheme = con.uriScheme := by
  unfold modExtforwardSetAddr at h
  split_ifs at h with haddr hcheck
  · cases h
    exact ⟨haddr, rfl, rfl⟩
  · cases h
    exact ⟨haddr, rfl, rfl⟩

theorem modExtforwardSetProto_httpHost (conf : ExtforwardConf) (con : ForwardedCon)
    (proto : Bytes) : (modExtforwardSetProto conf con proto).httpHost = con.httpHost := by
  unfold modExtforwardSetProto
  split_ifs <;> rfl

theorem modExtforwardSetProto_uriScheme (proto : Bytes) (h : con'.uriScheme = con.uriScheme) :
    (modExtforwardSetProto conf con' proto).uriScheme =
      (modExtforwardSetProto conf con proto).uriScheme := by
  unfold modExtforwardSetProto
  rw [h]
  split_ifs <;> first | rfl | exact h

theorem takeProto_httpHost (conf : ExtforwardConf) (s : Bytes) (con : ForwardedCon)
    (p : Option ForwardedParam) : (takeProto conf s con p).httpHost = con.httpHost := by
  cases p with
  | none => rfl
  | some p => exact modExtforwardSetProto_httpHost conf con _

theorem takeProto_uriScheme (conf : ExtforwardConf) (s : Bytes) (p : Option ForwardedParam)
    (h : con'.uriScheme = con.uriScheme) :
    (takeProto conf s con' p).uriScheme = (takeProto conf s con p).uriScheme := by
  cases p with
  | none => exact h
  | some p => exact modExtforwardSetProto_uriScheme _ h

/-- A host that is taken goes on just if it can be unescaped and the policy accepts it. -/
theorem takeHost_goOn_iff {p : ForwardedParam} {h : Bytes} :
    (∃ con', takeHost conf s con (some p) = .goOn con' ∧ con'.httpHost = h) ↔
      (decodedValue (p.text s)).2 = true ∧
        conf.hostPolicy (decodedValue (p.text s)).1 con.uriScheme = some h := by
  have hscheme : (if conf.checkProxy ∧ con.httpHost ≠ [] then
      con.setEnv (str "_L_EXTFORWARD_ACTUAL_HOST") con.httpHost else con).uriScheme =
        con.uriScheme := by
    split_ifs <;> rfl
  have hdecoded : (if (unquotedValue (p.text s)).2 then
      bufferBackslashUnescape (unquotedValue (p.text s)).1
      else ((unquotedValue (p.text s)).1, true)) = decodedValue (p.text s) := rfl
  rw [takeHost, forwardedTakeHost]
  dsimp only
  rw [hdecoded]
  generalize (if conf.checkProxy ∧ con.httpHost ≠ [] then
    con.setEnv (str "_L_EXTFORWARD_ACTUAL_HOST") con.httpHost else con) = con₁ at hscheme ⊢
  rw [hscheme]
  by_cases hescapes : (decodedValue (p.text s)).2 = true
  · rw [if_pos hescapes]
    cases conf.hostPolicy (decodedValue (p.text s)).1 con.uriScheme with
    | none => simp [ForwardedCon.reject]
    | some host => simp [hescapes]
  · simp [ForwardedCon.reject, hescapes]

theorem takeRemoteUser_goOn {q : Option ForwardedParam}
    (h : takeRemoteUser s con q = .goOn con') :
    con'.httpHost = con.httpHost ∧ ∀ p, q = some p → (decodedValue (p.text s)).2 = true := by
  cases q with
  | none =>
    cases h
    exact ⟨rfl, nofun⟩
  | some p =>
    simp only [takeRemoteUser] at h
    split_ifs at h with hescapes
    · cases h
      refine ⟨rfl, ?_⟩
      rintro p' ⟨⟩
      exact hescapes
    · cases h

theorem exists_takeRemoteUser (con : ForwardedCon) {q : Option ForwardedParam}
    (h : ∀ p, q = some p → (decodedValue (p.text s)).2 = true) :
    ∃ con', takeRemoteUser s con q = .goOn con' ∧ con'.httpHost = con.httpHost := by
  cases q with
  | none => exact ⟨con, rfl, rfl⟩
  | some p =>
    simp only [takeRemoteUser]
    rw [if_pos (h p rfl)]
    exact ⟨_, rfl, rfl⟩

end Frame

section Meaning

variable {conf : ExtforwardConf} {s : Bytes} {con con' : ForwardedCon}

/-- A request that goes on has its own host or the one that the header gives. -/
theorem httpHost_of_goOn (h : forwardedMeaning conf s con = .goOn con') :
    con'.httpHost = con.httpHost ∨ GivesHost conf s con con'.httpHost := by
  unfold forwardedMeaning at h
  rcases htokens : forwardedTokens s (s.length + 1) 0 with f | ⟨ts, _ | _⟩
  · rw [htokens] at h
    cases h
  · rw [htokens] at h
    cases h
  · rw [htokens] at h
    dsimp only at h
    split_ifs at h with hfits
    · rw [tokensMeaning] at h
      rcases htaken : forwardedTaken conf s false ts.reverse none with _ | _ | t
      · rw [htaken] at h
        cases h
      · rw [htaken] at h
        cases h
        exact .inl rfl
      · rw [htaken] at h
        dsimp only [takenMeaning] at h
        rcases haddr : (t.param.addr s).bind (modExtforwardSetAddr conf con) with _ | con₁
        · rw [haddr] at h
          cases h
          exact .inl rfl
        · rw [haddr] at h
          obtain ⟨addr, haddr, hset⟩ := Option.bind_eq_some_iff.mp haddr
          obtain ⟨hnumeric, hhost₁, hscheme₁⟩ := modExtforwardSetAddr_eq_some hset
          dsimp only [aroundMeaning] at h
          have hhost₂ := takeProto_httpHost conf s con₁ (protoParam s t.front (t.behind ts))
          have hscheme₂ := takeProto_uriScheme conf s
            (protoParam s t.front (t.behind ts)) hscheme₁
          generalize takeProto conf s con₁ (protoParam s t.front (t.behind ts)) = con₂
            at h hhost₂ hscheme₂
          rcases hp : optionParam conf.forwardedHost (hostParam s t.front (t.behind ts)) with _ | p
          · rw [hp] at h
            have := (takeRemoteUser_goOn h).1
            exact .inl (this.trans (hhost₂.trans hhost₁))
          · rw [hp] at h
            rcases htake : takeHost conf s con₂ (some p) with con₃ | con₃
            · rw [htake] at h
              obtain ⟨hhost₃, huser⟩ := takeRemoteUser_goOn h
              obtain ⟨hescapes, hpolicy⟩ := takeHost_goOn_iff.mp ⟨con₃, htake, rfl⟩
              rw [hscheme₂] at hpolicy
              exact .inr ⟨ts, t, p, htokens, hfits, htaken, ⟨addr, haddr, hnumeric⟩, hp,
                hescapes, by rw [hpolicy, hhost₃], huser⟩
            · rw [htake] at h
              cases h
    · cases h

theorem exists_goOn_of_givesHost {h : Bytes} (hgives : GivesHost conf s con h) :
    ∃ con', forwardedMeaning conf s con = .goOn con' ∧ con'.httpHost = h := by
  obtain ⟨ts, t, p, hg⟩ := hgives
  obtain ⟨addr, haddr, hnumeric⟩ := hg.addr
  have hset : ∃ con₁, modExtforwardSetAddr conf con addr = some con₁ := by
    rw [modExtforwardSetAddr, if_pos hnumeric]
    exact ⟨_, rfl⟩
  obtain ⟨con₁, hset⟩ := hset
  have hscheme := takeProto_uriScheme conf s
    (protoParam s t.front (t.behind ts)) (modExtforwardSetAddr_eq_some hset).2.2
  have hpolicy := hg.policy
  rw [← hscheme] at hpolicy
  obtain ⟨con₂, htake, rfl⟩ := takeHost_goOn_iff.mpr ⟨hg.escapes, hpolicy⟩
  obtain ⟨con₃, huser, hhost⟩ := exists_takeRemoteUser con₂ hg.remote_user
  refine ⟨con₃, ?_, hhost⟩
  rw [forwardedMeaning, hg.tokens]
  dsimp only
  rw [if_pos hg.fits, tokensMeaning, hg.taken]
  dsimp only [takenMeaning]
  rw [haddr, Option.bind_some, hset]
  dsimp only [aroundMeaning]
  rw [hg.host, htake]
  exact huser

end Meaning

/-- The authority is the host behind the hook just if the header fits and gives no other host than
that of the request, up to the case of letters. -/
theorem oneHost_iff (conf : ExtforwardConf) (s : Bytes) (offsets : Offsets) (con : ForwardedCon) :
    OneHost (prepareUriRaw conf s offsets con) ↔
      ¬ ForwardedMisfit conf s ∧
        ∀ h, GivesHost conf s con h → bufferToLower h = bufferToLower con.httpHost := by
  constructor
  · rintro ⟨u, hrun, hsame⟩
    obtain ⟨handled, hheader, hu⟩ := prepareUriRaw_eq_ok hrun
    obtain ⟨hfits, rfl⟩ := modExtforwardForwarded_eq_ok_iff.mp hheader
    refine ⟨hfits, fun h hgives => ?_⟩
    obtain ⟨con', hgoes, rfl⟩ := exists_goOn_of_givesHost hgives
    refine (hsame con'.httpHost (bufferToLower con.httpHost) ?_).symm
    rw [hu, UriRaw.hosts, hgoes]
  · rintro ⟨hfits, hsame⟩
    have hheader : modExtforwardForwarded conf s offsets con = .ok (forwardedMeaning conf s con) :=
      modExtforwardForwarded_eq_ok_iff.mpr ⟨hfits, rfl⟩
    refine ⟨_, by rw [prepareUriRaw, hheader]; rfl, fun host authority hhosts => ?_⟩
    rw [UriRaw.hosts] at hhosts
    cases hgoes : forwardedMeaning conf s con with
    | finished con' =>
      rw [hgoes] at hhosts
      cases hhosts
    | goOn con' =>
      rw [hgoes] at hhosts
      cases hhosts
      rcases httpHost_of_goOn hgoes with hhost | hgives
      · rw [hhost]
      · exact (hsame _ hgives).symm

/-- The host of a `Forwarded` header is taken, and any text is an address. -/
def hostExtforward : ExtforwardConf where
  isProxyTrusted := fun _ => false
  isNumericAddr := fun _ => true
  hostPolicy := fun host _ => some host
  forwardedHost := true
  forwardedRemoteUser := false
  checkProxy := false

/-- A request for the host `a`. -/
def hostACon : ForwardedCon where
  dstAddrBuf := str "10.0.0.1"
  savedRemoteAddrBuf := none
  uriScheme := str "http"
  httpHost := str "a"
  environment := fun _ => none
  httpStatus := 0
  direct := false

/-- The request goes on with the host `b` and the authority `a`. -/
theorem not_oneHost :
    hostExtforward.forwardedHost = true ∧
      ¬ OneHost
        (prepareUriRaw hostExtforward (str "for=10.0.0.9;host=b") (fun _ => 0) hostACon) := by
  have hrun : (prepareUriRaw hostExtforward (str "for=10.0.0.9;host=b") (fun _ => 0)
      hostACon).map UriRaw.hosts = .ok (some (str "b", str "a")) := by decide +kernel
  refine ⟨rfl, ?_⟩
  rintro ⟨u, hu, hone⟩
  rw [hu] at hrun
  have hsame := hone (str "b") (str "a") (Except.ok.inj hrun)
  exact absurd hsame (by decide)

end Lighttpd
