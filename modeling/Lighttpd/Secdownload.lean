import Lighttpd.Alias
import Lighttpd.Base64Charsets
import Lighttpd.UrlCoding
import Mathlib.Data.List.GetD
import Mathlib.Tactic.Ring

/-!
# Signed downloads

`mod_secdownload` serves a path below its prefix when a MAC in front of the path fits the timestamp
and the path behind it, and with `hash-querystr` the query as well. The message is the path, a `?`
and the query put together as they are. A `?` that comes from decoding the path is not told from the
one before the query, so that a MAC may authorise two requests
(`modSecdownloadUriHandler_authorises_iff`).
-/

namespace Lighttpd

open CString

/-- `secdl_algorithm` -/
inductive SecdlAlgorithm
  | invalid
  | md5
  | hmacSha1
  | hmacSha256
  deriving DecidableEq, Repr

/-- `plugin_config`, as `mod_secdownload_patch_connection` leaves it. -/
structure SecdlConf where
  docRoot : Buffer
  secret : Buffer
  uriPrefix : Buffer
  algorithm : SecdlAlgorithm
  timeout : ℕ
  pathSegments : ℕ
  hashQuerystr : Bool

/-- What the handler reads of a request. `http_response_prepare` copies the query as a C string. -/
structure SecdlRequest where
  direct : Bool
  path : Buffer
  query : Buffer
  query_noNul : (0 : UInt8) ∉ query.string

/-- The hash functions. `HMAC` may fail. -/
structure SecdlLib where
  md5 : Bytes → Bytes
  hmac : SecdlAlgorithm → Bytes → Bytes → Option Bytes

/-- What the handler does : the request is left alone, it is finished with a status, or it is to be
served from a physical path. -/
inductive SecdlOutcome
  | goOn
  | finished (status : ℕ)
  | accepted (physical : Physical)
  deriving DecidableEq

/-- `secdl_algorithm_mac_length` -/
def secdlAlgorithmMacLength : SecdlAlgorithm → ℕ
  | .invalid => 0
  | .md5 => 32
  | .hmacSha1 => 27
  | .hmacSha256 => 43

/-- `li_tohex` -/
def liTohex (s : Bytes) : Bytes := s.flatMap hexPair

/-- The branch of a keyed hash in `secdl_verify_mac`; `none` when an assertion fails. -/
def secdlVerifyHmac (lib : SecdlLib) (conf : SecdlConf) (protectedPath mac : Bytes)
    (maclen len : ℕ) : Option Bool :=
  match lib.hmac conf.algorithm conf.secret.string (cstr protectedPath) with
  | none => some false
  | some digest =>
    (liToBase64NoPadding len digest .url).map fun text =>
      decide (len = maclen) && decide (mac.take len = text)

/-- `secdl_verify_mac` -/
def secdlVerifyMac (lib : SecdlLib) (conf : SecdlConf) (protectedPath mac : Bytes) (maclen : ℕ) :
    Option Bool :=
  if maclen = 0 ∨ secdlAlgorithmMacLength conf.algorithm ≠ maclen then some false
  else
    match conf.algorithm with
    | .invalid => some false
    | .md5 =>
      let tsStr := protectedPath.drop 1
      let relUri := tsStr.drop 8
      let md5 := lib.md5 (conf.secret.string ++ cstr relUri ++ tsStr.take 8)
      some (decide (32 = maclen) && decide (mac.take 32 = liTohex md5))
    | .hmacSha1 => secdlVerifyHmac lib conf protectedPath mac maclen 27
    | .hmacSha256 => secdlVerifyHmac lib conf protectedPath mac maclen 43

/-! ## The handler -/

/-- A byte that `is_hex_len` takes. -/
def isHexByte (c : UInt8) : Bool :=
  isDigit c || (97 ≤ c && c ≤ 102) || (65 ≤ c && c ≤ 70)

/-- `is_hex_len` -/
def isHexLen (s : Bytes) (len : ℕ) : Bool := len ≤ s.length && (s.take len).all isHexByte

/-- `is_base64_len` -/
def isBase64Len (s : Bytes) (len : ℕ) : Bool :=
  len ≤ s.length && (s.take len).all fun c => isDigit c || isAlpha c || c = 45 || c = 95

/-- The timestamp of eight digits. -/
def secdlTimestamp (tsStr : Bytes) : ℕ :=
  (tsStr.take 8).foldl (fun ts c => ts * 16 + (hex2int c).toNat) 0

/-- The MAC and the protected path of a path that has the form of a signed one. -/
def secdlSplit (conf : SecdlConf) (path : Bytes) : Option (Bytes × Bytes) :=
  let uriPrefix := conf.uriPrefix.string
  let macLen := secdlAlgorithmMacLength conf.algorithm
  let macStr := path.drop uriPrefix.length
  let protectedPath := macStr.drop macLen
  let tsStr := protectedPath.drop 1
  if ¬ strncmpEq false path uriPrefix uriPrefix.length then none
  else if ¬ isBase64Len macStr macLen then none
  else if protectedPath.getD 0 0 ≠ 47 then none
  else if ¬ isHexLen tsStr 8 then none
  else if tsStr.getD 8 0 ≠ 47 then none
  else some (macStr, protectedPath)

/-- The loop over the segments : the `count`th slash behind an offset. -/
def secdlSegmentEnd (s : Bytes) : ℕ → ℕ → Option ℕ
  | 0, pos => some pos
  | count + 1, pos =>
    (strchr (s.drop (pos + 1)) 47).bind fun i => secdlSegmentEnd s count (pos + 1 + i)

/-- The part of the protected path that is signed. -/
def secdlSignedPath (conf : SecdlConf) (protectedPath : Bytes) : Bytes :=
  if conf.pathSegments ≠ 0 then
    match secdlSegmentEnd protectedPath conf.pathSegments 9 with
    | none => protectedPath
    | some relUriEnd => protectedPath.take relUriEnd
  else protectedPath

/-- What is appended for the query. -/
def secdlQueryText (conf : SecdlConf) (query : Buffer) : Bytes :=
  if conf.hashQuerystr && query.isSome then 63 :: query.string else []

/-- The timestamp is too far from the current time. -/
def secdlTimedOut (conf : SecdlConf) (curTs ts : ℕ) : Bool :=
  (decide (ts < curTs) && decide (conf.timeout < (curTs - ts) % 2 ^ 32)) ||
    (decide (curTs < ts) && decide (conf.timeout < (ts - curTs) % 2 ^ 32))

/-- `mod_secdownload_uri_handler`; `none` when an assertion fails. -/
def modSecdownloadUriHandler (lib : SecdlLib) (conf : SecdlConf) (curTs : ℕ) (r : SecdlRequest) :
    Option SecdlOutcome :=
  if ¬ r.direct then some .goOn
  else if r.path = none then some .goOn
  else if bufferStringIsEmpty conf.uriPrefix then some .goOn
  else if bufferStringIsEmpty conf.secret then some (.finished 500)
  else if bufferStringIsEmpty conf.docRoot then some (.finished 500)
  else if conf.algorithm = .invalid then some (.finished 500)
  else
    match secdlSplit conf (cstr r.path.string) with
    | none => some .goOn
    | some (macStr, protectedPath) =>
      if secdlTimedOut conf curTs (secdlTimestamp (protectedPath.drop 1)) then
        some (.finished 410)
      else
        let relUri := protectedPath.drop 9
        let message := secdlSignedPath conf protectedPath ++ secdlQueryText conf r.query
        (secdlVerifyMac lib conf message macStr (secdlAlgorithmMacLength conf.algorithm)).map
          fun ok =>
            if ok then .accepted ⟨conf.docRoot, conf.docRoot, relUri, conf.docRoot.string ++ relUri⟩
            else .finished 403

/-- The request is accepted with a MAC and a protected path. -/
structure SecdlAccepts (lib : SecdlLib) (conf : SecdlConf) (curTs : ℕ) (r : SecdlRequest)
    (mac protectedPath : Bytes) : Prop where
  accepted : ∃ physical, modSecdownloadUriHandler lib conf curTs r = some (.accepted physical)
  split : ∃ macStr, secdlSplit conf (cstr r.path.string) = some (macStr, protectedPath) ∧
    mac = macStr.take (secdlAlgorithmMacLength conf.algorithm)

/-- The two have the same timestamp, signed path and, if it is signed, query. -/
structure SecdlSame (conf : SecdlConf) (r r' : SecdlRequest) (path path' : Bytes) : Prop where
  timestamp : secdlTimestamp (path.drop 1) = secdlTimestamp (path'.drop 1)
  signed : secdlSignedPath conf path = secdlSignedPath conf path'
  query : conf.hashQuerystr = true → r.query = r'.query

variable {lib : SecdlLib} {conf : SecdlConf} {curTs : ℕ} {r : SecdlRequest}
  {mac protectedPath : Bytes}

/-- The form of a signed path. -/
structure SecdlForm (protectedPath : Bytes) : Prop where
  noNul : (0 : UInt8) ∉ protectedPath
  hex : isHexLen (protectedPath.drop 1) 8 = true
  slash : protectedPath.getD 9 0 = 47

theorem secdlSplit_form {path macStr : Bytes} (hnul : (0 : UInt8) ∉ path)
    (h : secdlSplit conf path = some (macStr, protectedPath)) : SecdlForm protectedPath := by
  unfold secdlSplit at h
  dsimp only at h
  split_ifs at h with h1 h2 h3 h4 h5
  cases h
  refine ⟨fun h0 => hnul (List.mem_of_mem_drop (List.mem_of_mem_drop h0)), h4, ?_⟩
  have hslash := not_not.mp h5
  rw [List.getD_eq_getElem?_getD, List.getElem?_drop] at hslash
  rw [List.getD_eq_getElem?_getD]
  exact hslash

theorem SecdlAccepts.spec (h : SecdlAccepts lib conf curTs r mac protectedPath) :
    ∃ macStr, SecdlForm protectedPath ∧
      mac = macStr.take (secdlAlgorithmMacLength conf.algorithm) ∧
      secdlTimedOut conf curTs (secdlTimestamp (protectedPath.drop 1)) = false ∧
      secdlVerifyMac lib conf (secdlSignedPath conf protectedPath ++ secdlQueryText conf r.query)
        macStr (secdlAlgorithmMacLength conf.algorithm) = some true := by
  obtain ⟨⟨physical, hacc⟩, macStr, hsplit, hmac⟩ := h
  refine ⟨macStr, secdlSplit_form (notMem_cstr _) hsplit, hmac, ?_⟩
  unfold modSecdownloadUriHandler at hacc
  rw [hsplit] at hacc
  dsimp only at hacc
  split_ifs at hacc with h1 h2 h3 h4 h5 h6 h7
  · cases hacc
  · cases hacc
  · cases hacc
  · cases hacc
  · cases hacc
  · cases hacc
  · obtain ⟨ok, hok, hres⟩ := Option.map_eq_some_iff.mp hacc
    cases ok with
    | true => exact ⟨Bool.not_eq_true _ ▸ h7, hok⟩
    | false => cases hres
  · cases hacc

theorem liToBase64NoPadding_injective {len : ℕ} {s t x : Bytes} {charset : Base64Charset}
    (hs : liToBase64NoPadding len s charset = some x)
    (ht : liToBase64NoPadding len t charset = some x) : s = t := by
  have hspec : ∀ {s}, liToBase64NoPadding len s charset = some x →
      x = (Base64.encode false s).map charset.translate := by
    intro s hs
    by_cases hlen : (Base64.encode false s).length ≤ len
    · rw [liToBase64NoPadding_eq charset hlen] at hs
      exact (Option.some.inj hs).symm
    · rw [length_encode_false] at hlen
      unfold liToBase64NoPadding at hs
      dsimp only at hs
      rw [if_neg hlen] at hs
      cases hs
  have heq := congrArg (List.map charset.translate) ((hspec hs).symm.trans (hspec ht))
  rw [map_translate_map_translate, map_translate_map_translate] at heq
  have hdecode := base64Decode_encode false s
  rw [heq, base64Decode_encode] at hdecode
  exact (Option.some.inj hdecode).symm

/-- With a keyed hash, the digest of the message is the one in the path. -/
theorem secdlVerifyMac_hmac {message macStr : Bytes}
    (halg : conf.algorithm = .hmacSha1 ∨ conf.algorithm = .hmacSha256)
    (h : secdlVerifyMac lib conf message macStr (secdlAlgorithmMacLength conf.algorithm) =
      some true) :
    ∃ digest, lib.hmac conf.algorithm conf.secret.string (cstr message) = some digest ∧
      liToBase64NoPadding (secdlAlgorithmMacLength conf.algorithm) digest .url =
        some (macStr.take (secdlAlgorithmMacLength conf.algorithm)) := by
  have hbranch : ∀ len, secdlVerifyHmac lib conf message macStr len len = some true →
      ∃ digest, lib.hmac conf.algorithm conf.secret.string (cstr message) = some digest ∧
        liToBase64NoPadding len digest .url = some (macStr.take len) := by
    intro len hverify
    unfold secdlVerifyHmac at hverify
    split at hverify
    · cases hverify
    · next digest hdigest =>
      obtain ⟨text, htext, hok⟩ := Option.map_eq_some_iff.mp hverify
      rw [Bool.and_eq_true, decide_eq_true_eq, decide_eq_true_eq] at hok
      exact ⟨digest, hdigest, by rw [htext, hok.2]⟩
  unfold secdlVerifyMac at h
  rcases halg with halg | halg
  · rw [halg] at h hbranch ⊢
    exact hbranch 27 (by simpa [secdlAlgorithmMacLength] using h)
  · rw [halg] at h hbranch ⊢
    exact hbranch 43 (by simpa [secdlAlgorithmMacLength] using h)

/-! ## The signed part -/

theorem secdlSegmentEnd_le {s : Bytes} {count pos e : ℕ}
    (h : secdlSegmentEnd s count pos = some e) : pos ≤ e := by
  induction count generalizing pos with
  | zero => exact (Option.some.inj h).le
  | succ count ih =>
    obtain ⟨i, -, hi⟩ := Option.bind_eq_some_iff.mp h
    have := ih hi
    omega

theorem take_secdlSignedPath (conf : SecdlConf) (protectedPath : Bytes) :
    (secdlSignedPath conf protectedPath).take 9 = protectedPath.take 9 := by
  unfold secdlSignedPath
  split_ifs
  · split
    · rfl
    · next relUriEnd hend =>
      rw [List.take_take, Nat.min_eq_left (secdlSegmentEnd_le hend)]
  · rfl

theorem SecdlForm.length (h : SecdlForm protectedPath) : 9 < protectedPath.length := by
  by_contra hlen
  have hslash := h.slash
  rw [List.getD_eq_default _ _ (not_lt.mp hlen)] at hslash
  exact absurd hslash (by decide)

theorem secdlTimestamp_eq (conf : SecdlConf) (protectedPath : Bytes) :
    secdlTimestamp (protectedPath.drop 1) =
      secdlTimestamp ((secdlSignedPath conf protectedPath).drop 1) := by
  have htake : ∀ s : Bytes, (s.drop 1).take 8 = (s.take 9).drop 1 := fun s => by
    rw [List.drop_take]
  rw [secdlTimestamp, secdlTimestamp, htake, htake, take_secdlSignedPath]

theorem secdlTimestamp_lt {tsStr : Bytes} (h : isHexLen tsStr 8 = true) :
    secdlTimestamp tsStr < 2 ^ 32 := by
  have hbyte : ∀ c : UInt8, isHexByte c = true → (hex2int c).toNat < 16 := fun c => by
    have h256 : ∀ n < 256, isHexByte (UInt8.ofNat n) = true →
        (hex2int (UInt8.ofNat n)).toNat < 16 := by decide +kernel
    have := h256 c.toNat c.toNat_lt
    rwa [UInt8.ofNat_toNat] at this
  have hfold : ∀ (s : Bytes) (ts : ℕ), (∀ c ∈ s, isHexByte c = true) →
      s.foldl (fun ts c => ts * 16 + (hex2int c).toNat) ts < (ts + 1) * 16 ^ s.length := by
    intro s
    induction s with
    | nil =>
      intro ts _
      simp
    | cons c s ih =>
      intro ts hs
      have hc := hbyte c (hs c List.mem_cons_self)
      have hrest := ih (ts * 16 + (hex2int c).toNat) fun c hc => hs c (List.mem_cons_of_mem _ hc)
      rw [List.foldl_cons, List.length_cons, pow_succ]
      calc s.foldl (fun ts c => ts * 16 + (hex2int c).toNat) (ts * 16 + (hex2int c).toNat)
          < (ts * 16 + (hex2int c).toNat + 1) * 16 ^ s.length := hrest
        _ ≤ (ts * 16 + 16) * 16 ^ s.length := Nat.mul_le_mul_right _ (by omega)
        _ = (ts + 1) * (16 ^ s.length * 16) := by ring
  rw [isHexLen, Bool.and_eq_true, decide_eq_true_eq, List.all_eq_true] at h
  have hlt := hfold (tsStr.take 8) 0 h.2
  rw [List.length_take, Nat.min_eq_left h.1] at hlt
  unfold secdlTimestamp
  simpa using hlt

theorem SecdlAccepts.inTime (h : SecdlAccepts lib conf curTs r mac protectedPath)
    (hcur : curTs < 2 ^ 32) :
    curTs ≤ secdlTimestamp (protectedPath.drop 1) + conf.timeout ∧
      secdlTimestamp (protectedPath.drop 1) ≤ curTs + conf.timeout := by
  obtain ⟨macStr, hform, -, htime, -⟩ := h.spec
  have hts := secdlTimestamp_lt hform.hex
  rw [secdlTimedOut, Bool.or_eq_false_iff, Bool.and_eq_false_iff, Bool.and_eq_false_iff] at htime
  simp only [decide_eq_false_iff_not, not_lt] at htime
  omega

/-- Two texts with what is put behind them, which is nothing or starts with a separator, are told
apart when they have equally many separators. -/
theorem append_inj_of_count {α : Type*} [DecidableEq α] {sep : α} {s s' e e' : List α}
    (he : e = [] ∨ e.head? = some sep) (he' : e' = [] ∨ e'.head? = some sep)
    (h : s ++ e = s' ++ e') (hcount : s.count sep = s'.count sep) : s = s' ∧ e = e' := by
  have hnil : ∀ {t u v : List α}, (v = [] ∨ v.head? = some sep) → v = t ++ u → t.count sep = 0 →
      t = [] := by
    intro t u v hv hvt ht
    cases t with
    | nil => rfl
    | cons c t =>
      rcases hv with hv | hv
      · rw [hv] at hvt
        cases hvt
      · rw [hvt, List.cons_append, List.head?_cons, Option.some.injEq] at hv
        rw [hv] at ht
        simp at ht
  rcases List.append_eq_append_iff.mp h with ⟨t, rfl, ht⟩ | ⟨t, rfl, ht⟩
  · rw [List.count_append] at hcount
    obtain rfl := hnil he ht (by omega)
    exact ⟨by simp, by simpa using ht⟩
  · rw [List.count_append] at hcount
    obtain rfl := hnil he' ht (by omega)
    exact ⟨by simp, by simpa using ht.symm⟩

theorem secdlQueryText_head (conf : SecdlConf) (query : Buffer) :
    secdlQueryText conf query = [] ∨ (secdlQueryText conf query).head? = some 63 := by
  unfold secdlQueryText
  split_ifs
  · exact .inr rfl
  · exact .inl rfl

theorem secdlQueryText_injective {query query' : Buffer} (hhash : conf.hashQuerystr = true)
    (h : secdlQueryText conf query = secdlQueryText conf query') : query = query' := by
  unfold secdlQueryText at h
  rw [hhash, Bool.true_and, Bool.true_and] at h
  cases query with
  | none =>
    cases query' with
    | none => rfl
    | some q' => cases h
  | some q =>
    cases query' with
    | none => cases h
    | some q' =>
      simp only [Option.isSome_some, if_true, List.cons.injEq, true_and] at h
      exact congrArg some h

/-- The messages of requests that are accepted with one MAC are the same. -/
theorem SecdlAccepts.message_eq {curTs' : ℕ} {r' : SecdlRequest} {protectedPath' : Bytes}
    (halg : conf.algorithm = .hmacSha1 ∨ conf.algorithm = .hmacSha256)
    (hinj : ∀ m m' digest, lib.hmac conf.algorithm conf.secret.string m = some digest →
      lib.hmac conf.algorithm conf.secret.string m' = some digest → m = m')
    (h : SecdlAccepts lib conf curTs r mac protectedPath)
    (h' : SecdlAccepts lib conf curTs' r' mac protectedPath') :
    secdlSignedPath conf protectedPath ++ secdlQueryText conf r.query =
      secdlSignedPath conf protectedPath' ++ secdlQueryText conf r'.query := by
  have hnul : ∀ {path : Bytes} (r : SecdlRequest), SecdlForm path →
      (0 : UInt8) ∉ secdlSignedPath conf path ++ secdlQueryText conf r.query := by
    intro path r hform h0
    rcases List.mem_append.mp h0 with h0 | h0
    · unfold secdlSignedPath at h0
      split_ifs at h0
      · split at h0
        · exact hform.noNul h0
        · exact hform.noNul (List.mem_of_mem_take h0)
      · exact hform.noNul h0
    · unfold secdlQueryText at h0
      split_ifs at h0
      · rcases List.mem_cons.mp h0 with h0 | h0
        · cases h0
        · exact r.query_noNul h0
      · cases h0
  obtain ⟨macStr, hform, hmac, -, hverify⟩ := h.spec
  obtain ⟨macStr', hform', hmac', -, hverify'⟩ := h'.spec
  obtain ⟨digest, hdigest, htext⟩ := secdlVerifyMac_hmac halg hverify
  obtain ⟨digest', hdigest', htext'⟩ := secdlVerifyMac_hmac halg hverify'
  rw [← hmac] at htext
  rw [← hmac'] at htext'
  obtain rfl := liToBase64NoPadding_injective htext htext'
  have heq := hinj _ _ digest hdigest hdigest'
  rwa [cstr_of_notMem (hnul r hform), cstr_of_notMem (hnul r' hform')] at heq

/-- With a keyed hash that is injective in its message : an accepted request is within the timeout,
and two requests that are accepted with one MAC have the same timestamp, signed path and query if
and only if the query is not signed or the two signed paths have equally many `?`. -/
theorem modSecdownloadUriHandler_authorises_iff (lib : SecdlLib) (conf : SecdlConf)
    (halg : conf.algorithm = .hmacSha1 ∨ conf.algorithm = .hmacSha256)
    (hinj : ∀ m m' digest, lib.hmac conf.algorithm conf.secret.string m = some digest →
      lib.hmac conf.algorithm conf.secret.string m' = some digest → m = m') :
    (∀ curTs r mac path, curTs < 2 ^ 32 → SecdlAccepts lib conf curTs r mac path →
      curTs ≤ secdlTimestamp (path.drop 1) + conf.timeout ∧
        secdlTimestamp (path.drop 1) ≤ curTs + conf.timeout) ∧
    ∀ curTs curTs' r r' mac path path', SecdlAccepts lib conf curTs r mac path →
      SecdlAccepts lib conf curTs' r' mac path' →
      (SecdlSame conf r r' path path' ↔
        (conf.hashQuerystr = true → (secdlSignedPath conf path).count 63 =
          (secdlSignedPath conf path').count 63)) := by
  refine ⟨fun curTs r mac path hcur h => h.inTime hcur,
    fun curTs curTs' r r' mac path path' h h' =>
      ⟨fun hsame _ => by rw [hsame.signed], fun hcount => ?_⟩⟩
  have hmessage := SecdlAccepts.message_eq halg hinj h h'
  have hparts : secdlSignedPath conf path = secdlSignedPath conf path' ∧
      secdlQueryText conf r.query = secdlQueryText conf r'.query := by
    by_cases hhash : conf.hashQuerystr = true
    · exact append_inj_of_count (secdlQueryText_head conf _) (secdlQueryText_head conf _) hmessage
        (hcount hhash)
    · have hnone : ∀ query, secdlQueryText conf query = [] := fun query => by
        rw [secdlQueryText, eq_false_of_ne_true hhash]
        rfl
      rw [hnone, hnone, List.append_nil, List.append_nil] at hmessage
      exact ⟨hmessage, by rw [hnone, hnone]⟩
  refine ⟨?_, hparts.1, fun hhash => secdlQueryText_injective hhash hparts.2⟩
  rw [secdlTimestamp_eq conf, secdlTimestamp_eq conf path', hparts.1]

/-- A keyed hash that is its message, of 20 bytes. -/
def plainHash : SecdlLib := ⟨fun _ => [], fun _ _ m => if m.length = 20 then some m else none⟩

/-- Signed downloads below `/dl/`, with their queries signed. -/
def secdlConf (hashQuerystr : Bool) : SecdlConf :=
  ⟨some (str "/srv"), some (str "key"), some (str "/dl/"), .hmacSha1, 60, 0, hashQuerystr⟩

theorem plainHash_injective {alg : SecdlAlgorithm} {secret m m' digest : Bytes}
    (h : plainHash.hmac alg secret m = some digest)
    (h' : plainHash.hmac alg secret m' = some digest) : m = m' := by
  simp only [plainHash, Option.ite_none_right_eq_some, Option.some.injEq] at h h'
  rw [h.2, h'.2]

/-- The text of the hash of a message. -/
def plainMac (message : Bytes) : Bytes := (Base64.encode false message).map urlTranslate

/-- The request with a MAC for a message. -/
def plainRequest (message path : Bytes) (query : Buffer) (h : (0 : UInt8) ∉ query.string) :
    SecdlRequest :=
  ⟨true, some (str "/dl/" ++ plainMac message ++ path), query, h⟩

theorem modSecdownloadUriHandler_authorises_iff_plain :
    (∀ curTs r mac path, curTs < 2 ^ 32 →
      SecdlAccepts plainHash (secdlConf true) curTs r mac path →
      curTs ≤ secdlTimestamp (path.drop 1) + (secdlConf true).timeout ∧
        secdlTimestamp (path.drop 1) ≤ curTs + (secdlConf true).timeout) ∧
    ∀ curTs curTs' r r' mac path path', SecdlAccepts plainHash (secdlConf true) curTs r mac path →
      SecdlAccepts plainHash (secdlConf true) curTs' r' mac path' →
      (SecdlSame (secdlConf true) r r' path path' ↔
        ((secdlConf true).hashQuerystr = true →
          (secdlSignedPath (secdlConf true) path).count 63 =
            (secdlSignedPath (secdlConf true) path').count 63)) :=
  modSecdownloadUriHandler_authorises_iff plainHash (secdlConf true) (Or.inl rfl)
    fun _ _ _ => plainHash_injective

/-- A MAC for `/00000010/aaaaaaaa?b` is one for this path and for `/00000010/aaaaaaaa` with the
query `b`. -/
theorem modSecdownloadUriHandler_ambiguous :
    ¬ ∀ (lib : SecdlLib) (conf : SecdlConf),
      conf.algorithm = .hmacSha1 ∨ conf.algorithm = .hmacSha256 →
      (∀ m m' digest, lib.hmac conf.algorithm conf.secret.string m = some digest →
        lib.hmac conf.algorithm conf.secret.string m' = some digest → m = m') →
      ∀ curTs curTs' r r' mac path path', SecdlAccepts lib conf curTs r mac path →
        SecdlAccepts lib conf curTs' r' mac path' → SecdlSame conf r r' path path' := by
  intro h
  let message := str "/00000010/aaaaaaaa?b"
  have haccepts : SecdlAccepts plainHash (secdlConf true) 16
      (plainRequest message message none List.not_mem_nil) (plainMac message) message :=
    ⟨⟨⟨some (str "/srv"), some (str "/srv"), str "/aaaaaaaa?b", str "/srv/aaaaaaaa?b"⟩,
      by decide +kernel⟩, plainMac message ++ message, by decide +kernel, by decide +kernel⟩
  have haccepts' : SecdlAccepts plainHash (secdlConf true) 16
      (plainRequest message (str "/00000010/aaaaaaaa") (some (str "b")) (by decide +kernel))
      (plainMac message) (str "/00000010/aaaaaaaa") :=
    ⟨⟨⟨some (str "/srv"), some (str "/srv"), str "/aaaaaaaa", str "/srv/aaaaaaaa"⟩,
      by decide +kernel⟩, plainMac message ++ str "/00000010/aaaaaaaa", by decide +kernel,
      by decide +kernel⟩
  have hsame := h plainHash (secdlConf true) (Or.inl rfl) (fun _ _ _ => plainHash_injective) 16 16
    _ _ _ _ _ haccepts haccepts'
  exact absurd hsame.signed (by decide +kernel)

end Lighttpd
