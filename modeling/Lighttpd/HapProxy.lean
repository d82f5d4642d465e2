import Lighttpd.SockAddr
import Lighttpd.Lib.FaultRuns
import Lighttpd.Lib.Tlv

/-!
# The PROXY header of version 2

`hap_PROXY_recv` and `mod_extforward_hap_PROXY_v2` of `mod_extforward.c`. A pointer into the header
is the bytes that were declared and received from it on, so that a read behind them is a fault. The
size of the address is subtracted from the declared length, and the fixed part of an SSL vector from
the length of that vector, without a test that they fit; where one does not, the length wraps around
and the walk leaves the header.
-/

namespace Lighttpd

open CString FaultRuns TypeLength

/-! ## The code -/

/-- What `recv` gives. -/
inductive RecvCall
  | bytes (s : Bytes)
  | again
  | failed

/-- `v2sig` -/
def hapV2Sig : Bytes := [13, 10, 13, 10, 0, 13, 10, 81, 85, 73, 84, 10]

/-- `16 + ntohs(hdr->v2.len)` -/
def hapV2Size (hdr : Bytes) : ℕ := 16 + length16 (hdr.getD 14 0) (hdr.getD 15 0)

/-- The second `recv`, which takes the header from the socket. -/
def hapConsume (consume : RecvCall) (ver : ℤ) (sz : ℕ) : ℤ :=
  match consume with
  | .bytes s => if s.length ≠ sz then -1 else ver
  | _ => -1

/-- `hap_PROXY_recv` with what its two calls of `recv` give; the second one overwrites the header with
the same bytes. -/
def hapProxyRecv (peek consume : RecvCall) : ℤ :=
  match peek with
  | .again => 0
  | .failed => -1
  | .bytes hdr =>
    if 16 ≤ hdr.length ∧ hdr.take 12 = hapV2Sig ∧ hdr.getD 12 0 &&& 0xF0 = 0x20 then
      if hdr.length < hapV2Size hdr then -2
      else if hdr.getD 12 0 &&& 0xF = 1 ∨ hdr.getD 12 0 &&& 0xF = 0 then
        hapConsume consume 2 (hapV2Size hdr)
      else -2
    else if 8 ≤ hdr.length ∧ hdr.take 5 = str "PROXY" then
      match memchr (hdr.take (hdr.length - 1)) CR with
      | none => -2
      | some i => if hdr.getD (i + 1) 0 ≠ LF then -2 else hapConsume consume 1 (i + 2)
    else -2

/-- A read behind the declared bytes, or rounds left to do. -/
inductive HapFault
  | outside
  | running
  deriving DecidableEq, Repr

/-- What the header changes of a connection and its context. -/
structure HapCon where
  dstAddr : SockAddr
  dstAddrBuf : Bytes
  proto : Bytes
  sslClientVerify : Bool
  env : Option (List (Bytes × Bytes))

/-- A byte behind a pointer. -/
def hdrByte (p : Bytes) (i : ℕ) : Except HapFault UInt8 :=
  match p[i]? with
  | some b => .ok b
  | none => .error .outside

/-- `n` bytes behind a pointer. -/
def hdrBytes (p : Bytes) (i n : ℕ) : Except HapFault Bytes :=
  if i + n ≤ p.length then .ok ((p.drop i).take n) else .error .outside

/-- `memchr` for the zero among the first `n` bytes: the bytes before it. -/
def zeroAt (p : Bytes) (n : ℕ) : Except HapFault (Option Bytes) :=
  let path := (p.take n).takeWhile (· ≠ 0)
  if path.length < (p.take n).length then .ok (some path)
  else if n ≤ p.length then .ok none
  else .error .outside

/-- The length of a vector. -/
def tlvLength (tlv : Bytes) : Except HapFault ℕ := do
  let hi ← hdrByte tlv 1
  let lo ← hdrByte tlv 2
  pure (length16 hi lo)

/-- A difference of two `uint32_t`. -/
def sub32 (a b : ℕ) : ℕ := (a + 2 ^ 32 - b) % 2 ^ 32

/-- `array_set_key_value` -/
def envSet : List (Bytes × Bytes) → Bytes → Bytes → List (Bytes × Bytes)
  | [], key, value => [(key, value)]
  | e :: env, key, value =>
    if e.1 = key then (key, value) :: env else e :: envSet env key value

abbrev PP2_TYPE_SSL : UInt8 := 0x20

/-- The variable of a vector inside that of SSL. -/
def sslName (type : UInt8) : Option Bytes :=
  if type = 0x21 then some (str "SSL_PROTOCOL")
  else if type = 0x22 then some (str "SSL_CLIENT_S_DN_CN")
  else if type = 0x23 then some (str "SSL_CIPHER")
  else if type = 0x24 then some (str "SSL_SERVER_A_SIG")
  else if type = 0x25 then some (str "SSL_SERVER_A_KEY")
  else none

/-- The loop over the vectors inside that of SSL, with at most as many rounds as given. -/
def subTlvLoop : ℕ → Bytes → ℕ → ℕ → Option (List (Bytes × Bytes)) →
    Except HapFault (Option (List (Bytes × Bytes)))
  | 0, _, _, _, _ => .error .running
  | rounds + 1, subtlv, n, subsz, env =>
    if subsz < 3 then .ok env
    else do
      let subtlv := subtlv.drop (3 + n)
      let n ← tlvLength subtlv
      if subsz < 3 + n then .ok env
      else
        let env := env.getD []
        let type ← hdrByte subtlv 0
        match sslName type with
        | some name =>
          let value ← hdrBytes subtlv 3 n
          subTlvLoop rounds subtlv n (sub32 subsz (3 + n)) (some (envSet env name value))
        | none => subTlvLoop rounds subtlv n (sub32 subsz (3 + n)) (some env)

/-- The vector of SSL at `tlv`. -/
def sslTlv (tlv : Bytes) (len : ℕ) (con : HapCon) : Except HapFault HapCon := do
  let client ← hdrByte tlv 3
  let con := if client &&& 1 ≠ 0 then { con with proto := str "https" } else con
  let verify ← if client &&& 6 ≠ 0 then hdrBytes tlv 4 4 else .ok []
  let con := if verify = [0, 0, 0, 0] then { con with sslClientVerify := true } else con
  let env ← subTlvLoop (tlv.length + 1) tlv 5 (sub32 len 5) con.env
  pure { con with env := env }

/-- The loop over the vectors behind the address. -/
def tlvLoop : ℕ → Bytes → ℕ → ℕ → HapCon → Except HapFault HapCon
  | 0, _, _, _, _ => .error .running
  | rounds + 1, tlv, len, sz, con =>
    if sz < 3 then .ok con
    else do
      let tlv := tlv.drop (3 + len)
      let len ← tlvLength tlv
      if sz < 3 + len then .ok con
      else
        let type ← hdrByte tlv 0
        let con ← if type = PP2_TYPE_SSL then sslTlv tlv len con else .ok con
        tlvLoop rounds tlv len (sub32 sz (3 + len)) con

/-- The vectors behind an address of `len` bytes. -/
def hapTlvs (hdr : Bytes) (sz len : ℕ) (con : HapCon) : Except HapFault (ℤ × HapCon) := do
  let con ← tlvLoop (hdr.length + 1) (hdr.drop 16) (len - 3) (sub32 sz len) con
  pure (0, con)

/-- An address of IPv4 in network order. -/
def inetOfBytes (s : Bytes) : BitVec 32 :=
  BitVec.ofNat 32 (s.foldl (fun n b => 256 * n + b.toNat) 0)

/-- An address of IPv6. -/
def inet6OfBytes (s : Bytes) : Vector UInt8 16 := Vector.ofFn fun i => s.getD i 0

/-- A port in network order. -/
def portOfBytes (s : Bytes) : ℕ := s.foldl (fun n b => 256 * n + b.toNat) 0

/-- `mod_extforward_hap_PROXY_v2` -/
def modExtforwardHapProxyV2 (lib : AddrLib) (hdr : Bytes) (con : HapCon) :
    Except HapFault (ℤ × HapCon) := do
  let hi ← hdrByte hdr 14
  let lo ← hdrByte hdr 15
  let sz := length16 hi lo
  let verCmd ← hdrByte hdr 12
  if verCmd &&& 0xF = 1 then
    let fam ← hdrByte hdr 13
    if fam = 0x11 then
      let addr ← hdrBytes hdr 16 4
      let port ← hdrBytes hdr 24 2
      hapTlvs hdr sz 12
        { con with
          dstAddr := .inet (inetOfBytes addr) (portOfBytes port)
          dstAddrBuf := lib.inetNtop4 (inetOfBytes addr) }
    else if fam = 0x21 then
      let addr ← hdrBytes hdr 16 16
      let port ← hdrBytes hdr 48 2
      hapTlvs hdr sz 36
        { con with
          dstAddr := .inet6 (inet6OfBytes addr) (portOfBytes port)
          dstAddrBuf := lib.inetNtop6 (inet6OfBytes addr) }
    else if fam = 0x31 then
      let path ← zeroAt (hdr.drop 16) 108
      match path with
      | none => pure (-1, con)
      | some path =>
        -- the buffer gets the zero as well
        hapTlvs hdr sz 216 { con with dstAddr := .unix path, dstAddrBuf := path ++ [0] }
    else pure (0, con)
  else if verCmd &&& 0xF = 0 then pure (0, con)
  else pure (-1, con)

/-- A vector inside that of SSL. -/
def recordSub (env : Option (List (Bytes × Bytes))) (t : Tlv) : Option (List (Bytes × Bytes)) :=
  match sslName t.type with
  | some name => some (envSet (env.getD []) name t.value)
  | none => some (env.getD [])

/-- The vectors inside that of SSL. -/
def innerTlvs (t : Tlv) : List Tlv := if t.type = PP2_TYPE_SSL then tlvs (t.value.drop 5) else []

/-- A vector of SSL has its fixed part. -/
def SslWhole (s : Bytes) : Prop := ∀ t ∈ tlvs s, t.type = PP2_TYPE_SSL → 5 ≤ t.value.length

instance : DecidablePred SslWhole := fun _ => inferInstanceAs (Decidable (∀ _ ∈ _, _))

/-- What a vector changes. -/
def applyTlv (con : HapCon) (t : Tlv) : HapCon :=
  if t.type = PP2_TYPE_SSL then
    let client := t.value.getD 0 0
    { con with
      proto := if client &&& 1 ≠ 0 then str "https" else con.proto
      sslClientVerify :=
        decide (client &&& 6 ≠ 0 ∧ (t.value.drop 1).take 4 = [0, 0, 0, 0]) || con.sslClientVerify
      env := (tlvs (t.value.drop 5)).foldl recordSub con.env }
  else con

theorem applyTlv_env (con : HapCon) (t : Tlv) :
    (applyTlv con t).env = (innerTlvs t).foldl recordSub con.env := by
  unfold applyTlv innerTlvs
  split_ifs <;> rfl

theorem foldl_applyTlv_env (ts : List Tlv) (con : HapCon) :
    (ts.foldl applyTlv con).env = (ts.flatMap innerTlvs).foldl recordSub con.env := by
  induction ts generalizing con with
  | nil => rfl
  | cons t ts ih =>
    rw [List.foldl_cons, ih, applyTlv_env, List.flatMap_cons, List.foldl_append]

theorem hdrByte_cases (p : Bytes) (i : ℕ) :
    (∃ b, hdrByte p i = .ok b) ∨ hdrByte p i = .error .outside := by
  unfold hdrByte
  cases p[i]? with
  | some b => exact .inl ⟨b, rfl⟩
  | none => exact .inr rfl

theorem hdrBytes_cases (p : Bytes) (i n : ℕ) :
    (∃ s, hdrBytes p i n = .ok s) ∨ hdrBytes p i n = .error .outside := by
  unfold hdrBytes
  split_ifs
  · exact .inl ⟨_, rfl⟩
  · exact .inr rfl

theorem tlvLength_cons (type hi lo : UInt8) (rest : Bytes) :
    tlvLength (type :: hi :: lo :: rest) = .ok (length16 hi lo) := rfl

variable {s rest hdr : Bytes} {type hi lo : UInt8}

theorem tlvLength_outside (h : s.length < 3) : tlvLength s = .error .outside := by
  rcases s with _ | ⟨type, _ | ⟨hi, _ | ⟨lo, rest⟩⟩⟩
  · rfl
  · rfl
  · rfl
  · simp at h
    omega

theorem sub32_of_le {a b : ℕ} (h : b ≤ a) (ha : a < 2 ^ 32) : sub32 a b = a - b := by
  unfold sub32
  omega

theorem sub32_of_lt {a b : ℕ} (h : a < b) (hb : b ≤ 2 ^ 32) : sub32 a b = 2 ^ 32 - (b - a) := by
  unfold sub32
  omega

/-- The walk reads the vectors that lie in the `subsz` bytes from where it starts. -/
theorem subTlvLoop_eq : ∀ {rounds : ℕ} {p : Bytes} {n subsz : ℕ}
    {env : Option (List (Bytes × Bytes))}, (p.drop (3 + n)).length < rounds →
      subsz ≤ (p.drop (3 + n)).length → subsz < 2 ^ 32 →
        subTlvLoop rounds p n subsz env =
          .ok ((tlvs ((p.drop (3 + n)).take subsz)).foldl recordSub env)
  | 0, _, _, _, _, h, _, _ => by omega
  | rounds + 1, p, n, subsz, env, hrounds, hle, hsmall => by
    rw [subTlvLoop]
    split_ifs with hshort
    · have hlen : ((p.drop (3 + n)).take subsz).length < 3 := by
        rw [List.length_take]
        omega
      rw [tlvs_of_short hlen]
      rfl
    · generalize p.drop (3 + n) = s at hrounds hle ⊢
      dsimp only
      obtain ⟨type, hi, lo, rest, rfl⟩ := exists_head (s := s) (by omega)
      obtain ⟨k, rfl⟩ : ∃ k, subsz = k + 3 := ⟨subsz - 3, by omega⟩
      simp only [List.length_cons] at hrounds hle
      rw [tlvLength_cons, ok_bind, List.take_succ_cons, List.take_succ_cons, List.take_succ_cons,
        tlvs_cons, List.length_take_of_le (by omega)]
      split_ifs with hbreak hfits hfits
      · omega
      · rfl
      · have hread : hdrByte (type :: hi :: lo :: rest) 0 = .ok type := rfl
        have hvalue : hdrBytes (type :: hi :: lo :: rest) 3 (length16 hi lo) =
            .ok (rest.take (length16 hi lo)) := by
          rw [hdrBytes, if_pos (by simp only [List.length_cons]; omega)]
          rfl
        have hdrop : (type :: hi :: lo :: rest).drop (3 + length16 hi lo) =
            rest.drop (length16 hi lo) := by
          rw [← List.drop_drop]
          rfl
        have hsub : sub32 (k + 3) (3 + length16 hi lo) = k - length16 hi lo := by
          rw [sub32_of_le (by omega) hsmall]
          omega
        have ih : ∀ env', subTlvLoop rounds (type :: hi :: lo :: rest) (length16 hi lo)
            (sub32 (k + 3) (3 + length16 hi lo)) env' =
              .ok ((tlvs ((rest.take k).drop (length16 hi lo))).foldl recordSub env') := by
          intro env'
          rw [hsub, subTlvLoop_eq (by rw [hdrop, List.length_drop]; omega)
            (by rw [hdrop, List.length_drop]; omega) (by omega), hdrop, List.drop_take]
        rw [hread, ok_bind, List.take_take, min_eq_left hfits, List.foldl_cons, recordSub]
        cases sslName type with
        | none => exact ih _
        | some name =>
          rw [hvalue]
          exact ih _
      · omega

/-- With a length that has wrapped around it leaves the header. -/
theorem subTlvLoop_outside : ∀ {rounds : ℕ} {p : Bytes} {n subsz : ℕ}
    {env : Option (List (Bytes × Bytes))}, (p.drop (3 + n)).length < rounds →
      2 ^ 17 * ((p.drop (3 + n)).length + 1) ≤ subsz → subsz < 2 ^ 32 →
        subTlvLoop rounds p n subsz env = .error .outside
  | 0, _, _, _, _, h, _, _ => by omega
  | rounds + 1, p, n, subsz, env, hrounds, hle, hsmall => by
    rw [subTlvLoop, if_neg (by omega)]
    generalize p.drop (3 + n) = s at hrounds hle ⊢
    dsimp only
    rcases Nat.lt_or_ge s.length 3 with hshort | hlong
    · rw [tlvLength_outside hshort]
      rfl
    · obtain ⟨type, hi, lo, rest, rfl⟩ := exists_head hlong
      have hlt := length16_lt hi lo
      simp only [List.length_cons] at hrounds hle
      have hread : hdrByte (type :: hi :: lo :: rest) 0 = .ok type := rfl
      have hdrop : (type :: hi :: lo :: rest).drop (3 + length16 hi lo) =
          rest.drop (length16 hi lo) := by
        rw [← List.drop_drop]
        rfl
      have ih : ∀ env', subTlvLoop rounds (type :: hi :: lo :: rest) (length16 hi lo)
          (sub32 subsz (3 + length16 hi lo)) env' = .error .outside := by
        intro env'
        rw [sub32_of_le (by omega) hsmall]
        exact subTlvLoop_outside (by rw [hdrop, List.length_drop]; omega)
          (by rw [hdrop, List.length_drop]; omega) (by omega)
      rw [tlvLength_cons, ok_bind, if_neg (by omega), hread, ok_bind]
      cases sslName type with
      | none => exact ih _
      | some name =>
        rcases hdrBytes_cases (type :: hi :: lo :: rest) 3 (length16 hi lo) with ⟨v, hv⟩ | hv
        · rw [hv]
          exact ih _
        · rw [hv]
          rfl

/-! ## The outer walk -/

theorem sslTlv_eq (con : HapCon) (hfits : length16 hi lo ≤ rest.length)
    (hwhole : 5 ≤ length16 hi lo) :
    sslTlv (type :: hi :: lo :: rest) (length16 hi lo) con =
      .ok (applyTlv con ⟨PP2_TYPE_SSL, rest.take (length16 hi lo)⟩) := by
  have hlt := length16_lt hi lo
  obtain ⟨k, hk⟩ : ∃ k, length16 hi lo = k + 5 := ⟨length16 hi lo - 5, by omega⟩
  obtain ⟨client, tail, rfl⟩ : ∃ c t, rest = c :: t := by
    cases rest with
    | nil => simp at hfits; omega
    | cons c t => exact ⟨c, t, rfl⟩
  simp only [List.length_cons] at hfits
  have hclient : hdrByte (type :: hi :: lo :: client :: tail) 3 = .ok client := rfl
  have hverify : hdrBytes (type :: hi :: lo :: client :: tail) 4 4 = .ok (tail.take 4) := by
    rw [hdrBytes, if_pos (by simp only [List.length_cons]; omega)]
    rfl
  have hsub : sub32 (length16 hi lo) 5 = k := by
    rw [sub32_of_le hwhole (by omega)]
    omega
  have hdrop : (type :: hi :: lo :: client :: tail).drop (3 + 5) = tail.drop 4 := rfl
  have hwalk : ∀ env, subTlvLoop ((type :: hi :: lo :: client :: tail).length + 1)
      (type :: hi :: lo :: client :: tail) 5 (sub32 (length16 hi lo) 5) env =
        .ok ((tlvs ((tail.drop 4).take k)).foldl recordSub env) := by
    intro env
    rw [hsub, subTlvLoop_eq (by rw [hdrop]; simp; omega) (by rw [hdrop]; simp; omega) (by omega),
      hdrop]
  have hvalue : (client :: tail).take (length16 hi lo) = client :: tail.take (k + 4) := by
    rw [hk, List.take_succ_cons]
  have hhead : (tail.take (k + 4)).take 4 = tail.take 4 := by
    rw [List.take_take, min_eq_left (by omega)]
  have hbehind : (client :: tail.take (k + 4)).drop 5 = (tail.drop 4).take k := by
    rw [List.drop_succ_cons, List.drop_take, Nat.add_sub_cancel]
  rw [sslTlv, hclient, ok_bind, hvalue, applyTlv, if_pos rfl]
  simp only [List.getD_cons_zero, List.drop_one, List.tail_cons, hhead, hbehind]
  by_cases hcert : client &&& 6 ≠ 0
  · rw [if_pos hcert, hverify, ok_bind, hwalk]
    by_cases hzero : tail.take 4 = [0, 0, 0, 0]
    · by_cases hssl : client &&& 1 ≠ 0 <;> simp [hcert, hzero, hssl, bind, Except.bind, pure,
        Except.pure]
    · by_cases hssl : client &&& 1 ≠ 0 <;> simp [hcert, hzero, hssl, bind, Except.bind, pure,
        Except.pure]
  · rw [if_neg hcert, ok_bind, hwalk]
    by_cases hssl : client &&& 1 ≠ 0 <;> simp [hcert, hssl, bind, Except.bind, pure, Except.pure]

theorem sslTlv_outside {tlv : Bytes} {len : ℕ} (con : HapCon) (hlen : len < 5)
    (hsize : tlv.length ≤ 1000) : sslTlv tlv len con = .error .outside := by
  have hwalk : ∀ env, subTlvLoop (tlv.length + 1) tlv 5 (sub32 len 5) env = .error .outside := by
    intro env
    have hdrop : (tlv.drop (3 + 5)).length ≤ tlv.length := by simp
    have hsub := sub32_of_lt hlen (by omega)
    exact subTlvLoop_outside (by omega) (by omega) (by omega)
  rw [sslTlv]
  rcases hdrByte_cases tlv 3 with ⟨client, hclient⟩ | hclient
  · rw [hclient, ok_bind]
    rcases hdrBytes_cases tlv 4 4 with ⟨verify, hverify⟩ | hverify
    · simp only [hverify, hwalk]
      split_ifs <;> rfl
    · simp only [hverify, hwalk]
      split_ifs <;> rfl
  · rw [hclient]
    rfl

theorem sslWhole_of_short (h : tlvs s = []) : SslWhole s := by
  rw [SslWhole, h]
  exact fun t ht => absurd ht List.not_mem_nil

theorem sslWhole_cons (hfits : length16 hi lo ≤ rest.length) :
    SslWhole (type :: hi :: lo :: rest) ↔
      (type = PP2_TYPE_SSL → 5 ≤ length16 hi lo) ∧ SslWhole (rest.drop (length16 hi lo)) := by
  rw [SslWhole, tlvs_cons, if_pos hfits, List.forall_mem_cons, List.length_take_of_le hfits]
  rfl

/-- The walk over the vectors behind an address. -/
def walked (s : Bytes) (con : HapCon) : Except HapFault HapCon :=
  if SslWhole s then .ok ((tlvs s).foldl applyTlv con) else .error .outside

theorem walked_of_nil (h : tlvs s = []) (con : HapCon) : walked s con = .ok con := by
  rw [walked, if_pos (sslWhole_of_short h), h]
  rfl

theorem walked_cons (con : HapCon) (hfits : length16 hi lo ≤ rest.length)
    (hwhole : type = PP2_TYPE_SSL → 5 ≤ length16 hi lo) :
    walked (type :: hi :: lo :: rest) con =
      walked (rest.drop (length16 hi lo))
        (applyTlv con ⟨type, rest.take (length16 hi lo)⟩) := by
  rw [walked, walked, tlvs_cons, if_pos hfits, List.foldl_cons]
  by_cases hrest : SslWhole (rest.drop (length16 hi lo))
  · rw [if_pos hrest, if_pos ((sslWhole_cons hfits).mpr ⟨hwhole, hrest⟩)]
  · rw [if_neg hrest, if_neg fun h => hrest ((sslWhole_cons hfits).mp h).2]

theorem tlvLoop_eq : ∀ {rounds : ℕ} {p : Bytes} {len : ℕ} {con : HapCon},
    (p.drop (3 + len)).length < rounds → (p.drop (3 + len)).length ≤ 900 →
      tlvLoop rounds p len (p.drop (3 + len)).length con = walked (p.drop (3 + len)) con
  | 0, _, _, _, h, _ => by omega
  | rounds + 1, p, len, con, hrounds, hsize => by
    rw [tlvLoop]
    generalize p.drop (3 + len) = s at hrounds hsize ⊢
    dsimp only
    rcases Nat.lt_or_ge s.length 3 with hshort | hlong
    · rw [if_pos hshort, walked_of_nil (tlvs_of_short hshort)]
    · rw [if_neg (by omega)]
      obtain ⟨type, hi, lo, rest, rfl⟩ := exists_head hlong
      simp only [List.length_cons] at hrounds hsize
      have hread : hdrByte (type :: hi :: lo :: rest) 0 = .ok type := rfl
      rw [tlvLength_cons, ok_bind, List.length_cons, List.length_cons, List.length_cons]
      by_cases hfits : length16 hi lo ≤ rest.length
      · rw [if_neg (by omega), hread, ok_bind]
        have hdrop : (type :: hi :: lo :: rest).drop (3 + length16 hi lo) =
            rest.drop (length16 hi lo) := by
          rw [← List.drop_drop]
          rfl
        have hsub : sub32 (rest.length + 1 + 1 + 1) (3 + length16 hi lo) =
            (rest.drop (length16 hi lo)).length := by
          rw [sub32_of_le (by omega) (by omega), List.length_drop]
          omega
        have ih : ∀ con', tlvLoop rounds (type :: hi :: lo :: rest) (length16 hi lo)
            (sub32 (rest.length + 1 + 1 + 1) (3 + length16 hi lo)) con' =
              walked (rest.drop (length16 hi lo)) con' := by
          intro con'
          rw [hsub, ← hdrop]
          exact tlvLoop_eq (by rw [hdrop, List.length_drop]; omega)
            (by rw [hdrop, List.length_drop]; omega)
        by_cases hssl : type = PP2_TYPE_SSL
        · rw [if_pos hssl]
          rcases Nat.lt_or_ge (length16 hi lo) 5 with hcut | hwhole
          · have hnot : ¬ SslWhole (type :: hi :: lo :: rest) := fun h => by
              have := ((sslWhole_cons hfits).mp h).1 hssl
              omega
            rw [sslTlv_outside con hcut (by simp only [List.length_cons]; omega), walked,
              if_neg hnot]
            rfl
          · rw [sslTlv_eq con hfits hwhole, ok_bind, ih, walked_cons con hfits fun _ => hwhole, hssl]
        · rw [if_neg hssl, ok_bind, ih, walked_cons con hfits fun h => absurd h hssl, applyTlv,
            if_neg hssl]
      · have hnil : tlvs (type :: hi :: lo :: rest) = [] := by rw [tlvs_cons, if_neg hfits]
        rw [if_pos (by omega), walked_of_nil hnil]

/-- Behind an address that was not declared whole the first read is outside the header. -/
theorem tlvLoop_outside {rounds : ℕ} {p : Bytes} {len sz : ℕ} {con : HapCon} (hsz : 3 ≤ sz)
    (hend : p.drop (3 + len) = []) : tlvLoop (rounds + 1) p len sz con = .error .outside := by
  rw [tlvLoop, if_neg (by omega), hend]
  rfl

/-! ## The header -/

/-- A header of version 2 with as many bytes as it declares. -/
structure HapHeader (hdr : Bytes) : Prop where
  length : hdr.length = hapV2Size hdr
  short : hdr.length ≤ 232

theorem hapTlvs_eq (h : HapHeader hdr) {size : ℕ} (hsize : 3 ≤ size) (hlarge : size ≤ 216)
    (con : HapCon) :
    hapTlvs hdr (hdr.length - 16) size con =
      if 16 + size ≤ hdr.length then
        (walked (hdr.drop (16 + size)) con).map fun con' => (0, con')
      else .error .outside := by
  have hdrop : (hdr.drop 16).drop (3 + (size - 3)) = hdr.drop (16 + size) := by
    rw [List.drop_drop]
    congr 1
    omega
  have hshort := h.short
  rw [hapTlvs]
  split_ifs with hwhole
  · have hsub : sub32 (hdr.length - 16) size = (hdr.drop (16 + size)).length := by
      rw [sub32_of_le (by omega) (by omega), List.length_drop]
      omega
    rw [hsub, ← hdrop, tlvLoop_eq (by rw [hdrop, List.length_drop]; omega)
      (by rw [hdrop, List.length_drop]; omega)]
    cases walked ((hdr.drop 16).drop (3 + (size - 3))) con <;> rfl
  · rw [tlvLoop_outside]
    · rfl
    · rw [sub32_of_lt (by omega) (by omega)]
      omega
    · rw [hdrop, List.drop_eq_nil_iff]
      omega

/-- The size of the address of a family. -/
def hapAddrSize (fam : UInt8) : Option ℕ :=
  if fam = 0x11 then some 12
  else if fam = 0x21 then some 36
  else if fam = 0x31 then some 216
  else none

/-- The size of the address that a header has: its command is PROXY and its family one of the
three. -/
def hapAddr (hdr : Bytes) : Option ℕ :=
  if hdr.getD 12 0 &&& 0xF = 1 then hapAddrSize (hdr.getD 13 0) else none

/-- The path of a UNIX address does not end within its 108 bytes. -/
def PathUnended (hdr : Bytes) : Prop := hdr.getD 13 0 = 0x31 ∧ 0 ∉ (hdr.drop 16).take 108

instance : DecidablePred PathUnended := fun _ => inferInstanceAs (Decidable (_ ∧ _))

/-- The header is too short for the address of its family, or for one of its SSL vectors. -/
def HapTooShort (hdr : Bytes) : Prop :=
  ∃ size, hapAddr hdr = some size ∧
    (hdr.length < 16 + size ∨ ¬ SslWhole (hdr.drop (16 + size)))

/-- The vectors inside the SSL vectors of a header whose address is read. -/
def hapVectors (hdr : Bytes) : List Tlv :=
  match hapAddr hdr with
  | some size =>
    if 16 + size ≤ hdr.length ∧ ¬ PathUnended hdr then
      (tlvs (hdr.drop (16 + size))).flatMap innerTlvs
    else []
  | none => []

/-- The header is read within the bytes it declares, its SSL vectors are recorded, and a header that
is too short changes neither the address nor the environment. -/
def HapSafe (lib : AddrLib) (hdr : Bytes) (con : HapCon) : Prop :=
  ∃ rc con', modExtforwardHapProxyV2 lib hdr con = .ok (rc, con') ∧
    con'.env = (hapVectors hdr).foldl recordSub con.env ∧
    (HapTooShort hdr → con'.dstAddr = con.dstAddr ∧ con'.dstAddrBuf = con.dstAddrBuf ∧
      con'.env = con.env)

/-- The address and the SSL vectors are whole, or a path is, and does not end. -/
def HapWhole (hdr : Bytes) : Prop :=
  ∀ size, hapAddr hdr = some size →
    (16 + size ≤ hdr.length ∧ SslWhole (hdr.drop (16 + size))) ∨
    (124 ≤ hdr.length ∧ PathUnended hdr)

theorem hapTlvs_cases (h : HapHeader hdr) {size : ℕ} (hsize : 3 ≤ size) (hlarge : size ≤ 216)
    (con : HapCon) :
    (16 + size ≤ hdr.length ∧ SslWhole (hdr.drop (16 + size)) ∧
      hapTlvs hdr (hdr.length - 16) size con =
        .ok (0, (tlvs (hdr.drop (16 + size))).foldl applyTlv con)) ∨
    ((hdr.length < 16 + size ∨ ¬ SslWhole (hdr.drop (16 + size))) ∧
      hapTlvs hdr (hdr.length - 16) size con = .error .outside) := by
  rw [hapTlvs_eq h hsize hlarge, walked]
  split_ifs with hwhole hssl
  · exact .inl ⟨hwhole, hssl, rfl⟩
  · exact .inr ⟨.inr hssl, rfl⟩
  · exact .inr ⟨.inl (by omega), rfl⟩

theorem HapHeader.byte (h : HapHeader hdr) {i : ℕ} (hi : i < 16) :
    hdrByte hdr i = .ok (hdr.getD i 0) := by
  have hlen : i < hdr.length := by
    rw [h.length, hapV2Size]
    omega
  rw [hdrByte, List.getD_eq_getElem?_getD, List.getElem?_eq_getElem hlen]
  rfl

theorem hdrBytes_eq {p : Bytes} {i n : ℕ} : hdrBytes p i n =
    if i + n ≤ p.length then .ok ((p.drop i).take n) else .error .outside := rfl

theorem zeroAt_cases (hdr : Bytes) :
    (0 ∈ (hdr.drop 16).take 108 ∧ ∃ path, zeroAt (hdr.drop 16) 108 = .ok (some path)) ∨
    (0 ∉ (hdr.drop 16).take 108 ∧
      zeroAt (hdr.drop 16) 108 = if 124 ≤ hdr.length then .ok none else .error .outside) := by
  unfold zeroAt
  generalize (hdr.drop 16).take 108 = s
  by_cases hzero : (0 : UInt8) ∈ s
  · refine .inl ⟨hzero, s.takeWhile (· ≠ 0), if_pos ?_⟩
    have hne : s.takeWhile (· ≠ 0) ≠ s := fun heq => by
      have hmem := List.takeWhile_eq_self_iff.mp heq 0 hzero
      simp at hmem
    exact lt_of_le_of_ne (List.takeWhile_prefix _).length_le fun heq =>
      hne ((List.takeWhile_prefix _).eq_of_length heq)
  · refine .inr ⟨hzero, ?_⟩
    have hall : s.takeWhile (· ≠ 0) = s :=
      List.takeWhile_eq_self_iff.mpr fun c hc => by
        simp only [ne_eq, decide_eq_true_eq]
        rintro rfl
        exact hzero hc
    rw [hall]
    simp only [lt_irrefl, if_false, List.length_drop]
    split_ifs <;> first | rfl | omega

/-- How a run ends: nothing is read behind the family, or the path does not end, or the vectors
behind an address are walked over, or the address is cut off. -/
theorem modExtforwardHapProxyV2_cases (lib : AddrLib) (h : HapHeader hdr) (con : HapCon) :
    (hapAddr hdr = none ∧ ∃ rc, modExtforwardHapProxyV2 lib hdr con = .ok (rc, con)) ∨
    ∃ size, hapAddr hdr = some size ∧ 12 ≤ size ∧ size ≤ 216 ∧
      ((PathUnended hdr ∧ size = 216 ∧ modExtforwardHapProxyV2 lib hdr con =
          if 124 ≤ hdr.length then .ok (-1, con) else .error .outside) ∨
        (¬ PathUnended hdr ∧ ((∃ con', con'.env = con.env ∧
            modExtforwardHapProxyV2 lib hdr con = hapTlvs hdr (hdr.length - 16) size con') ∨
          (hdr.length < 16 + size ∧ modExtforwardHapProxyV2 lib hdr con = .error .outside)))) := by
  have hsz : length16 (hdr.getD 14 0) (hdr.getD 15 0) = hdr.length - 16 := by
    rw [h.length, hapV2Size]
    omega
  rw [modExtforwardHapProxyV2, h.byte (by omega), ok_bind, h.byte (by omega), ok_bind,
    h.byte (by omega), ok_bind, hsz, hapAddr]
  by_cases hcmd : hdr.getD 12 0 &&& 0xF = 1
  · rw [if_pos hcmd, if_pos hcmd, h.byte (by omega), ok_bind, hapAddrSize, PathUnended]
    generalize hdr.getD 13 0 = fam
    by_cases h4 : fam = 0x11
    · have hpath : ¬ (fam = 0x31 ∧ 0 ∉ (hdr.drop 16).take 108) := fun hp => by
        rw [h4] at hp
        exact absurd hp.1 (by decide)
      rw [if_pos h4, if_pos h4]
      refine .inr ⟨12, rfl, by omega, by omega, .inr ⟨hpath, ?_⟩⟩
      rw [hdrBytes_eq, hdrBytes_eq]
      by_cases hread : 24 + 2 ≤ hdr.length
      · rw [if_pos hread, if_pos (by omega), ok_bind, ok_bind]
        refine .inl ⟨_, ?_, rfl⟩
        rfl
      · refine .inr ⟨by omega, ?_⟩
        rw [if_neg hread]
        split_ifs <;> rfl
    rw [if_neg h4, if_neg h4]
    by_cases h6 : fam = 0x21
    · have hpath : ¬ (fam = 0x31 ∧ 0 ∉ (hdr.drop 16).take 108) := fun hp => by
        rw [h6] at hp
        exact absurd hp.1 (by decide)
      rw [if_pos h6, if_pos h6]
      refine .inr ⟨36, rfl, by omega, by omega, .inr ⟨hpath, ?_⟩⟩
      rw [hdrBytes_eq, hdrBytes_eq]
      by_cases hread : 48 + 2 ≤ hdr.length
      · rw [if_pos hread, if_pos (by omega), ok_bind, ok_bind]
        refine .inl ⟨_, ?_, rfl⟩
        rfl
      · refine .inr ⟨by omega, ?_⟩
        rw [if_neg hread]
        split_ifs <;> rfl
    rw [if_neg h6, if_neg h6]
    by_cases hunix : fam = 0x31
    · rw [if_pos hunix, if_pos hunix]
      refine .inr ⟨216, rfl, by omega, by omega, ?_⟩
      rcases zeroAt_cases hdr with ⟨hzero, path, hpath⟩ | ⟨hzero, hpath⟩
      · refine .inr ⟨fun hp => hp.2 hzero, .inl ?_⟩
        rw [hpath, ok_bind]
        refine ⟨_, ?_, rfl⟩
        rfl
      · refine .inl ⟨⟨hunix, hzero⟩, rfl, ?_⟩
        rw [hpath]
        split_ifs <;> rfl
    · rw [if_neg hunix, if_neg hunix]
      exact .inl ⟨rfl, 0, rfl⟩
  · rw [if_neg hcmd, if_neg hcmd]
    by_cases hlocal : hdr.getD 12 0 &&& 0xF = 0
    · rw [if_pos hlocal]
      exact .inl ⟨rfl, 0, rfl⟩
    · rw [if_neg hlocal]
      exact .inl ⟨rfl, -1, rfl⟩

theorem hapSafe_iff (lib : AddrLib) (h : HapHeader hdr) (con : HapCon) :
    HapSafe lib hdr con ↔ HapWhole hdr := by
  unfold HapSafe HapWhole HapTooShort hapVectors
  rcases modExtforwardHapProxyV2_cases lib h con with
    ⟨hnone, rc, hrun⟩ | ⟨size, haddr, hge, hle, hcase⟩
  · simp only [hnone, hrun, reduceCtorEq, false_and, exists_false, false_imp_iff, implies_true,
      iff_true]
    exact ⟨rc, con, rfl, rfl, trivial⟩
  · simp only [haddr, Option.some.injEq, exists_eq_left', forall_eq']
    rcases hcase with ⟨hpath, rfl, hrun⟩ | ⟨hpath, ⟨con', henv, hrun⟩ | ⟨hcut, hrun⟩⟩
    · rw [hrun]
      by_cases hlong : 124 ≤ hdr.length
      · simp [hlong, hpath]
      · simp [hlong]
        omega
    · rw [hrun]
      rcases hapTlvs_cases h (by omega) hle con' with ⟨hwhole, hssl, hres⟩ | ⟨hcut, hres⟩
      · rw [hres]
        have hfold := foldl_applyTlv_env (tlvs (hdr.drop (16 + size))) con'
        refine iff_of_true ⟨0, _, rfl, ?_, fun hshort => ?_⟩ (.inl ⟨hwhole, hssl⟩)
        · rw [hfold, henv, if_pos ⟨hwhole, hpath⟩]
        · rcases hshort with hshort | hshort
          · omega
          · exact absurd hssl hshort
      · rw [hres]
        refine iff_of_false ?_ ?_
        · rintro ⟨rc, con'', heq, -⟩
          cases heq
        · rintro (⟨hwhole, hssl⟩ | ⟨-, hp⟩)
          · rcases hcut with hcut | hcut
            · omega
            · exact hcut hssl
          · exact hpath hp
    · rw [hrun]
      refine iff_of_false ?_ ?_
      · rintro ⟨rc, con'', heq, -⟩
        cases heq
      · rintro (⟨hwhole, -⟩ | ⟨-, hp⟩)
        · omega
        · exact hpath hp

theorem hapConsume_ne {consume : RecvCall} {sz : ℕ} : hapConsume consume 1 sz ≠ 2 := by
  unfold hapConsume
  cases consume with
  | bytes s =>
    dsimp only
    split_ifs <;> decide
  | again =>
    show (-1 : ℤ) ≠ 2
    decide
  | failed =>
    show (-1 : ℤ) ≠ 2
    decide

/-- What `hap_PROXY_recv` accepts as version 2 are whole headers. -/
theorem hapHeader_of_recv {consume : RecvCall} (hlen : s.length ≤ 232)
    (h : hapProxyRecv (.bytes s) consume = 2) : HapHeader (s.take (hapV2Size s)) := by
  have hwhole : hapV2Size s ≤ s.length := by
    rw [hapProxyRecv] at h
    split_ifs at h with hsig hcut hcmd hline
    · omega
    · cases hend : memchr (s.take (s.length - 1)) CR with
      | none => simp [hend] at h
      | some i =>
        simp only [hend] at h
        split_ifs at h
        exact absurd h hapConsume_ne
  have hsize : 16 ≤ hapV2Size s := Nat.le_add_right 16 _
  have hget : ∀ i < 16, (s.take (hapV2Size s)).getD i 0 = s.getD i 0 := fun i hi => by
    rw [List.getD_eq_getElem?_getD, List.getD_eq_getElem?_getD,
      List.getElem?_take_of_lt (by omega)]
  refine ⟨?_, by rw [List.length_take]; omega⟩
  rw [List.length_take_of_le hwhole]
  show hapV2Size s = 16 + length16 ((s.take (hapV2Size s)).getD 14 0)
    ((s.take (hapV2Size s)).getD 15 0)
  rw [hget 14 (by omega), hget 15 (by omega)]
  rfl

/-- A header for TCP over IPv4 that declares `n` bytes, and has them. -/
def tcp4Header (n : UInt8) : Bytes :=
  hapV2Sig ++ [0x21, 0x11, 0, n] ++ List.replicate n.toNat 1

/-- A connection before the header is read. -/
def hapConInit : HapCon where
  dstAddr := .inet 0x7f000001#32 4711
  dstAddrBuf := str "127.0.0.1"
  proto := str "http"
  sslClientVerify := false
  env := none

end Lighttpd
