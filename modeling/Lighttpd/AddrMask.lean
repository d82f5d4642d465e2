import Lighttpd.ConfigCond
import Lighttpd.HostNormal
import Lighttpd.Lib.LeadingBits

/-!
# Networks of addresses

Every address is taken as the 128 bits it stands for, an IPv4 address as its `::ffff:0:0/96`
mapping. `sock_addr_is_addr_eq_bits` compares as many of them as the mask length of its first
address says, but an IPv6 address that maps no IPv4 address is never compared with an IPv4 one, and
only for IPv4 does the mask length 0 stand for all bits.
-/

namespace Lighttpd

open CString LeadingBits

/-- The bits of an address of the family. -/
def SockAddr.width : SockAddr → ℕ
  | .inet _ _ => 32
  | .inet6 _ _ => 128
  | .unix _ => 0

/-- The bits of `::ffff:0:0/96`. -/
def mappedBits : List Bool := List.replicate 80 false ++ List.replicate 16 true

/-- The 128 bits that an address stands for. -/
def SockAddr.bits : SockAddr → Option (List Bool)
  | .inet x _ => some (mappedBits ++ msb 32 x.toNat)
  | .inet6 x _ => some (bytesBits x.toList)
  | .unix _ => none

/-- How many of these a mask length of the address covers: 0 stands for all. -/
def SockAddr.covered (a : SockAddr) (bits : ℕ) : ℕ :=
  128 - a.width + if bits = 0 then a.width else min bits a.width

/-- The two addresses agree in the bits that the mask length covers. -/
def FirstBitsAgree (a b : SockAddr) (bits : ℕ) : Prop :=
  ∃ l m, a.bits = some l ∧ b.bits = some m ∧ l.take (a.covered bits) = m.take (a.covered bits)

/-- An IPv6 address that maps no IPv4 address, in front of an IPv4 one. -/
def UnmappedPair : SockAddr → SockAddr → Prop
  | .inet6 x _, .inet _ _ => isV4Mapped x = false
  | _, _ => False

variable {n bits : ℕ}

theorem inetMask_getLsbD (hpos : 0 < n) (hn : n ≤ 32) (i : ℕ) (hi : i < 32) :
    (~~~((1#32 <<< (32 - n)) - 1)).getLsbD i = decide (32 - n ≤ i) := by
  have hlt : 2 ^ (32 - n) < 2 ^ 32 := Nat.pow_lt_pow_right (by omega) (by omega)
  have hpow : (1#32 <<< (32 - n)).toNat = 2 ^ (32 - n) := by
    rw [BitVec.toNat_shiftLeft, Nat.shiftLeft_eq, BitVec.toNat_ofNat]
    norm_num at hlt ⊢
    omega
  have hone : 1 ≤ 2 ^ (32 - n) := Nat.one_le_two_pow
  have hlow : ((1#32 <<< (32 - n)) - 1).toNat = 2 ^ (32 - n) - 1 := by
    rw [BitVec.toNat_sub_of_le (by rw [BitVec.le_def, hpow]; exact hone), hpow]
    rfl
  rw [BitVec.getLsbD_not, ← BitVec.testBit_toNat, hlow, Nat.testBit_two_pow_sub_one]
  by_cases hle : 32 - n ≤ i
  · simp [hi, hle, show ¬ i < 32 - n by omega]
  · simp [hi, hle, show i < 32 - n by omega]

theorem inet6Mask_getLsbD (hn : n ≤ 32) (i : ℕ) (hi : i < 32) :
    (~~~(BitVec.allOnes 32 >>> n)).getLsbD i = decide (32 - n ≤ i) := by
  rw [BitVec.getLsbD_not, BitVec.getLsbD_ushiftRight, BitVec.getLsbD_allOnes]
  by_cases hlow : 32 - n ≤ i
  · simp [hi, hlow, show ¬ n + i < 32 by omega]
  · simp [hi, hlow, show n + i < 32 by omega]

theorem mappedBits_eq : bytesBits (List.replicate 10 0 ++ [255, 255]) = mappedBits := by decide

theorem length_mappedBits : mappedBits.length = 96 := by simp [mappedBits]

theorem isV4Mapped_iff (x : Vector UInt8 16) :
    isV4Mapped x = true ↔ bytesBits (x.toList.take 12) = mappedBits := by
  rw [isV4Mapped, decide_eq_true_iff, ← mappedBits_eq]
  exact (bytesBits_inj (by simp)).symm

theorem bytesBits_v4Part (x : Vector UInt8 16) :
    bytesBits x.toList = bytesBits (x.toList.take 12) ++ msb 32 (v4Part x).toNat := by
  have hlen : (x.toList.drop 12).length = 4 := by simp
  have hspell := msb_foldl (x.toList.drop 12) 0 0
  rw [hlen, Nat.zero_add] at hspell
  rw [v4Part, BitVec.toNat_ofNat, msb_mod, hspell, msb_zero, List.nil_append, ← bytesBits_append,
    List.take_append_drop]

theorem addrEqBitsLoop_iff : ∀ {cs ds : Bytes} {bits : ℕ}, cs.length = ds.length → 0 < bits →
    bits ≤ 8 * cs.length →
      (addrEqBitsLoop bits cs ds = true ↔ (bytesBits cs).take bits = (bytesBits ds).take bits)
  | [], _, bits, _, hpos, hle => by simp at hle; omega
  | _ :: _, [], _, hlen, _, _ => by simp at hlen
  | c :: cs, d :: ds, bits, hlen, hpos, hle => by
    have hlen' : cs.length = ds.length := by simpa using hlen
    rw [List.length_cons] at hle
    rcases Nat.lt_or_ge 8 bits with hmore | hlast
    · obtain ⟨k, rfl⟩ : ∃ k, bits = 8 + k := ⟨bits - 8, by omega⟩
      have ih := @addrEqBitsLoop_iff cs ds k hlen' (by omega) (by omega)
      rw [take_bytesBits_cons, ← ih]
      simp only [addrEqBitsLoop, if_pos (show 8 ≤ 8 + k by omega), hmore, and_true,
        Nat.add_sub_cancel_left]
      by_cases hcd : c = d <;> simp [hcd]
    · rw [take_bytesBits_of_le hlast]
      rcases hlast.lt_or_eq with hlt | rfl
      · simp [addrEqBitsLoop, hlt.not_ge, hlast.not_gt]
      · simp [addrEqBitsLoop, UInt8.toNat_inj]

/-! ## The comparison -/

theorem take_bits_eq {u v s t : List Bool} {k : ℕ} (hu : u.length = k) (hv : v.length = k) :
    (u ++ s).take (k + n) = (v ++ t).take (k + n) ↔ u = v ∧ s.take n = t.take n := by
  have htake : ∀ {w r : List Bool}, w.length = k → (w ++ r).take (k + n) = w ++ r.take n := by
    rintro w r rfl
    rw [List.take_length_add_append]
  rw [htake hu, htake hv, append_eq_append (hu.trans hv.symm)]

theorem firstBitsAgree_iff {a b : SockAddr} {l m : List Bool} (ha : a.bits = some l)
    (hb : b.bits = some m) (bits : ℕ) :
    FirstBitsAgree a b bits ↔ l.take (a.covered bits) = m.take (a.covered bits) := by
  refine ⟨?_, fun h => ⟨l, m, ha, hb, h⟩⟩
  rintro ⟨l', m', ha', hb', h⟩
  obtain rfl := Option.some.inj (ha.symm.trans ha')
  obtain rfl := Option.some.inj (hb.symm.trans hb')
  exact h

/-- The mask length of an IPv4 address, with 0 for all. -/
def inetBits (bits : ℕ) : ℕ := if min bits 32 ≠ 0 then min bits 32 else 32

theorem inetBits_le (bits : ℕ) : 0 < inetBits bits ∧ inetBits bits ≤ 32 := by
  unfold inetBits
  split_ifs <;> omega

theorem covered_inet (x : BitVec 32) (p bits : ℕ) :
    (SockAddr.inet x p).covered bits = 96 + inetBits bits := by
  simp only [SockAddr.covered, SockAddr.width, inetBits]
  split_ifs <;> omega

theorem covered_inet6 (x : Vector UInt8 16) (p : ℕ) (h : bits ≠ 0) :
    (SockAddr.inet6 x p).covered bits = min bits 128 := by
  simp [SockAddr.covered, SockAddr.width, h]

theorem inet_inet (x y : BitVec 32) (p q bits : ℕ) :
    sockAddrIsAddrEqBits (.inet x p) (.inet y q) bits = true ↔
      FirstBitsAgree (.inet x p) (.inet y q) bits := by
  obtain ⟨hpos, hle⟩ := inetBits_le bits
  rw [firstBitsAgree_iff rfl rfl, covered_inet,
    take_bits_eq length_mappedBits length_mappedBits,
    ← and_mask_eq_iff hle (inetMask_getLsbD hpos hle)]
  simp [sockAddrIsAddrEqBits, inetBits]

theorem inet_inet6 (x : BitVec 32) (y : Vector UInt8 16) (p q bits : ℕ) :
    sockAddrIsAddrEqBits (.inet x p) (.inet6 y q) bits = true ↔
      FirstBitsAgree (.inet x p) (.inet6 y q) bits := by
  obtain ⟨hpos, hle⟩ := inetBits_le bits
  have hfirst : (bytesBits (y.toList.take 12)).length = 96 := by simp
  rw [firstBitsAgree_iff rfl rfl, covered_inet, bytesBits_v4Part y,
    take_bits_eq length_mappedBits hfirst, @eq_comm _ mappedBits, ← isV4Mapped_iff,
    ← and_mask_eq_iff hle (inetMask_getLsbD hpos hle)]
  simp [sockAddrIsAddrEqBits, inetBits]

theorem inet6_inet6 (x y : Vector UInt8 16) (p q : ℕ) (h : bits ≠ 0) :
    sockAddrIsAddrEqBits (.inet6 x p) (.inet6 y q) bits = true ↔
      FirstBitsAgree (.inet6 x p) (.inet6 y q) bits := by
  rw [firstBitsAgree_iff rfl rfl, covered_inet6 x p h,
    ← addrEqBitsLoop_iff (by simp) (by omega) (by simp)]
  rfl

theorem inet6_mask_iff (x y : BitVec 32) (bits : ℕ) :
    (let nm : BitVec 32 :=
      if bits < 128 then ~~~(BitVec.allOnes 32 >>> (if 96 < bits then bits - 96 else 0))
      else BitVec.allOnes 32
    x &&& nm = y &&& nm) ↔
      (msb 32 x.toNat).take (min bits 128 - 96) = (msb 32 y.toNat).take (min bits 128 - 96) := by
  refine and_mask_eq_iff (by omega) fun i hi => ?_
  split_ifs with hshort hlow
  · rw [inet6Mask_getLsbD (by omega) i hi]
    congr 2
    omega
  · rw [inet6Mask_getLsbD (by omega) i hi]
    congr 2
    omega
  · rw [BitVec.getLsbD_allOnes]
    simp [hi, show 32 - (min bits 128 - 96) ≤ i by omega]

theorem inet6_inet (x : Vector UInt8 16) (y : BitVec 32) (p q : ℕ) (h : bits ≠ 0) :
    sockAddrIsAddrEqBits (.inet6 x p) (.inet y q) bits = true ↔
      FirstBitsAgree (.inet6 x p) (.inet y q) bits ∧ isV4Mapped x = true := by
  by_cases hmapped : isV4Mapped x = true
  · have hmask := inet6_mask_iff (v4Part x) y bits
    have hx := bytesBits_v4Part x
    rw [(isV4Mapped_iff x).mp hmapped] at hx
    rw [firstBitsAgree_iff rfl rfl, covered_inet6 x p h, hx, List.take_append, List.take_append,
      length_mappedBits, List.append_cancel_left_eq, ← hmask]
    simp only [sockAddrIsAddrEqBits, hmapped, Bool.true_and, and_true, decide_eq_true_eq]
    rcases Nat.lt_or_ge bits 128 with hlt | hge
    · rw [min_eq_left hlt.le]
    · simp [min_eq_right hge, hge.not_gt]
  · simp [sockAddrIsAddrEqBits, hmapped]

/-- The comparison is exact, but for the unmapped pairs, and for IPv6 with a mask length of 0. -/
theorem sockAddrIsAddrEqBits_iff {a b : SockAddr} (h : a.width = 128 → bits ≠ 0) :
    sockAddrIsAddrEqBits a b bits = true ↔ FirstBitsAgree a b bits ∧ ¬ UnmappedPair a b := by
  cases a with
  | inet x p =>
    cases b with
    | inet y q => simp [inet_inet, UnmappedPair]
    | inet6 y q => simp [inet_inet6, UnmappedPair]
    | unix s => simp [sockAddrIsAddrEqBits, FirstBitsAgree, SockAddr.bits]
  | inet6 x p =>
    cases b with
    | inet y q => simp [inet6_inet x y p q (h rfl), UnmappedPair]
    | inet6 y q => simp [inet6_inet6 x y p q (h rfl), UnmappedPair]
    | unix s => simp [sockAddrIsAddrEqBits, FirstBitsAgree, SockAddr.bits]
  | unix s => simp [sockAddrIsAddrEqBits, FirstBitsAgree, SockAddr.bits]

/-! ## Networks in conditions -/

section Condition

variable (env : CondEnv)

/-- The address that a string names, in either family. -/
def networkAddr (s : Bytes) : Option SockAddr :=
  ((env.inetAton s).map (SockAddr.inet · 0)).or ((env.inetPton6 s).map (SockAddr.inet6 · 0))

/-- `net/bits` with an address of fewer than 64 bytes and a decimal mask length that it can have. -/
structure NetworkText (string : Bytes) (addr : SockAddr) (bits : ℕ) : Prop where
  parts : ∃ net text, string = net ++ 47 :: text ∧ 47 ∉ net ∧ 0 ∉ net ∧ net.length < 64 ∧
    networkAddr env net = some addr ∧ IsDecimal text ∧ ofDigits 10 text = bits
  pos : 0 < bits
  le_width : bits ≤ addr.width

/-- The address lies in the network, and is of a family that is compared with it. -/
def InNetwork (addr : SockAddr) (bits : ℕ) (rmt : SockAddr) : Prop :=
  FirstBitsAgree addr rmt bits ∧ ¬ UnmappedPair addr rmt

theorem sockAddr_width_le (addr : SockAddr) : addr.width ≤ 128 := by
  cases addr <;> simp [SockAddr.width]

variable {addr : SockAddr}

theorem configAddrstrEqRemoteIpMask_eq {net : Bytes} (haddr : networkAddr env net = some addr)
    (hle : bits ≤ addr.width) (rmt : SockAddr) :
    configAddrstrEqRemoteIpMask env net bits rmt =
      if sockAddrIsAddrEqBits addr rmt bits then 1 else 0 := by
  rw [networkAddr] at haddr
  rw [configAddrstrEqRemoteIpMask]
  cases hinet : env.inetAton net with
  | some x =>
    obtain rfl : SockAddr.inet x 0 = addr := by simpa [hinet] using haddr
    have hfits : ¬ (bits : ℤ) > 32 := by simp only [SockAddr.width] at hle; omega
    simp [hfits]
  | none =>
    cases hinet6 : env.inetPton6 net with
    | some x =>
      obtain rfl : SockAddr.inet6 x 0 = addr := by simpa [hinet, hinet6] using haddr
      have hfits : ¬ (bits : ℤ) > 128 := by simp only [SockAddr.width] at hle; omega
      simp [hfits]
    | none => simp [hinet, hinet6] at haddr

theorem configAddrbufEqRemoteIpMask_eq {net text : Bytes} (hlen : net.length < 64)
    (haddr : networkAddr env net = some addr) (htext : IsDecimal text)
    (hbits : ofDigits 10 text = bits) (hpos : 0 < bits) (hle : bits ≤ addr.width) (rmt : SockAddr) :
    configAddrbufEqRemoteIpMask env (net ++ 47 :: text) net.length rmt =
      if sockAddrIsAddrEqBits addr rmt bits then 1 else 0 := by
  have hwidth := sockAddr_width_le addr
  have hsat : saturate64 (bits : ℤ) = bits := saturate64_of_lt (by omega)
  have hint : toInt32 (bits : ℤ) = bits := by
    rw [toInt32, Int.bmod_eq_of_le] <;> omega
  have hbehind : (net ++ 47 :: text).drop (net.length + 1) = text := by simp
  have hend : (net ++ 47 :: text).drop (net.length + 1 + text.length) = [] := by
    rw [List.drop_eq_nil_iff]
    simp
    omega
  simp only [configAddrbufEqRemoteIpMask, hbehind, strtol_of_isDecimal htext, hbits, hsat, hint,
    hend]
  rw [if_neg (by simp), if_neg (by omega), if_neg (by omega), List.take_left,
    configAddrstrEqRemoteIpMask_eq env haddr hle]

/-- A condition with a network asks for the comparison with it. -/
theorem remoteIpSubject_network {a : ConAttrs} {string : Bytes}
    (h : NetworkText env string addr bits) :
    (remoteIpSubject env a .eq string =
      .result (if sockAddrIsAddrEqBits addr a.dstAddr bits then .true else .false)) ∧
    (remoteIpSubject env a .ne string =
      .result (if sockAddrIsAddrEqBits addr a.dstAddr bits then .false else .true)) := by
  obtain ⟨net, text, rfl, hslash, hnul, hlen, haddr, htext, hbits⟩ := h.parts
  have hfind : strchr (net ++ 47 :: text) 47 = some net.length :=
    strchr_append_cons hslash hnul (by decide) text
  have hcompare := configAddrbufEqRemoteIpMask_eq env hlen haddr htext hbits h.pos h.le_width
    a.dstAddr
  simp only [remoteIpSubject, hfind, hcompare]
  cases sockAddrIsAddrEqBits addr a.dstAddr bits <;> simp

end Condition

/-- The comparison is exact wherever the families are comparable, and a condition on a network
holds for exactly the addresses in it. -/
theorem addrMask_exact :
    (∀ (a b : SockAddr) (bits : ℕ), (a.width = 128 → bits ≠ 0) →
      (sockAddrIsAddrEqBits a b bits = true ↔ FirstBitsAgree a b bits ∧ ¬ UnmappedPair a b)) ∧
    ∀ (env : CondEnv) (con : ConAttrs) (string : Bytes) (addr : SockAddr) (bits : ℕ),
      NetworkText env string addr bits →
        (remoteIpSubject env con .eq string = .result .true ↔ InNetwork addr bits con.dstAddr) ∧
        (remoteIpSubject env con .ne string = .result .true ↔
          ¬ InNetwork addr bits con.dstAddr) := by
  refine ⟨fun a b bits h => sockAddrIsAddrEqBits_iff h, fun env con string addr bits h => ?_⟩
  obtain ⟨heq, hne⟩ := remoteIpSubject_network (a := con) env h
  have hmask : sockAddrIsAddrEqBits addr con.dstAddr bits = true ↔
      InNetwork addr bits con.dstAddr := sockAddrIsAddrEqBits_iff fun _ => h.pos.ne'
  rw [heq, hne, ← hmask]
  cases sockAddrIsAddrEqBits addr con.dstAddr bits <;> simp

/-- The address functions on one IPv4 address. -/
def privateLib : CondEnv where
  inetAton s := if s = str "10.0.0.0" then some 167772160#32 else none
  inetPton6 _ := none
  inetNtop4 _ := str "10.0.0.0"
  inetNtop6 _ := []
  pcreExec _ _ := (-1, [])

/-- A connection from 10.1.2.3. -/
def privateCon : ConAttrs where
  srvToken := none
  serverPort := 80
  path := none
  authority := none
  dstAddr := .inet 167838211#32 4711
  dstAddrBuf := some (str "10.1.2.3")
  query := none
  scheme := none
  httpMethod := str "GET"
  headers := []
  conditionalIsValid _ := true

theorem privateNetwork : NetworkText privateLib (str "10.0.0.0/8") (.inet 167772160#32 0) 8 where
  parts := ⟨str "10.0.0.0", str "8", by decide, by decide, by decide, by decide, by decide,
    ⟨by decide, List.all_eq_true.mp (by decide)⟩, by decide⟩
  pos := by decide
  le_width := by decide

theorem addrMask_exact_private :
    (sockAddrIsAddrEqBits (.inet 167772160#32 0) privateCon.dstAddr 8 = true ↔
      FirstBitsAgree (.inet 167772160#32 0) privateCon.dstAddr 8 ∧
        ¬ UnmappedPair (.inet 167772160#32 0) privateCon.dstAddr) ∧
    (remoteIpSubject privateLib privateCon .eq (str "10.0.0.0/8") = .result .true ↔
      InNetwork (.inet 167772160#32 0) 8 privateCon.dstAddr) :=
  ⟨addrMask_exact.1 _ _ 8 (fun _ => by decide),
    (addrMask_exact.2 privateLib privateCon _ _ 8 privateNetwork).1⟩

/-- The network `::/64` holds the mapping of 1.2.3.4, but is not compared with it. -/
theorem not_mask_of_unmapped :
    ¬ ∀ (a b : SockAddr) (bits : ℕ),
      sockAddrIsAddrEqBits a b bits = true ↔ FirstBitsAgree a b bits := by
  intro h
  have hagree : FirstBitsAgree (.inet6 (Vector.replicate 16 0) 0) (.inet 16909060#32 0) 64 :=
    ⟨_, _, rfl, rfl, by decide⟩
  have hmatch := (h (.inet6 (Vector.replicate 16 0) 0) (.inet 16909060#32 0) 64).mpr hagree
  revert hmatch
  decide

end Lighttpd
