import Mathlib.Data.List.Basic
import Lighttpd.Lib.CString

/-!
# Leading bits

Numbers of a fixed width as lists of bits, the most significant one first. Two numbers agree in
their first `k` bits if they agree behind a shift that drops the others (`take_msb_eq_iff`), or
under a mask of `k` leading ones (`and_mask_eq_iff`). A string of bytes is the bits of its
bytes one after the other, and the bits of the number it spells.
-/

namespace LeadingBits

open CString

/-- The lowest `w` bits of `n`, the most significant one first. -/
def msb (w n : ℕ) : List Bool := (List.range w).map fun i => n.testBit (w - 1 - i)

@[simp] theorem length_msb (w n : ℕ) : (msb w n).length = w := by simp [msb]

@[simp] theorem msb_zero (n : ℕ) : msb 0 n = [] := rfl

theorem msb_mod (w n : ℕ) : msb w (n % 2 ^ w) = msb w n := by
  refine List.map_congr_left fun i hi => ?_
  have hi : i < w := List.mem_range.mp hi
  rw [Nat.testBit_mod_two_pow]
  simp [show w - 1 - i < w by omega]

variable {w k a b : ℕ} {c d : UInt8}

theorem take_msb (hk : k ≤ w) : (msb w a).take k = (msb w b).take k ↔
    ∀ i, w - k ≤ i → i < w → a.testBit i = b.testBit i := by
  rw [List.ext_getElem_iff]
  constructor
  · rintro ⟨-, h⟩ i hlow hi
    have hbit := h (w - 1 - i) (by simp; omega) (by simp; omega)
    simp only [msb, List.getElem_take, List.getElem_map, List.getElem_range] at hbit
    rwa [show w - 1 - (w - 1 - i) = i by omega] at hbit
  · intro h
    refine ⟨by simp, fun i hi _ => ?_⟩
    have hik : i < k := by simp at hi; omega
    simp only [msb, List.getElem_take, List.getElem_map, List.getElem_range]
    exact h _ (by omega) (by omega)

theorem take_msb_eq_iff (hk : k ≤ w) (ha : a < 2 ^ w) (hb : b < 2 ^ w) :
    (msb w a).take k = (msb w b).take k ↔ a >>> (w - k) = b >>> (w - k) := by
  rw [take_msb hk]
  constructor
  · intro h
    refine Nat.eq_of_testBit_eq fun j => ?_
    rw [Nat.testBit_shiftRight, Nat.testBit_shiftRight]
    rcases Nat.lt_or_ge (w - k + j) w with hj | hj
    · exact h _ (by omega) hj
    · have hle : 2 ^ w ≤ 2 ^ (w - k + j) := Nat.pow_le_pow_right (by omega) hj
      rw [Nat.testBit_lt_two_pow (ha.trans_le hle), Nat.testBit_lt_two_pow (hb.trans_le hle)]
  · intro h i hlow _
    have hbit := congrArg (fun n => n.testBit (i - (w - k))) h
    simpa only [Nat.testBit_shiftRight, show w - k + (i - (w - k)) = i by omega] using hbit

theorem msb_inj (ha : a < 2 ^ w) (hb : b < 2 ^ w) : msb w a = msb w b ↔ a = b := by
  have h := take_msb_eq_iff le_rfl ha hb
  rwa [List.take_of_length_le (by simp), List.take_of_length_le (by simp), Nat.sub_self,
    Nat.shiftRight_zero, Nat.shiftRight_zero] at h

/-- A mask whose first `k` bits are set keeps the first `k` bits. -/
theorem and_mask_eq_iff {x y mask : BitVec w} (hk : k ≤ w)
    (hmask : ∀ i < w, mask.getLsbD i = decide (w - k ≤ i)) :
    x &&& mask = y &&& mask ↔ (msb w x.toNat).take k = (msb w y.toNat).take k := by
  rw [take_msb hk]
  simp only [BitVec.testBit_toNat]
  constructor
  · intro h i hlow hi
    have hbit := congrArg (BitVec.getLsbD · i) h
    simpa [hmask i hi, hlow] using hbit
  · intro h
    refine BitVec.eq_of_getLsbD_eq fun i hi => ?_
    rw [BitVec.getLsbD_and, BitVec.getLsbD_and, hmask i hi]
    rcases Nat.lt_or_ge i (w - k) with hlow | hlow
    · simp [Nat.not_le.mpr hlow]
    · rw [h i hlow hi]

/-! ## Bytes -/

theorem msb_append {v n m : ℕ} (hm : m < 2 ^ v) :
    msb (w + v) (2 ^ v * n + m) = msb w n ++ msb v m := by
  refine List.ext_getElem (by simp) fun i hi _ => ?_
  have hi : i < w + v := by simpa using hi
  rw [List.getElem_append]
  simp only [msb, List.getElem_map, List.getElem_range, List.length_map, List.length_range,
    Nat.testBit_two_pow_mul_add n hm]
  split_ifs with hfirst hsecond hsecond
  · omega
  · congr 1
    omega
  · congr 1
    omega
  · omega

/-- The bits of a byte string. -/
def bytesBits (s : Bytes) : List Bool := s.flatMap fun c => msb 8 c.toNat

@[simp] theorem bytesBits_nil : bytesBits [] = [] := rfl

theorem bytesBits_cons (c : UInt8) (s : Bytes) : bytesBits (c :: s) = msb 8 c.toNat ++ bytesBits s :=
  List.flatMap_cons

@[simp] theorem length_bytesBits : ∀ s : Bytes, (bytesBits s).length = 8 * s.length
  | [] => rfl
  | c :: s => by
    rw [bytesBits_cons, List.length_append, length_msb, length_bytesBits s, List.length_cons]
    omega

theorem bytesBits_append (s t : Bytes) : bytesBits (s ++ t) = bytesBits s ++ bytesBits t :=
  List.flatMap_append

theorem append_eq_append {u v s t : List Bool} (h : u.length = v.length) :
    u ++ s = v ++ t ↔ u = v ∧ s = t :=
  ⟨fun happ => List.append_inj happ h, fun ⟨hu, hs⟩ => by rw [hu, hs]⟩

theorem byte_bits_inj : msb 8 c.toNat = msb 8 d.toNat ↔ c = d := by
  rw [msb_inj (UInt8.toNat_lt c) (UInt8.toNat_lt d), UInt8.toNat_inj]

theorem bytesBits_inj : ∀ {s t : Bytes}, s.length = t.length →
    (bytesBits s = bytesBits t ↔ s = t)
  | [], [], _ => by simp
  | c :: s, d :: t, h => by
    have ih := @bytesBits_inj s t (by simpa using h)
    rw [bytesBits_cons, bytesBits_cons, append_eq_append (by simp), byte_bits_inj, ih,
      List.cons.injEq]
  | [], _ :: _, h => by simp at h
  | _ :: _, [], h => by simp at h

/-- The bits of the number that a byte string spells in base 256. -/
theorem msb_foldl (s : Bytes) : ∀ w n : ℕ,
    msb (w + 8 * s.length) (s.foldl (fun n b => 256 * n + b.toNat) n) = msb w n ++ bytesBits s := by
  induction s with
  | nil => simp
  | cons c s ih =>
    intro w n
    have hwidth : w + 8 * (c :: s).length = (w + 8) + 8 * s.length := by
      rw [List.length_cons]
      omega
    rw [hwidth, List.foldl_cons, ih, show 256 * n + c.toNat = 2 ^ 8 * n + c.toNat by norm_num,
      msb_append (UInt8.toNat_lt c), List.append_assoc, ← bytesBits_cons]

theorem take_bytesBits_cons {s t : Bytes} (k : ℕ) :
    (bytesBits (c :: s)).take (8 + k) = (bytesBits (d :: t)).take (8 + k) ↔
      c = d ∧ (bytesBits s).take k = (bytesBits t).take k := by
  have htake : ∀ (e : UInt8) (u : Bytes),
      (bytesBits (e :: u)).take (8 + k) = msb 8 e.toNat ++ (bytesBits u).take k := by
    intro e u
    have hlen : (msb 8 e.toNat).length = 8 := length_msb 8 _
    rw [bytesBits_cons, List.take_append, hlen, List.take_of_length_le (by omega),
      Nat.add_sub_cancel_left]
  rw [htake, htake, append_eq_append (by simp), byte_bits_inj]

theorem take_bytesBits_of_le {s t : Bytes} (hk : k ≤ 8) :
    (bytesBits (c :: s)).take k = (bytesBits (d :: t)).take k ↔
      c.toNat >>> (8 - k) = d.toNat >>> (8 - k) := by
  rw [bytesBits_cons, bytesBits_cons, List.take_append_of_le_length (by simpa using hk),
    List.take_append_of_le_length (by simpa using hk),
    take_msb_eq_iff hk (UInt8.toNat_lt c) (UInt8.toNat_lt d)]

end LeadingBits
