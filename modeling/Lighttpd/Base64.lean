import Lighttpd.Lib.Base64

/-!
# Decoding base64

`buffer_append_base64_decode` puts the bytes together digit by digit. What is in base64, padded or
not, decodes to the bytes it stands for (`base64Decode_encode`), and what decodes is the encoding of
the bytes it decodes to, but for blanks and what is behind the padding (`encode_base64Decode`).
-/

namespace Lighttpd

open CString

/-- `base64_standard_reverse_table`: the value of a digit, -1 for an invalid character, -2 for one
that is skipped, -3 for padding. -/
def base64StandardReverseTable : List ℤ :=
  [-1, -2, -2, -2, -2, -2, -2, -2, -2, -2, -2, -2, -2, -2, -2, -2,
   -2, -2, -2, -2, -2, -2, -2, -2, -2, -2, -2, -2, -2, -2, -2, -2,
   -2, -1, -1, -1, -1, -1, -1, -1, -1, -1, -1, 62, -1, -1, -1, 63,
   52, 53, 54, 55, 56, 57, 58, 59, 60, 61, -1, -1, -1, -3, -1, -1,
   -1,  0,  1,  2,  3,  4,  5,  6,  7,  8,  9, 10, 11, 12, 13, 14,
   15, 16, 17, 18, 19, 20, 21, 22, 23, 24, 25, -1, -1, -1, -1, -1,
   -1, 26, 27, 28, 29, 30, 31, 32, 33, 34, 35, 36, 37, 38, 39, 40,
   41, 42, 43, 44, 45, 46, 47, 48, 49, 50, 51, -1, -1, -1, -1, -1]

/-- The variables of the loop: `result` up to `out_pos`, the byte at `out_pos`, and `group`. -/
structure Base64State where
  out : Bytes
  cur : UInt8
  group : ℕ
  deriving DecidableEq, Repr

/-- The switch on `group` for a digit. -/
def base64Digit (st : Base64State) (ch : ℕ) : Base64State :=
  match st.group with
  | 0 => { st with cur := UInt8.ofNat (ch <<< 2), group := 1 }
  | 1 => ⟨st.out ++ [st.cur ||| UInt8.ofNat (ch >>> 4)], UInt8.ofNat ((ch &&& 0x0f) <<< 4), 2⟩
  | 2 => ⟨st.out ++ [st.cur ||| UInt8.ofNat (ch >>> 2)], UInt8.ofNat ((ch &&& 0x03) <<< 6), 3⟩
  | _ => ⟨st.out ++ [st.cur ||| UInt8.ofNat ch], 0, 0⟩

/-- The loop over the characters. -/
def base64Loop : Bytes → Base64State → Option Base64State
  | [], st => some st
  | c :: s, st =>
    if c = 0 then some st
    else if c ≥ 128 then none
    else
      let ch := base64StandardReverseTable.getD c.toNat (-1)
      if ch = -3 then if st.group < 2 then none else some st
      else if ch = -2 then base64Loop s st
      else if ch < 0 then none
      else base64Loop s (base64Digit st ch.toNat)

/-- `buffer_append_base64_decode` in the standard alphabet: the bytes it appends. -/
def base64Decode (s : Bytes) : Option Bytes :=
  (base64Loop s ⟨[], 0, 0⟩).bind fun st =>
    if st.group = 0 then some st.out
    else if st.group = 1 then none
    else if st.cur ≠ 0 then none
    else some st.out

theorem base64Loop_digit {n : ℕ} (hn : n < 64) (s : Bytes) (st : Base64State) :
    base64Loop (Base64.digit n :: s) st = base64Loop s (base64Digit st n) := by
  have hdigit : ∀ n < 64, Base64.digit n ≠ 0 ∧ ¬ Base64.digit n ≥ 128 ∧
      base64StandardReverseTable.getD (Base64.digit n).toNat (-1) = (n : ℤ) := by decide +kernel
  obtain ⟨h0, h128, hch⟩ := hdigit n hn
  rw [base64Loop, if_neg h0, if_neg h128, hch]
  simp only
  rw [if_neg (by omega), if_neg (by omega), if_neg (by omega), Int.toNat_natCast]

theorem base64Loop_pad {st : Base64State} (h : 2 ≤ st.group) (s : Bytes) :
    base64Loop (Base64.PAD :: s) st = some st := by
  have hch : base64StandardReverseTable.getD (61 : UInt8).toNat (-1) = -3 := by decide
  rw [base64Loop, if_neg (by decide), if_neg (by decide), hch]
  exact (if_pos rfl).trans (if_neg (by omega))

theorem lor_digits :
    (∀ h < 64, ∀ l < 4, UInt8.ofNat (h <<< 2) ||| UInt8.ofNat l = UInt8.ofNat (h * 4 + l)) ∧
    (∀ h < 16, ∀ l < 16, UInt8.ofNat (h <<< 4) ||| UInt8.ofNat l = UInt8.ofNat (h * 16 + l)) ∧
    (∀ h < 4, ∀ l < 64, UInt8.ofNat (h <<< 6) ||| UInt8.ofNat l = UInt8.ofNat (h * 64 + l)) := by
  decide +kernel

theorem byte_of_digits₁ (a : UInt8) {x : ℕ} (hx : x < 16) :
    UInt8.ofNat ((a.toNat / 4) <<< 2) ||| UInt8.ofNat ((a.toNat % 4 * 16 + x) >>> 4) = a := by
  have ha := a.toNat_lt
  have hlow : (a.toNat % 4 * 16 + x) >>> 4 = a.toNat % 4 := by
    rw [Nat.shiftRight_eq_div_pow]
    omega
  rw [hlow, lor_digits.1 _ (by omega) _ (by omega), Nat.div_add_mod', UInt8.ofNat_toNat]

theorem byte_of_digits₂ (a b : UInt8) {y : ℕ} (hy : y < 4) :
    UInt8.ofNat (((a.toNat % 4 * 16 + b.toNat / 16) &&& 0x0f) <<< 4) |||
      UInt8.ofNat ((b.toNat % 16 * 4 + y) >>> 2) = b := by
  have hb := b.toNat_lt
  have hhigh : (a.toNat % 4 * 16 + b.toNat / 16) &&& 0x0f = b.toNat / 16 := by
    rw [Nat.and_two_pow_sub_one_eq_mod _ 4]
    omega
  have hlow : (b.toNat % 16 * 4 + y) >>> 2 = b.toNat % 16 := by
    rw [Nat.shiftRight_eq_div_pow]
    omega
  rw [hhigh, hlow, lor_digits.2.1 _ (by omega) _ (by omega), Nat.div_add_mod', UInt8.ofNat_toNat]

theorem byte_of_digits₃ (b c : UInt8) :
    UInt8.ofNat (((b.toNat % 16 * 4 + c.toNat / 64) &&& 0x03) <<< 6) |||
      UInt8.ofNat (c.toNat % 64) = c := by
  have hc := c.toNat_lt
  have hhigh : (b.toNat % 16 * 4 + c.toNat / 64) &&& 0x03 = c.toNat / 64 := by
    rw [Nat.and_two_pow_sub_one_eq_mod _ 2]
    omega
  rw [hhigh, lor_digits.2.2 _ (by omega) _ (by omega), Nat.div_add_mod', UInt8.ofNat_toNat]

theorem base64Loop_encode (padded : Bool) (s out : Bytes) :
    (base64Loop (Base64.encode padded s) ⟨out, 0, 0⟩).bind (fun st =>
      if st.group = 0 then some st.out
      else if st.group = 1 then none
      else if st.cur ≠ 0 then none
      else some st.out) = some (out ++ s) := by
  induction s using Base64.encode.induct generalizing out with
  | case1 => simp [Base64.encode, base64Loop]
  | case2 a =>
    have ha := a.toNat_lt
    have hbyte := byte_of_digits₁ a (x := 0) (by decide)
    rw [Nat.add_zero] at hbyte
    have hcur : ∀ x < 4, UInt8.ofNat ((x * 16 &&& 0x0f) <<< 4) = 0 := by decide
    rw [Base64.encode, List.cons_append, List.cons_append, List.nil_append,
      base64Loop_digit (by omega), base64Loop_digit (by omega)]
    cases padded
    · simp only [base64Digit, hbyte, hcur _ (Nat.mod_lt _ (by decide : 0 < 4))]
      simp [base64Loop]
    · rw [if_pos rfl, base64Loop_pad (by simp [base64Digit])]
      simp only [base64Digit, hbyte, hcur _ (Nat.mod_lt _ (by decide : 0 < 4))]
      simp
  | case3 a b =>
    have ha := a.toNat_lt
    have hb := b.toNat_lt
    have hbyte₁ := byte_of_digits₁ a (x := b.toNat / 16) (by omega)
    have hbyte₂ := byte_of_digits₂ a b (y := 0) (by decide)
    rw [Nat.add_zero] at hbyte₂
    have hcur : ∀ x < 16, UInt8.ofNat ((x * 4 &&& 0x03) <<< 6) = 0 := by decide
    rw [Base64.encode, List.cons_append, List.cons_append, List.cons_append, List.nil_append,
      base64Loop_digit (by omega), base64Loop_digit (by omega), base64Loop_digit (by omega)]
    cases padded
    · simp only [base64Digit, hbyte₁, hbyte₂, hcur _ (Nat.mod_lt _ (by decide : 0 < 16))]
      simp [base64Loop]
    · rw [if_pos rfl, base64Loop_pad (by simp [base64Digit])]
      simp only [base64Digit, hbyte₁, hbyte₂, hcur _ (Nat.mod_lt _ (by decide : 0 < 16))]
      simp
  | case4 a b c s ih =>
    have ha := a.toNat_lt
    have hb := b.toNat_lt
    have hc := c.toNat_lt
    have hbyte₁ := byte_of_digits₁ a (x := b.toNat / 16) (by omega)
    have hbyte₂ := byte_of_digits₂ a b (y := c.toNat / 64) (by omega)
    have hbyte₃ := byte_of_digits₃ b c
    rw [Base64.encode, List.cons_append, List.cons_append, List.cons_append, List.cons_append,
      List.nil_append, base64Loop_digit (by omega), base64Loop_digit (by omega),
      base64Loop_digit (by omega), base64Loop_digit (by omega)]
    simp only [base64Digit, hbyte₁, hbyte₂, hbyte₃]
    rw [ih]
    simp

theorem base64Decode_encode (padded : Bool) (s : Bytes) :
    base64Decode (Base64.encode padded s) = some s := by
  have h := base64Loop_encode padded s []
  rwa [List.nil_append] at h

/-! ## What decodes -/

/-- The text that stands for the bytes: up to the padding or a NUL, without blanks and control
characters. -/
def base64Text (s : Bytes) : Bytes :=
  (s.takeWhile fun c => c ≠ 0 ∧ c ≠ Base64.PAD).filter fun c => 32 < c

theorem base64StandardReverseTable_spec {c : UInt8} (h0 : c ≠ 0) (hc : ¬ c ≥ 128) :
    (base64StandardReverseTable.getD c.toNat (-1) = -3 ↔ c = Base64.PAD) ∧
      (base64StandardReverseTable.getD c.toNat (-1) = -2 ↔ ¬ 32 < c) ∧
      (0 ≤ base64StandardReverseTable.getD c.toNat (-1) →
        (base64StandardReverseTable.getD c.toNat (-1)).toNat < 64 ∧
          Base64.digit (base64StandardReverseTable.getD c.toNat (-1)).toNat = c) := by
  have hall : ∀ n < 128, n ≠ 0 →
      (base64StandardReverseTable.getD n (-1) = -3 ↔ UInt8.ofNat n = Base64.PAD) ∧
        (base64StandardReverseTable.getD n (-1) = -2 ↔ ¬ 32 < UInt8.ofNat n) ∧
        (0 ≤ base64StandardReverseTable.getD n (-1) →
          (base64StandardReverseTable.getD n (-1)).toNat < 64 ∧
            Base64.digit (base64StandardReverseTable.getD n (-1)).toNat = UInt8.ofNat n) := by
    decide +kernel
  have hlt : c.toNat < 128 := UInt8.lt_iff_toNat_lt.mp (UInt8.not_le.mp hc)
  have hne : c.toNat ≠ 0 := fun h => h0 (UInt8.toNat_inj.mp h)
  have h := hall c.toNat hlt hne
  rwa [UInt8.ofNat_toNat] at h

theorem base64Loop_eq_some {s : Bytes} {st st' : Base64State} (h : base64Loop s st = some st') :
    ∃ ds : List ℕ, (∀ d ∈ ds, d < 64) ∧ base64Text s = ds.map Base64.digit ∧
      st' = ds.foldl base64Digit st := by
  induction s generalizing st with
  | nil => exact ⟨[], by simp, rfl, (Option.some.inj h).symm⟩
  | cons c s ih =>
    rw [base64Loop] at h
    by_cases h0 : c = 0
    · rw [if_pos h0] at h
      exact ⟨[], by simp, by simp [base64Text, h0], (Option.some.inj h).symm⟩
    rw [if_neg h0] at h
    by_cases h128 : c ≥ 128
    · rw [if_pos h128] at h
      cases h
    rw [if_neg h128] at h
    obtain ⟨hpad, hskip, hdigit⟩ := base64StandardReverseTable_spec h0 h128
    dsimp only at h
    generalize base64StandardReverseTable.getD c.toNat (-1) = ch at h hpad hskip hdigit
    by_cases h3 : ch = -3
    · rw [if_pos h3] at h
      split_ifs at h
      exact ⟨[], by simp, by simp [base64Text, hpad.mp h3], (Option.some.inj h).symm⟩
    have htext : base64Text (c :: s) = if 32 < c then c :: base64Text s else base64Text s := by
      rw [base64Text, List.takeWhile_cons_of_pos (by simp [h0, mt hpad.mpr h3]), List.filter_cons]
      simp only [decide_eq_true_eq]
      rfl
    rw [if_neg h3] at h
    rw [htext]
    by_cases h2 : ch = -2
    · rw [if_pos h2] at h
      rw [if_neg (hskip.mp h2)]
      exact ih h
    · rw [if_neg h2] at h
      rw [if_pos (not_not.mp (mt hskip.mpr h2))]
      split_ifs at h with hneg
      obtain ⟨ds, hds, htext, hst⟩ := ih h
      obtain ⟨hlt, hc⟩ := hdigit (not_lt.mp hneg)
      exact ⟨ch.toNat :: ds, by simpa [hlt] using hds, by rw [List.map_cons, ← htext, hc], hst⟩

/-- The digits that a byte put together from two parts was in. -/
theorem toNat_lor {k h l : ℕ} (hh : h < 2 ^ (8 - k)) (hl : l < 2 ^ k) (hk : k ≤ 8) :
    (UInt8.ofNat (h <<< k) ||| UInt8.ofNat l).toNat = h * 2 ^ k + l := by
  have hlt : h * 2 ^ k + l < 2 ^ 8 := by
    calc h * 2 ^ k + l < h * 2 ^ k + 2 ^ k := by omega
      _ = (h + 1) * 2 ^ k := (Nat.succ_mul h _).symm
      _ ≤ 2 ^ (8 - k) * 2 ^ k := Nat.mul_le_mul_right _ hh
      _ = 2 ^ 8 := by rw [← pow_add, Nat.sub_add_cancel hk]
  have hor : h <<< k ||| l = h * 2 ^ k + l := by
    rw [← Nat.shiftLeft_add_eq_or_of_lt hl, Nat.shiftLeft_eq]
  rw [← UInt8.ofNat_or, hor, UInt8.toNat_ofNat', Nat.mod_eq_of_lt hlt]

theorem toNat_digits₁ {a b : ℕ} (ha : a < 64) (hb : b < 64) :
    (UInt8.ofNat (a <<< 2) ||| UInt8.ofNat (b >>> 4)).toNat = a * 4 + b / 16 := by
  have hlow : b >>> 4 = b / 16 := Nat.shiftRight_eq_div_pow b 4
  rw [hlow]
  exact toNat_lor (k := 2) ha (by omega) (by decide)

theorem toNat_digits₂ (b : ℕ) {c : ℕ} (hc : c < 64) :
    (UInt8.ofNat ((b &&& 0x0f) <<< 4) ||| UInt8.ofNat (c >>> 2)).toNat = b % 16 * 16 + c / 4 := by
  have hhigh : b &&& 0x0f = b % 16 := Nat.and_two_pow_sub_one_eq_mod b 4
  have hlow : c >>> 2 = c / 4 := Nat.shiftRight_eq_div_pow c 2
  rw [hhigh, hlow]
  exact toNat_lor (k := 4) (Nat.mod_lt _ (by decide)) (by omega) (by decide)

theorem toNat_digits₃ (c : ℕ) {d : ℕ} (hd : d < 64) :
    (UInt8.ofNat ((c &&& 0x03) <<< 6) ||| UInt8.ofNat d).toNat = c % 4 * 64 + d := by
  have hhigh : c &&& 0x03 = c % 4 := Nat.and_two_pow_sub_one_eq_mod c 2
  rw [hhigh]
  exact toNat_lor (k := 6) (Nat.mod_lt _ (by decide)) hd (by decide)

theorem eq_zero_of_cur {k n : ℕ} (hk : k ≤ 8)
    (h : UInt8.ofNat ((n &&& (2 ^ (8 - k) - 1)) <<< k) = 0) : n % 2 ^ (8 - k) = 0 := by
  rw [Nat.and_two_pow_sub_one_eq_mod, Nat.shiftLeft_eq] at h
  have hlt : n % 2 ^ (8 - k) * 2 ^ k < 2 ^ 8 := by
    calc n % 2 ^ (8 - k) * 2 ^ k < 2 ^ (8 - k) * 2 ^ k :=
        Nat.mul_lt_mul_of_pos_right (Nat.mod_lt _ (Nat.two_pow_pos _)) (Nat.two_pow_pos k)
      _ = 2 ^ 8 := by rw [← pow_add, Nat.sub_add_cancel hk]
  have hz : n % 2 ^ (8 - k) * 2 ^ k = 0 := by
    have hnat := congrArg UInt8.toNat h
    rwa [UInt8.toNat_ofNat', Nat.mod_eq_of_lt hlt] at hnat
  exact (Nat.mul_eq_zero.mp hz).resolve_right (Nat.two_pow_pos k).ne'

theorem encode_foldl_base64Digit :
    ∀ (ds : List ℕ) (out : Bytes), (∀ d ∈ ds, d < 64) →
      (ds.foldl base64Digit ⟨out, 0, 0⟩).group ≠ 1 →
      ((ds.foldl base64Digit ⟨out, 0, 0⟩).group = 0 ∨
        (ds.foldl base64Digit ⟨out, 0, 0⟩).cur = 0) →
      ∃ x, (ds.foldl base64Digit ⟨out, 0, 0⟩).out = out ++ x ∧
        Base64.encode false x = ds.map Base64.digit
  | [], out, _, _, _ => ⟨[], by simp, rfl⟩
  | [a], out, _, h1, _ => absurd rfl h1
  | [a, b], out, hds, _, h0 => by
    simp only [List.mem_cons, List.not_mem_nil, or_false, forall_eq_or_imp, forall_eq] at hds
    obtain ⟨ha, hb⟩ := hds
    have hx := toNat_digits₁ ha hb
    have hb0 : b % 16 = 0 := eq_zero_of_cur (k := 4) (by decide) (h0.resolve_left (by simp [base64Digit]))
    refine ⟨[UInt8.ofNat (a <<< 2) ||| UInt8.ofNat (b >>> 4)], rfl, ?_⟩
    rw [Base64.encode, hx]
    simp only [Bool.false_eq_true, if_false, List.append_nil, List.map_cons, List.map_nil]
    rw [show (a * 4 + b / 16) / 4 = a by omega, show (a * 4 + b / 16) % 4 * 16 = b by omega]
  | [a, b, c], out, hds, _, h0 => by
    simp only [List.mem_cons, List.not_mem_nil, or_false, forall_eq_or_imp, forall_eq] at hds
    obtain ⟨ha, hb, hc⟩ := hds
    have hx := toNat_digits₁ ha hb
    have hy := toNat_digits₂ b hc
    have hc0 : c % 4 = 0 := eq_zero_of_cur (k := 6) (by decide) (h0.resolve_left (by simp [base64Digit]))
    refine ⟨[UInt8.ofNat (a <<< 2) ||| UInt8.ofNat (b >>> 4),
      UInt8.ofNat ((b &&& 0x0f) <<< 4) ||| UInt8.ofNat (c >>> 2)], by simp [base64Digit], ?_⟩
    rw [Base64.encode, hx, hy]
    simp only [Bool.false_eq_true, if_false, List.append_nil, List.map_cons, List.map_nil]
    rw [show (a * 4 + b / 16) / 4 = a by omega,
      show (a * 4 + b / 16) % 4 * 16 + (b % 16 * 16 + c / 4) / 16 = b by omega,
      show (b % 16 * 16 + c / 4) % 16 * 4 = c by omega]
  | a :: b :: c :: d :: ds, out, hds, h1, h0 => by
    have hds' : ∀ e ∈ ds, e < 64 := fun e he => hds e (by simp [he])
    have ha : a < 64 := hds a (by simp)
    have hb : b < 64 := hds b (by simp)
    have hc : c < 64 := hds c (by simp)
    have hd : d < 64 := hds d (by simp)
    have hx := toNat_digits₁ ha hb
    have hy := toNat_digits₂ b hc
    have hz := toNat_digits₃ c hd
    set x := UInt8.ofNat (a <<< 2) ||| UInt8.ofNat (b >>> 4)
    set y := UInt8.ofNat ((b &&& 0x0f) <<< 4) ||| UInt8.ofNat (c >>> 2)
    set z := UInt8.ofNat ((c &&& 0x03) <<< 6) ||| UInt8.ofNat d
    have hfold : (a :: b :: c :: d :: ds).foldl base64Digit ⟨out, 0, 0⟩ =
        ds.foldl base64Digit ⟨out ++ [x, y, z], 0, 0⟩ := by
      simp [base64Digit, x, y, z]
    rw [hfold] at h1 h0 ⊢
    obtain ⟨w, hw, henc⟩ := encode_foldl_base64Digit ds (out ++ [x, y, z]) hds' h1 h0
    refine ⟨[x, y, z] ++ w, by rw [hw, List.append_assoc], ?_⟩
    simp only [List.cons_append, List.nil_append, Base64.encode, henc, List.map_cons, hx, hy, hz]
    rw [show (a * 4 + b / 16) / 4 = a by omega,
      show (a * 4 + b / 16) % 4 * 16 + (b % 16 * 16 + c / 4) / 16 = b by omega,
      show (b % 16 * 16 + c / 4) % 16 * 4 + (c % 4 * 64 + d) / 64 = c by omega,
      show (c % 4 * 64 + d) % 64 = d by omega]

/-- What decodes is the encoding of the bytes that it decodes to. -/
theorem encode_base64Decode {s x : Bytes} (h : base64Decode s = some x) :
    Base64.encode false x = base64Text s := by
  obtain ⟨st, hst, h⟩ := Option.bind_eq_some_iff.mp h
  obtain ⟨ds, hds, htext, rfl⟩ := base64Loop_eq_some hst
  have hgroup : (ds.foldl base64Digit ⟨[], 0, 0⟩).group ≠ 1 := fun h1 => by simp [h1] at h
  have hcur : (ds.foldl base64Digit ⟨[], 0, 0⟩).group = 0 ∨
      (ds.foldl base64Digit ⟨[], 0, 0⟩).cur = 0 := by
    by_contra hne
    push Not at hne
    simp [hne.1, hne.2, hgroup] at h
  obtain ⟨y, hy, henc⟩ := encode_foldl_base64Digit ds [] hds hgroup hcur
  have hx : (ds.foldl base64Digit ⟨[], 0, 0⟩).out = x := by
    split_ifs at h
    · exact Option.some.inj h
    · exact Option.some.inj h
  rw [htext, ← henc, ← hx, hy, List.nil_append]

end Lighttpd
