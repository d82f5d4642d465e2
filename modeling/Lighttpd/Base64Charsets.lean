import Lighttpd.Base64
import Lighttpd.Buffer

/-!
# The two alphabets of base64

The functions of `base64.c` work with the standard alphabet and with the one for URLs, padded or
not, and append to a buffer. The tables of the second alphabet are those of the first with three
pairs of characters exchanged (`translate`), so what is true of one is true of the other. Decoding
what was encoded gives it back (`bufferAppendBase64_roundTrip`), and a text that decodes is an
encoding (`bufferAppendBase64Decode_canonical`).
-/

namespace Lighttpd

open CString

/-- `base64_charset`. -/
inductive Base64Charset
  | standard
  | url
  deriving DecidableEq, Repr

/-- `base64_standard_table`, with the padding behind the digits. -/
def base64StandardTable : Bytes :=
  str "ABCDEFGHIJKLMNOPQRSTUVWXYZabcdefghijklmnopqrstuvwxyz0123456789+/="

/-- `base64_url_table`, with the padding behind the digits. -/
def base64UrlTable : Bytes :=
  str "ABCDEFGHIJKLMNOPQRSTUVWXYZabcdefghijklmnopqrstuvwxyz0123456789-_."

/-- `base64_url_reverse_table`. -/
def base64UrlReverseTable : List ℤ :=
  [-1, -2, -2, -2, -2, -2, -2, -2, -2, -2, -2, -2, -2, -2, -2, -2,
   -2, -2, -2, -2, -2, -2, -2, -2, -2, -2, -2, -2, -2, -2, -2, -2,
   -2, -1, -1, -1, -1, -1, -1, -1, -1, -1, -1, -1, -1, 62, -3, -1,
   52, 53, 54, 55, 56, 57, 58, 59, 60, 61, -1, -1, -1, -1, -1, -1,
   -1,  0,  1,  2,  3,  4,  5,  6,  7,  8,  9, 10, 11, 12, 13, 14,
   15, 16, 17, 18, 19, 20, 21, 22, 23, 24, 25, -1, -1, -1, -1, 63,
   -1, 26, 27, 28, 29, 30, 31, 32, 33, 34, 35, 36, 37, 38, 39, 40,
   41, 42, 43, 44, 45, 46, 47, 48, 49, 50, 51, -1, -1, -1, -1, -1]

/-- `base64_table` -/
def Base64Charset.table : Base64Charset → Bytes
  | standard => base64StandardTable
  | url => base64UrlTable

/-- `base64_reverse_table` -/
def Base64Charset.reverseTable : Base64Charset → List ℤ
  | standard => base64StandardReverseTable
  | url => base64UrlReverseTable

/-- `padding` -/
def Base64Charset.padding (charset : Base64Charset) : UInt8 := charset.table.getD 64 0

/-- The loop of `buffer_append_base64_decode` over the characters. -/
def base64DecodeLoop (charset : Base64Charset) : Bytes → Base64State → Option Base64State
  | [], st => some st
  | c :: s, st =>
    if c = 0 then some st
    else if c ≥ 128 then none
    else
      let ch := charset.reverseTable.getD c.toNat (-1)
      if ch = -3 then if st.group < 2 then none else some st
      else if ch = -2 then base64DecodeLoop charset s st
      else if ch < 0 then none
      else base64DecodeLoop charset s (base64Digit st ch.toNat)

/-- `buffer_append_base64_decode`: the buffer, or `none` when it returns `NULL`. -/
def bufferAppendBase64Decode (out : Buffer) (s : Bytes) (charset : Base64Charset) :
    Option Buffer :=
  (base64DecodeLoop charset s ⟨[], 0, 0⟩).bind fun st =>
    if st.group = 0 then some (some (out.string ++ st.out))
    else if st.group = 1 then none
    else if st.cur ≠ 0 then none
    else some (some (out.string ++ st.out))

/-- The loop of `li_to_base64_no_padding` over three bytes at a time, and the switch on what is left
of them. -/
def base64EncodeLoop (table : Bytes) : Bytes → Bytes
  | [] => []
  | [a] =>
    let v := a.toNat <<< 4
    let v₁ := v >>> 6
    [table.getD (v₁ &&& 0x3f) 0, table.getD (v &&& 0x3f) 0]
  | [a, b] =>
    let v := a.toNat <<< 10 ||| b.toNat <<< 2
    let v₁ := v >>> 6
    let v₂ := v₁ >>> 6
    [table.getD (v₂ &&& 0x3f) 0, table.getD (v₁ &&& 0x3f) 0, table.getD (v &&& 0x3f) 0]
  | a :: b :: c :: s =>
    let v := a.toNat <<< 16 ||| b.toNat <<< 8 ||| c.toNat
    let v₁ := v >>> 6
    let v₂ := v₁ >>> 6
    let v₃ := v₂ >>> 6
    [table.getD (v₃ &&& 0x3f) 0, table.getD (v₂ &&& 0x3f) 0, table.getD (v₁ &&& 0x3f) 0,
      table.getD (v &&& 0x3f) 0] ++ base64EncodeLoop table s

/-- `li_to_base64_no_padding` into `outLength` bytes; `none` when an assertion fails. -/
def liToBase64NoPadding (outLength : ℕ) (s : Bytes) (charset : Base64Charset) : Option Bytes :=
  let fullTuples := s.length / 3
  let inTupleRemainder := s.length % 3
  let outTupleRemainder := if inTupleRemainder ≠ 0 then 1 + inTupleRemainder else 0
  let requireSpace := 4 * fullTuples + outTupleRemainder
  if requireSpace ≤ outLength then
    let out := base64EncodeLoop charset.table s
    if out.length ≤ outLength then some out else none
  else none

/-- `li_to_base64` -/
def liToBase64 (outLength : ℕ) (s : Bytes) (charset : Base64Charset) : Option Bytes :=
  let inTupleRemainder := s.length % 3
  let paddingLength := if inTupleRemainder ≠ 0 then 3 - inTupleRemainder else 0
  if outLength ≥ paddingLength then
    (liToBase64NoPadding (outLength - paddingLength) s charset).bind fun out =>
      let out := out ++ List.replicate paddingLength charset.padding
      if out.length ≤ outLength then some out else none
  else none

/-- `buffer_append_base64_encode_no_padding` -/
def bufferAppendBase64EncodeNoPadding (out : Buffer) (s : Bytes) (charset : Base64Charset) :
    Option Buffer :=
  (liToBase64NoPadding (4 * (s.length / 3) + 4) s charset).map fun r => some (out.string ++ r)

/-- `buffer_append_base64_encode` -/
def bufferAppendBase64Encode (out : Buffer) (s : Bytes) (charset : Base64Charset) :
    Option Buffer :=
  (liToBase64 (4 * (s.length / 3) + 4) s charset).map fun r => some (out.string ++ r)

/-! ## One alphabet in terms of the other -/

/-- The characters of the alphabet for URLs in place of those of the standard one, and back. -/
def urlTranslate (c : UInt8) : UInt8 :=
  if c = 43 then 45 else if c = 45 then 43
  else if c = 47 then 95 else if c = 95 then 47
  else if c = 61 then 46 else if c = 46 then 61
  else c

/-- The characters of an alphabet in place of those of the standard one, and back. -/
def Base64Charset.translate : Base64Charset → UInt8 → UInt8
  | standard => id
  | url => urlTranslate

theorem translate_spec (charset : Base64Charset) (c : UInt8) :
    charset.translate (charset.translate c) = c ∧ (charset.translate c = 0 ↔ c = 0) ∧
      (charset.translate c ≥ 128 ↔ c ≥ 128) ∧ (32 < charset.translate c ↔ 32 < c) ∧
      (charset.translate c = Base64.PAD ↔ c = charset.padding) := by
  have hall : ∀ charset ∈ [Base64Charset.standard, .url], ∀ n < 256,
      charset.translate (charset.translate (UInt8.ofNat n)) = UInt8.ofNat n ∧
        (charset.translate (UInt8.ofNat n) = 0 ↔ UInt8.ofNat n = 0) ∧
        (charset.translate (UInt8.ofNat n) ≥ 128 ↔ UInt8.ofNat n ≥ 128) ∧
        (32 < charset.translate (UInt8.ofNat n) ↔ 32 < UInt8.ofNat n) ∧
        (charset.translate (UInt8.ofNat n) = Base64.PAD ↔ UInt8.ofNat n = charset.padding) := by
    decide +kernel
  have hmem : charset ∈ [Base64Charset.standard, .url] := by cases charset <;> simp
  have h := hall charset hmem c.toNat c.toNat_lt
  rwa [UInt8.ofNat_toNat] at h

theorem reverseTable_eq (charset : Base64Charset) {c : UInt8} (hc : ¬ c ≥ 128) :
    charset.reverseTable.getD c.toNat (-1) =
      base64StandardReverseTable.getD (charset.translate c).toNat (-1) := by
  have hall : ∀ n < 128, base64UrlReverseTable.getD n (-1) =
      base64StandardReverseTable.getD (urlTranslate (UInt8.ofNat n)).toNat (-1) := by
    decide +kernel
  cases charset with
  | standard => rfl
  | url =>
    have h := hall c.toNat (UInt8.lt_iff_toNat_lt.mp (UInt8.not_le.mp hc))
    rwa [UInt8.ofNat_toNat] at h

theorem table_eq (charset : Base64Charset) {n : ℕ} (hn : n < 64) :
    charset.table.getD n 0 = charset.translate (Base64.digit n) := by
  have hall : ∀ charset ∈ [Base64Charset.standard, .url], ∀ n < 64,
      charset.table.getD n 0 = charset.translate (Base64.digit n) := by
    decide +kernel
  have hmem : charset ∈ [Base64Charset.standard, .url] := by cases charset <;> simp
  exact hall charset hmem n hn

theorem padding_eq (charset : Base64Charset) :
    charset.padding = charset.translate Base64.PAD := by
  cases charset <;> decide

theorem map_translate_map_translate (charset : Base64Charset) (s : Bytes) :
    (s.map charset.translate).map charset.translate = s := by
  rw [List.map_map]
  exact (List.map_congr_left fun c _ => (translate_spec charset c).1).trans s.map_id

theorem base64DecodeLoop_eq (charset : Base64Charset) (s : Bytes) (st : Base64State) :
    base64DecodeLoop charset s st = base64Loop (s.map charset.translate) st := by
  induction s generalizing st with
  | nil => rfl
  | cons c s ih =>
    obtain ⟨-, h0, h128, -, -⟩ := translate_spec charset c
    rw [List.map_cons, base64DecodeLoop, base64Loop]
    by_cases hc0 : c = 0
    · rw [if_pos hc0, if_pos (h0.mpr hc0)]
    by_cases hc : c ≥ 128
    · rw [if_neg hc0, if_neg (mt h0.mp hc0), if_pos hc, if_pos (h128.mpr hc)]
    rw [if_neg hc0, if_neg (mt h0.mp hc0), if_neg hc, if_neg (mt h128.mp hc),
      reverseTable_eq charset hc]
    simp only [ih]

theorem bufferAppendBase64Decode_eq (out : Buffer) (s : Bytes) (charset : Base64Charset) :
    bufferAppendBase64Decode out s charset =
      (base64Decode (s.map charset.translate)).map fun x => some (out.string ++ x) := by
  unfold bufferAppendBase64Decode base64Decode
  rw [base64DecodeLoop_eq]
  cases base64Loop (s.map charset.translate) ⟨[], 0, 0⟩ with
  | none => rfl
  | some st =>
    simp only [Option.bind_some]
    split_ifs <;> rfl

/-! ## Encoding -/

theorem and_0x3f (v : ℕ) : v &&& 0x3f = v % 64 := Nat.and_two_pow_sub_one_eq_mod v 6

theorem shiftRight_six (v : ℕ) : v >>> 6 = v / 64 := Nat.shiftRight_eq_div_pow v 6

theorem shiftLeft_or {a b k : ℕ} (hb : b < 2 ^ k) : a <<< k ||| b = a * 2 ^ k + b := by
  rw [← Nat.shiftLeft_add_eq_or_of_lt hb, Nat.shiftLeft_eq]

theorem base64EncodeLoop_eq (charset : Base64Charset) (s : Bytes) :
    base64EncodeLoop charset.table s = (Base64.encode false s).map charset.translate := by
  have hdigit : ∀ v, charset.table.getD (v % 64) 0 = charset.translate (Base64.digit (v % 64)) :=
    fun v => table_eq charset (Nat.mod_lt _ (by decide))
  induction s using Base64.encode.induct with
  | case1 => rfl
  | case2 a =>
    have ha := a.toNat_lt
    simp only [base64EncodeLoop, Base64.encode, Bool.false_eq_true, if_false, List.append_nil,
      List.map_cons, List.map_nil, and_0x3f, shiftRight_six, hdigit, Nat.shiftLeft_eq]
    rw [show a.toNat * 2 ^ 4 / 64 % 64 = a.toNat / 4 by omega,
      show a.toNat * 2 ^ 4 % 64 = a.toNat % 4 * 16 by omega]
  | case3 a b =>
    have ha := a.toNat_lt
    have hb := b.toNat_lt
    have hv : a.toNat <<< 10 ||| b.toNat <<< 2 = a.toNat * 1024 + b.toNat * 4 := by
      rw [Nat.shiftLeft_eq b.toNat]
      exact shiftLeft_or (k := 10) (by omega)
    simp only [base64EncodeLoop, Base64.encode, Bool.false_eq_true, if_false, List.append_nil,
      List.map_cons, List.map_nil, and_0x3f, shiftRight_six, hdigit, hv]
    generalize a.toNat = x at ha
    generalize b.toNat = y at hb
    rw [show (x * 1024 + y * 4) / 64 / 64 % 64 = x / 4 by omega,
      show (x * 1024 + y * 4) / 64 % 64 = x % 4 * 16 + y / 16 by omega,
      show (x * 1024 + y * 4) % 64 = y % 16 * 4 by omega]
  | case4 a b c s ih =>
    have ha := a.toNat_lt
    have hb := b.toNat_lt
    have hc := c.toNat_lt
    have hv : a.toNat <<< 16 ||| b.toNat <<< 8 ||| c.toNat =
        a.toNat * 65536 + b.toNat * 256 + c.toNat := by
      rw [Nat.or_assoc, shiftLeft_or (k := 8) hc, shiftLeft_or (k := 16) (by omega)]
      omega
    simp only [base64EncodeLoop, Base64.encode, List.cons_append, List.nil_append, List.map_cons,
      and_0x3f, shiftRight_six, hdigit, hv, ih]
    generalize a.toNat = x at ha
    generalize b.toNat = y at hb
    generalize c.toNat = z at hc
    rw [show (x * 65536 + y * 256 + z) / 64 / 64 / 64 % 64 = x / 4 by omega,
      show (x * 65536 + y * 256 + z) / 64 / 64 % 64 = x % 4 * 16 + y / 16 by omega,
      show (x * 65536 + y * 256 + z) / 64 % 64 = y % 16 * 4 + z / 64 by omega,
      show (x * 65536 + y * 256 + z) % 64 = z % 64 by omega]

theorem encode_true_eq (s : Bytes) :
    Base64.encode true s = Base64.encode false s ++
      List.replicate (if s.length % 3 ≠ 0 then 3 - s.length % 3 else 0) Base64.PAD := by
  induction s using Base64.encode.induct with
  | case1 => rfl
  | case2 a => rfl
  | case3 a b => rfl
  | case4 a b c s ih =>
    have hmod : (a :: b :: c :: s).length % 3 = s.length % 3 := Nat.add_mod_right s.length 3
    rw [Base64.encode, Base64.encode, ih, hmod, List.append_assoc]

theorem length_encode_false (s : Bytes) :
    (Base64.encode false s).length =
      4 * (s.length / 3) + if s.length % 3 ≠ 0 then 1 + s.length % 3 else 0 := by
  induction s using Base64.encode.induct with
  | case1 => simp [Base64.encode]
  | case2 a => simp [Base64.encode]
  | case3 a b => simp [Base64.encode]
  | case4 a b c s ih =>
    have hmod : (a :: b :: c :: s).length % 3 = s.length % 3 := Nat.add_mod_right s.length 3
    have hdiv : (a :: b :: c :: s).length / 3 = s.length / 3 + 1 :=
      Nat.add_div_right s.length (show 0 < 3 by decide)
    rw [Base64.encode, List.length_append, ih, hmod, hdiv]
    simp only [List.length_cons, List.length_nil]
    omega

theorem liToBase64NoPadding_eq {outLength : ℕ} {s : Bytes} (charset : Base64Charset)
    (h : (Base64.encode false s).length ≤ outLength) :
    liToBase64NoPadding outLength s charset =
      some ((Base64.encode false s).map charset.translate) := by
  unfold liToBase64NoPadding
  rw [length_encode_false] at h
  dsimp only
  rw [if_pos h, base64EncodeLoop_eq, List.length_map, length_encode_false, if_pos h]

/-- No assertion fails: the space that is reserved is enough. -/
theorem bufferAppendBase64EncodeNoPadding_eq (out : Buffer) (s : Bytes)
    (charset : Base64Charset) :
    bufferAppendBase64EncodeNoPadding out s charset =
      some (some (out.string ++ (Base64.encode false s).map charset.translate)) := by
  have hspace : (Base64.encode false s).length ≤ 4 * (s.length / 3) + 4 := by
    rw [length_encode_false]
    split_ifs <;> omega
  rw [bufferAppendBase64EncodeNoPadding, liToBase64NoPadding_eq charset hspace]
  rfl

theorem bufferAppendBase64Encode_eq (out : Buffer) (s : Bytes) (charset : Base64Charset) :
    bufferAppendBase64Encode out s charset =
      some (some (out.string ++ (Base64.encode true s).map charset.translate)) := by
  have hspace : (Base64.encode false s).length ≤ 4 * (s.length / 3) + 4 -
      if s.length % 3 ≠ 0 then 3 - s.length % 3 else 0 := by
    rw [length_encode_false]
    split_ifs <;> omega
  have hlen : ((Base64.encode true s).map charset.translate).length ≤ 4 * (s.length / 3) + 4 := by
    rw [List.length_map, encode_true_eq, List.length_append, List.length_replicate]
    split_ifs at hspace ⊢ <;> omega
  unfold bufferAppendBase64Encode liToBase64
  dsimp only
  rw [if_pos (by split_ifs <;> omega), liToBase64NoPadding_eq charset hspace, Option.bind_some,
    padding_eq, ← List.map_replicate, ← List.map_append, ← encode_true_eq, if_pos hlen]
  rfl

/-- `buffer_append_base64_encode`, or the function without padding. -/
def base64EncodeWith (padded : Bool) (out : Buffer) (s : Bytes) (charset : Base64Charset) :
    Option Buffer :=
  if padded then bufferAppendBase64Encode out s charset
  else bufferAppendBase64EncodeNoPadding out s charset

/-- The text without blanks and control characters, up to the padding or a NUL. -/
def base64TextOf (charset : Base64Charset) (s : Bytes) : Bytes :=
  (s.takeWhile fun c => c ≠ 0 ∧ c ≠ charset.padding).filter fun c => 32 < c

theorem base64Text_map_translate (charset : Base64Charset) (s : Bytes) :
    base64Text (s.map charset.translate) = (base64TextOf charset s).map charset.translate := by
  unfold base64Text base64TextOf
  induction s with
  | nil => rfl
  | cons c s ih =>
    obtain ⟨-, h0, -, h32, hpad⟩ := translate_spec charset c
    simp only [List.map_cons, List.takeWhile_cons, h0, hpad, ne_eq]
    split_ifs
    · simp only [List.filter_cons, h32, ih]
      split_ifs <;> rfl
    · rfl

/-- Encoding appends an encoding, and decoding that appends what was encoded. -/
theorem bufferAppendBase64_roundTrip (charset : Base64Charset) (padded : Bool) (x : Bytes)
    (out out' : Buffer) :
    ∃ s, base64EncodeWith padded out x charset = some (some (out.string ++ s)) ∧
      bufferAppendBase64Decode out' s charset = some (some (out'.string ++ x)) := by
  refine ⟨(Base64.encode padded x).map charset.translate, ?_, ?_⟩
  · cases padded with
    | false => exact bufferAppendBase64EncodeNoPadding_eq out x charset
    | true => exact bufferAppendBase64Encode_eq out x charset
  · rw [bufferAppendBase64Decode_eq, map_translate_map_translate, base64Decode_encode]
    rfl

theorem bufferAppendBase64Decode_canonical {charset : Base64Charset} {s : Bytes} {out out' : Buffer}
    (h : bufferAppendBase64Decode out s charset = some out') :
    ∃ x, out' = some (out.string ++ x) ∧
      bufferAppendBase64EncodeNoPadding none x charset = some (some (base64TextOf charset s)) := by
  rw [bufferAppendBase64Decode_eq] at h
  obtain ⟨x, hx, hout⟩ := Option.map_eq_some_iff.mp h
  refine ⟨x, hout.symm, ?_⟩
  rw [bufferAppendBase64EncodeNoPadding_eq, encode_base64Decode hx, base64Text_map_translate,
    map_translate_map_translate]
  rfl

/-- Both directions for every text and every state of the buffers. -/
theorem base64_inverse (charset : Base64Charset) (out out' : Buffer) :
    (∀ padded x, ∃ s, base64EncodeWith padded out x charset = some (some (out.string ++ s)) ∧
      bufferAppendBase64Decode out' s charset = some (some (out'.string ++ x))) ∧
    ∀ s r, bufferAppendBase64Decode out s charset = some r →
      ∃ x, r = some (out.string ++ x) ∧
        bufferAppendBase64EncodeNoPadding none x charset = some (some (base64TextOf charset s)) :=
  ⟨fun padded x => bufferAppendBase64_roundTrip charset padded x out out',
    fun _ _ => bufferAppendBase64Decode_canonical⟩

/-- A text with a line break in it, and padding. -/
theorem base64_inverse_hi :
    bufferAppendBase64Decode none (str "aG\nk=") .standard = some (some (str "hi")) ∧
      ∃ x, some (str "hi") = some (Buffer.string none ++ x) ∧
        bufferAppendBase64EncodeNoPadding none x .standard =
          some (some (base64TextOf .standard (str "aG\nk="))) :=
  ⟨by decide +kernel, (base64_inverse .standard none none).2 _ _ (by decide +kernel)⟩

end Lighttpd
