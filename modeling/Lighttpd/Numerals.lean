import Lighttpd.HttpChunk
import Lighttpd.Lib.Strtol

/-!
# Numbers as text

`utostr` and `itostr` write the digits of a number from the end of a small array on the stack
towards its start; a write in front of the array has no result here. `buffer_append_int`,
`li_itostrn` and `li_utostrn` copy what was written. The array is long enough for every number, and
the text is the one numeral of the number (`numerals_canonical`).
-/

namespace Lighttpd

open CString ChunkedCoding

namespace Numerals

/-! ## Digits from the end -/

/-- `LI_ITOSTRING_LENGTH`, where an `intmax_t` has eight bytes. -/
def LI_ITOSTRING_LENGTH : ℕ := 2 + (8 * 8 * 31 + 99) / 100

/-- `*(--cur) = c`. -/
def prepend (c : UInt8) (buf : Bytes) : ℕ → Option (Bytes × ℕ)
  | 0 => none
  | cur + 1 => if cur < buf.length then some (buf.set cur c, cur) else none

/-- `utostr`, with the array that `cur` points into. -/
def utostr (buf : Bytes) : ℕ → ℕ → Option (Bytes × ℕ)
  | 0, _ => none
  | cur + 1, val =>
    (prepend (UInt8.ofNat (48 + val % 10)) buf (cur + 1)).bind fun r =>
      if val / 10 = 0 then some r else utostr r.1 cur (val / 10)

/-- `itostr`. -/
def itostr (buf : Bytes) (bufEnd : ℕ) (val : BitVec 64) : Option (Bytes × ℕ) :=
  let uval := if 0 ≤ val.toInt then val else ~~~val + 1
  (utostr buf bufEnd uval.toNat).bind fun r =>
    if val.toInt < 0 then prepend 45 r.1 r.2 else some r

/-- `buffer_append_int`, with what is in its array at first. -/
def bufferAppendInt (stack : Vector UInt8 LI_ITOSTRING_LENGTH) (b : Buffer) (val : BitVec 64) :
    Option Buffer :=
  (itostr stack.toList LI_ITOSTRING_LENGTH val).bind fun r =>
    if r.2 < LI_ITOSTRING_LENGTH then some (some (b.string ++ r.1.drop r.2)) else none

/-- What `li_itostrn` and `li_utostrn` copy to their caller, who has `bufLen` bytes for it. -/
def copyNumeral (bufLen : ℕ) (r : Bytes × ℕ) : Option Bytes :=
  if r.2 < LI_ITOSTRING_LENGTH ∧ LI_ITOSTRING_LENGTH - r.2 ≤ bufLen then some (r.1.drop r.2)
  else none

/-- The array with a NUL at its end. -/
def terminated (stack : Vector UInt8 LI_ITOSTRING_LENGTH) : Bytes :=
  stack.toList.set (LI_ITOSTRING_LENGTH - 1) 0

/-- `li_itostrn` -/
def liItostrn (stack : Vector UInt8 LI_ITOSTRING_LENGTH) (bufLen : ℕ) (val : BitVec 64) :
    Option Bytes :=
  (itostr (terminated stack) (LI_ITOSTRING_LENGTH - 1) val).bind (copyNumeral bufLen)

/-- `li_utostrn` -/
def liUtostrn (stack : Vector UInt8 LI_ITOSTRING_LENGTH) (bufLen : ℕ) (val : BitVec 64) :
    Option Bytes :=
  (utostr (terminated stack) (LI_ITOSTRING_LENGTH - 1) val.toNat).bind (copyNumeral bufLen)

/-- The text `s` was written in front of `bufEnd`. -/
def Written (buf : Bytes) (bufEnd : ℕ) (s : Bytes) (r : Bytes × ℕ) : Prop :=
  r.1.length = buf.length ∧ r.2 + s.length = bufEnd ∧ r.1.drop r.2 = s ++ buf.drop bufEnd

variable {buf s : Bytes} {bufEnd cur n bufLen : ℕ} {r : Bytes × ℕ}

theorem prepend_written (h : Written buf bufEnd s r) (hbuf : bufEnd ≤ buf.length)
    (hr : s.length < bufEnd) (c : UInt8) :
    ∃ r', prepend c r.1 r.2 = some r' ∧ Written buf bufEnd (c :: s) r' := by
  obtain ⟨hlen, hcur, hdrop⟩ := h
  obtain ⟨cur, hsucc⟩ := Nat.exists_eq_add_one.mpr (show 0 < r.2 by omega)
  have hlt : cur < r.1.length := by omega
  refine ⟨(r.1.set cur c, cur), ?_, ?_, ?_, ?_⟩
  · rw [hsucc, prepend, if_pos hlt]
  · rw [List.length_set, hlen]
  · rw [List.length_cons]
    omega
  · rw [List.drop_eq_getElem_cons (by simpa using hlt), List.getElem_set_self,
      List.drop_set_of_lt (Nat.lt_add_one cur), ← hsucc, hdrop, List.cons_append]

theorem digitChar_eq {d : ℕ} (h : d < 10) : (Nat.digitChar d).toUInt8 = UInt8.ofNat (48 + d) := by
  interval_cases d <;> rfl

/-- A number of `k` digits or less. -/
theorem length_itostr_le {k : ℕ} (hk : 0 < k) (hn : n < 10 ^ k) :
    (CString.itostr n).length ≤ k := by
  induction k generalizing n with
  | zero => exact absurd hk (Nat.lt_irrefl 0)
  | succ k ih =>
    rw [itostr_eq]
    split_ifs with hlt
    · simp
    · have hpos : 0 < k := by
        rcases Nat.eq_zero_or_pos k with rfl | hpos
        · exact absurd (by simpa using hn) hlt
        · exact hpos
      have hdiv : n / 10 < 10 ^ k := Nat.div_lt_of_lt_mul (by rwa [pow_succ, mul_comm] at hn)
      simpa using ih hpos hdiv

theorem utostr_written (n : ℕ) (hbuf : bufEnd ≤ buf.length) (h : Written buf bufEnd s r)
    (hroom : (CString.itostr n).length + s.length ≤ bufEnd) :
    ∃ r', utostr r.1 r.2 n = some r' ∧ Written buf bufEnd (CString.itostr n ++ s) r' := by
  induction hcur : r.2 generalizing r s n with
  | zero =>
    have hpos := List.length_pos_iff.mpr (itostr_ne_nil n)
    have hsum := h.2.1
    omega
  | succ cur ih =>
    have hpos := List.length_pos_iff.mpr (itostr_ne_nil n)
    obtain ⟨r', hpre, hw⟩ := prepend_written h hbuf (by omega) (UInt8.ofNat (48 + n % 10))
    rw [hcur] at hpre
    have hcur' : r'.2 = cur := by
      have h₁ := hw.2.1
      have h₂ := h.2.1
      rw [List.length_cons] at h₁
      omega
    rw [utostr, hpre, Option.bind_some]
    have hdigits := itostr_eq n
    rw [digitChar_eq (Nat.mod_lt n (by decide : 10 > 0))] at hdigits
    by_cases hn : n < 10
    · rw [if_pos (Nat.div_eq_of_lt hn)]
      rw [if_pos hn, List.nil_append] at hdigits
      exact ⟨r', rfl, by rw [hdigits]; exact hw⟩
    · rw [if_neg hn] at hdigits
      have hlen := congrArg List.length hdigits
      rw [List.length_append, List.length_singleton] at hlen
      have hne : n / 10 ≠ 0 := by omega
      obtain ⟨r'', hrun, hw'⟩ := ih (n / 10) hw (by rw [List.length_cons]; omega) hcur'
      refine ⟨r'', ?_, ?_⟩
      · rw [if_neg hne, ← hrun]
      · rw [hdigits, List.append_assoc]
        exact hw'

theorem written_nil : Written buf bufEnd [] (buf, bufEnd) := ⟨rfl, rfl, rfl⟩

/-! ## Numerals -/

/-- The decimal numeral of a number: its digits, with no zero in front. -/
structure Canonical (s : Bytes) (n : ℕ) : Prop where
  decimal : IsDecimal s
  value : ofDigits 10 s = n
  head : s.head? = some 48 → s = [48]

/-- The decimal numeral of an integer, with a minus sign if it is negative. -/
def CanonicalInt (s : Bytes) (z : ℤ) : Prop :=
  if z < 0 then ∃ t, s = 45 :: t ∧ Canonical t z.natAbs else Canonical s z.natAbs

theorem canonical_itostr (n : ℕ) : Canonical (CString.itostr n) n where
  decimal := (ofDigits_itostr n).1
  value := (ofDigits_itostr n).2
  head h := by
    rcases Nat.eq_zero_or_pos n with rfl | hn
    · rfl
    · exact absurd h (head?_itostr hn)

/-- The numeral of an integer. -/
def numeral (z : ℤ) : Bytes :=
  if z < 0 then 45 :: CString.itostr z.natAbs else CString.itostr z.natAbs

theorem canonicalInt_numeral (z : ℤ) : CanonicalInt (numeral z) z := by
  unfold CanonicalInt numeral
  split_ifs
  · exact ⟨_, rfl, canonical_itostr _⟩
  · exact canonical_itostr _

/-- The absolute value by the two's complement, also of the least number. -/
theorem toNat_uval (val : BitVec 64) :
    (if 0 ≤ val.toInt then val else ~~~val + 1).toNat = val.toInt.natAbs := by
  have hlt := val.isLt
  rw [BitVec.toInt_eq_toNat_cond]
  split_ifs with h hn hn
  · omega
  · omega
  · omega
  · have hone : (1 : BitVec 64).toNat = 1 := rfl
    rw [BitVec.toNat_add, BitVec.toNat_not, hone]
    omega

theorem length_itostr_toNat (val : BitVec 64) : (CString.itostr val.toNat).length ≤ 20 :=
  length_itostr_le (by decide) (Nat.lt_of_lt_of_le val.isLt (by decide))

theorem length_numeral_toInt (val : BitVec 64) : (numeral val.toInt).length ≤ 20 := by
  have hle := BitVec.le_two_mul_toInt (x := val)
  have hlt := BitVec.two_mul_toInt_lt (x := val)
  have habs : val.toInt.natAbs < 10 ^ 19 := by omega
  have hdigits := length_itostr_le (by decide) habs
  unfold numeral
  split_ifs
  · rw [List.length_cons]
    omega
  · omega

/-- `itostr` writes the numeral. -/
theorem itostr_written (val : BitVec 64) (hbuf : bufEnd ≤ buf.length) (hroom : 20 ≤ bufEnd) :
    ∃ r, itostr buf bufEnd val = some r ∧ Written buf bufEnd (numeral val.toInt) r := by
  have hlen := length_numeral_toInt val
  unfold numeral at hlen ⊢
  obtain ⟨r, hrun, hw⟩ := utostr_written val.toInt.natAbs hbuf written_nil
    (by split_ifs at hlen <;> simp only [List.length_cons, List.length_nil] at hlen ⊢ <;> omega)
  rw [List.append_nil] at hw
  simp only [itostr, toNat_uval, hrun, Option.bind_some]
  split_ifs at hlen ⊢ with hneg
  · exact prepend_written hw hbuf (by rw [List.length_cons] at hlen; omega) 45
  · exact ⟨r, rfl, hw⟩

theorem length_terminated (stack : Vector UInt8 LI_ITOSTRING_LENGTH) :
    (terminated stack).length = LI_ITOSTRING_LENGTH := by
  simp [terminated]

theorem room_terminated (stack : Vector UInt8 LI_ITOSTRING_LENGTH) :
    LI_ITOSTRING_LENGTH - 1 ≤ (terminated stack).length := by
  rw [length_terminated]
  exact Nat.sub_le _ _

theorem copyNumeral_written (stack : Vector UInt8 LI_ITOSTRING_LENGTH)
    (h : Written (terminated stack) (LI_ITOSTRING_LENGTH - 1) s r) (hs : s.length < bufLen) :
    copyNumeral bufLen r = some (s ++ [0]) := by
  obtain ⟨-, hcur, hdrop⟩ := h
  have hnul : (terminated stack).drop (LI_ITOSTRING_LENGTH - 1) = [0] := by
    have hlen : LI_ITOSTRING_LENGTH - 1 < (terminated stack).length := by
      rw [length_terminated]
      decide
    have hend : (terminated stack).drop (LI_ITOSTRING_LENGTH - 1 + 1) = [] :=
      List.drop_eq_nil_of_le (le_of_eq (length_terminated stack))
    rw [List.drop_eq_getElem_cons hlen, hend]
    exact congrArg (· :: []) (List.getElem_set_self ..)
  rw [copyNumeral, if_pos ?_, hdrop, hnul]
  unfold LI_ITOSTRING_LENGTH at hcur ⊢
  omega

/-- `buffer_append_int` appends the numeral. -/
theorem bufferAppendInt_eq (stack : Vector UInt8 LI_ITOSTRING_LENGTH) (b : Buffer)
    (v : BitVec 64) : bufferAppendInt stack b v = some (some (b.string ++ numeral v.toInt)) := by
  have hstack : LI_ITOSTRING_LENGTH ≤ stack.toList.length := le_of_eq Vector.length_toList.symm
  obtain ⟨r, hrun, -, hcur, hdrop⟩ := itostr_written v hstack (by decide)
  have hne : 0 < (numeral v.toInt).length := by
    unfold numeral
    split_ifs
    · exact Nat.succ_pos _
    · exact List.length_pos_iff.mpr (itostr_ne_nil _)
  rw [bufferAppendInt, hrun, Option.bind_some, if_pos (by omega), hdrop,
    List.drop_eq_nil_of_le (le_of_eq Vector.length_toList), List.append_nil]

/-- `li_itostrn` gives a caller with room for it the numeral and a NUL. -/
theorem liItostrn_eq (stack : Vector UInt8 LI_ITOSTRING_LENGTH) (v : BitVec 64)
    (hroom : (numeral v.toInt).length < bufLen) :
    liItostrn stack bufLen v = some (numeral v.toInt ++ [0]) := by
  obtain ⟨r, hrun, hw⟩ := itostr_written v (room_terminated stack) (by decide)
  rw [liItostrn, hrun, Option.bind_some]
  exact copyNumeral_written stack hw hroom

theorem liUtostrn_eq (stack : Vector UInt8 LI_ITOSTRING_LENGTH) (u : BitVec 64)
    (hroom : (CString.itostr u.toNat).length < bufLen) :
    liUtostrn stack bufLen u = some (CString.itostr u.toNat ++ [0]) := by
  have hlen := length_itostr_toNat u
  obtain ⟨r, hrun, hw⟩ := utostr_written u.toNat (room_terminated stack) written_nil
    (by simp only [List.length_nil, LI_ITOSTRING_LENGTH]; omega)
  rw [List.append_nil] at hw
  rw [liUtostrn, hrun, Option.bind_some]
  exact copyNumeral_written stack hw hroom

theorem length_uintHexLoop (value : ℕ) : ∀ digits, (uintHexLoop value digits).length = digits
  | 0 => rfl
  | digits + 1 => congrArg (· + 1) (length_uintHexLoop value digits)

theorem length_bufferAppendUintHex (value : ℕ) : Even (bufferAppendUintHex value).length := by
  rw [bufferAppendUintHex, length_uintHexLoop, Nat.shiftRight_eq_div_pow]
  obtain ⟨-, -, hmod⟩ := uintHexShift_spec value
  exact ⟨uintHexShift value / 8, by omega⟩

/-- Every integer is written as its numeral, within the array on the stack, and every number in an
even number of hex digits. -/
theorem numerals_canonical (stack : Vector UInt8 LI_ITOSTRING_LENGTH) (b : Buffer)
    (v u : BitVec 64) :
    (∃ s, bufferAppendInt stack b v = some (some (b.string ++ s)) ∧ CanonicalInt s v.toInt ∧
      s.length + 1 ≤ LI_ITOSTRING_LENGTH) ∧
    (∃ s, (∀ bufLen ≥ s.length + 1, liItostrn stack bufLen v = some (s ++ [0])) ∧
      CanonicalInt s v.toInt ∧ s.length + 1 ≤ LI_ITOSTRING_LENGTH) ∧
    (∃ s, (∀ bufLen ≥ s.length + 1, liUtostrn stack bufLen u = some (s ++ [0])) ∧
      Canonical s u.toNat ∧ s.length + 1 ≤ LI_ITOSTRING_LENGTH) ∧
    (Even (bufferAppendUintHex u.toNat).length ∧ IsHex (bufferAppendUintHex u.toNat) ∧
      hexNumber (bufferAppendUintHex u.toNat) = u.toNat) := by
  have hint : (numeral v.toInt).length + 1 ≤ LI_ITOSTRING_LENGTH :=
    (Nat.succ_le_succ (length_numeral_toInt v)).trans (by decide)
  have hnat : (CString.itostr u.toNat).length + 1 ≤ LI_ITOSTRING_LENGTH :=
    (Nat.succ_le_succ (length_itostr_toNat u)).trans (by decide)
  obtain ⟨hhex, hvalue⟩ := hexNumber_bufferAppendUintHex u.toNat
  refine ⟨⟨_, bufferAppendInt_eq stack b v, canonicalInt_numeral _, hint⟩,
    ⟨_, fun bufLen h => liItostrn_eq stack v h, canonicalInt_numeral _, hint⟩,
    ⟨_, fun bufLen h => liUtostrn_eq stack u h, canonical_itostr _, hnat⟩,
    length_bufferAppendUintHex _, hhex, hvalue⟩

end Numerals

end Lighttpd
