import Mathlib.Tactic.Linarith
import Lighttpd.Lib.CString

/-!
# Base64

The standard encoding: three bytes are four digits, the first one for the highest bits. One or two
bytes at the end are two or three digits, with `=` up to four if the text is padded.
-/

namespace Base64

open CString

/-- The digits. -/
def alphabet : Bytes := str "ABCDEFGHIJKLMNOPQRSTUVWXYZabcdefghijklmnopqrstuvwxyz0123456789+/"

/-- The digit for a number below 64. -/
def digit (n : ℕ) : UInt8 := alphabet.getD n 0

/-- `=` -/
abbrev PAD : UInt8 := 61

/-- A string of bytes in base64. -/
def encode (padded : Bool) : Bytes → Bytes
  | [] => []
  | [a] =>
    [digit (a.toNat / 4), digit (a.toNat % 4 * 16)] ++ if padded then [PAD, PAD] else []
  | [a, b] =>
    [digit (a.toNat / 4), digit (a.toNat % 4 * 16 + b.toNat / 16), digit (b.toNat % 16 * 4)] ++
      if padded then [PAD] else []
  | a :: b :: c :: s =>
    [digit (a.toNat / 4), digit (a.toNat % 4 * 16 + b.toNat / 16),
      digit (b.toNat % 16 * 4 + c.toNat / 64), digit (c.toNat % 64)] ++ encode padded s

theorem digit_lt (n : ℕ) : digit n < 128 := by
  have hall : ∀ c ∈ alphabet, c < 128 := by decide +kernel
  unfold digit
  rcases h : alphabet[n]? with _ | c
  · rw [List.getD_eq_getElem?_getD, h]
    decide
  · rw [List.getD_eq_getElem?_getD, h]
    exact hall c (List.mem_of_getElem? h)

theorem lt_of_mem_encode {padded : Bool} {s : Bytes} : ∀ c ∈ encode padded s, c < 128 := by
  have hpad : PAD < 128 := by decide
  induction s using encode.induct with
  | case1 => simp [encode]
  | case2 a => cases padded <;> simp [encode, digit_lt, hpad]
  | case3 a b => cases padded <;> simp [encode, digit_lt, hpad]
  | case4 a b c s ih =>
    intro d hd
    rw [encode, List.mem_append] at hd
    rcases hd with hd | hd
    · simp only [List.mem_cons, List.not_mem_nil, or_false] at hd
      rcases hd with rfl | rfl | rfl | rfl <;> exact digit_lt _
    · exact ih d hd

end Base64
