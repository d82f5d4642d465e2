import Lighttpd.Lib.CString

/-!
# Buffers

A `buffer` that was never written (`used == 0`) is not equal to one that holds the empty
string (`used == 1`), and most functions read both as the empty string.
-/

namespace Lighttpd

open CString

/-- A `buffer`: `none` while `used` is zero. -/
abbrev Buffer := Option Bytes

/-- The string a buffer holds, as `CONST_BUF_LEN` gives it. -/
def Buffer.string (b : Buffer) : Bytes := b.getD []

/-- `buffer_string_is_empty`. -/
def bufferStringIsEmpty (b : Buffer) : Bool := b.string.isEmpty

/-- `buffer_is_equal`. -/
def bufferIsEqual (a b : Buffer) : Bool := a = b

/-- `hex2int`. -/
def hex2int (hex : UInt8) : UInt8 :=
  let value := hex - 48
  let value :=
    if value > 9 then
      let letter := (hex ||| 32) - 97 + 10
      if letter < 10 then 255 else letter
    else value
  if value > 15 then 255 else value

/-- `a - b` as a `size_t`. -/
def sizeSub (a b : ℕ) : ℕ := (((a : ℤ) - b) % 2 ^ 64).toNat

theorem sizeSub_of_le {a b : ℕ} (h : b ≤ a) (ha : a < 2 ^ 64) : sizeSub a b = a - b := by
  unfold sizeSub
  omega

theorem sizeSub_pos {a b : ℕ} (h : a < b) (hb : b < 2 ^ 64) : 0 < sizeSub a b := by
  unfold sizeSub
  omega

end Lighttpd
