import Lighttpd.Lib.CString
import Mathlib.Tactic.Ring

/-!
# WebSocket frames

A frame is a byte with the flags and the opcode, the length of the payload in one of three
encodings, a masking key when it comes from a client, and the payload, which is masked with that
key.
-/

namespace WebSocket

open CString

/-- A masking key. -/
abbrev Key := Vector UInt8 4

/-- The length of a key, for counting through its bytes. -/
instance neZero_four : NeZero 4 := ⟨by decide⟩

/-- The payload masked with `key` from position `i` of the key on. -/
def mask (key : Key) : Fin 4 → Bytes → Bytes
  | _, [] => []
  | i, c :: cs => (c ^^^ key.get i) :: mask key (i + 1) cs

@[simp] theorem length_mask (key : Key) : ∀ (i : Fin 4) (s : Bytes), (mask key i s).length = s.length
  | _, [] => rfl
  | i, _ :: cs => congrArg (· + 1) (length_mask key (i + 1) cs)

theorem mask_mask (key : Key) : ∀ (i : Fin 4) (s : Bytes), mask key i (mask key i s) = s
  | _, [] => rfl
  | i, c :: cs => by
    rw [mask, mask, mask_mask key (i + 1) cs, UInt8.xor_assoc, UInt8.xor_self, UInt8.xor_zero]

/-! ## Lengths -/

/-- A number of `k` bytes, the highest one first. -/
def bigEndian : ℕ → ℕ → Bytes
  | 0, _ => []
  | k + 1, n => UInt8.ofNat (n / 256 ^ k) :: bigEndian k n

@[simp] theorem length_bigEndian (n : ℕ) : ∀ k, (bigEndian k n).length = k
  | 0 => rfl
  | k + 1 => congrArg (· + 1) (length_bigEndian n k)

theorem foldl_bigEndian (n : ℕ) : ∀ (k m : ℕ),
    (bigEndian k n).foldl (fun m c => m * 256 + c.toNat) m = m * 256 ^ k + n % 256 ^ k
  | 0, m => by simp [bigEndian, Nat.mod_one]
  | k + 1, m => by
    have hmod : n % 256 ^ (k + 1) = n % 256 ^ k + 256 ^ k * (n / 256 ^ k % 256) := by
      rw [Nat.pow_succ, Nat.mod_mul]
    rw [bigEndian, List.foldl_cons, foldl_bigEndian n k, UInt8.toNat_ofNat', hmod]
    ring

/-- The encodings of a length: in seven bits, in two bytes or in eight. -/
inductive LengthEncoding
  | len7
  | len16
  | len63
  deriving DecidableEq, Repr

/-- The lengths below this one can be encoded. -/
def LengthEncoding.bound : LengthEncoding → ℕ
  | .len7 => 126
  | .len16 => 2 ^ 16
  | .len63 => 2 ^ 63

theorem LengthEncoding.bound_le (e : LengthEncoding) : e.bound ≤ 2 ^ 63 := by
  cases e <;> decide

/-- The seven bits behind the mask bit. -/
def LengthEncoding.field : LengthEncoding → ℕ → ℕ
  | .len7, n => n
  | .len16, _ => 126
  | .len63, _ => 127

/-- The bytes of the extended length. -/
def LengthEncoding.extended : LengthEncoding → ℕ → Bytes
  | .len7, _ => []
  | .len16, n => bigEndian 2 n
  | .len63, n => bigEndian 8 n

theorem LengthEncoding.foldl_extended {e : LengthEncoding} {n : ℕ} (he : e ≠ .len7)
    (h : n < e.bound) : (e.extended n).foldl (fun m c => m * 256 + c.toNat) 0 = n := by
  cases e with
  | len7 => exact absurd rfl he
  | len16 =>
    rw [extended, foldl_bigEndian, Nat.zero_mul, Nat.zero_add,
      Nat.mod_eq_of_lt (Nat.lt_of_lt_of_le h (by decide : 2 ^ 16 ≤ 256 ^ 2))]
  | len63 =>
    rw [extended, foldl_bigEndian, Nat.zero_mul, Nat.zero_add,
      Nat.mod_eq_of_lt (Nat.lt_of_lt_of_le h (by decide : 2 ^ 63 ≤ 256 ^ 8))]

/-- The shortest encoding of a length. -/
def LengthEncoding.shortest (n : ℕ) : LengthEncoding :=
  if n < 126 then .len7 else if n < 2 ^ 16 then .len16 else .len63

theorem LengthEncoding.field_lt {e : LengthEncoding} {n : ℕ} (h : n < e.bound) :
    e.field n < 128 := by
  cases e with
  | len7 => exact Nat.lt_trans h (by decide)
  | len16 => exact (by decide : 126 < 128)
  | len63 => exact (by decide : 127 < 128)

/-! ## Frames -/

inductive Opcode
  | cont
  | text
  | bin
  | close
  | ping
  | pong
  deriving DecidableEq, Repr

def Opcode.code : Opcode → ℕ
  | .cont => 0x0
  | .text => 0x1
  | .bin => 0x2
  | .close => 0x8
  | .ping => 0x9
  | .pong => 0xA

/-- A frame: the FIN flag with the three reserved bits behind it, the opcode, and the payload with
the encoding of its length. -/
structure Frame where
  flags : Fin 16
  opcode : Opcode
  encoding : LengthEncoding
  payload : Bytes
  fits : payload.length < encoding.bound
  deriving DecidableEq, Repr

/-- The first byte of a frame. -/
def Frame.head (f : Frame) : UInt8 := UInt8.ofNat (f.flags.val * 16 + f.opcode.code)

/-- The second byte of a frame, with the mask bit. -/
def Frame.second (f : Frame) (masked : Bool) : UInt8 :=
  UInt8.ofNat ((if masked then 128 else 0) + f.encoding.field f.payload.length)

/-- A frame of a server, which masks nothing. -/
def Frame.encode (f : Frame) : Bytes :=
  f.head :: f.second false :: (f.encoding.extended f.payload.length ++ f.payload)

/-- A frame of a client, masked with a key. -/
def Frame.encodeMasked (f : Frame) (key : Key) : Bytes :=
  f.head :: f.second true ::
    (f.encoding.extended f.payload.length ++ (key.toList ++ mask key 0 f.payload))

theorem Frame.toNat_head_and (f : Frame) : (f.head &&& 0x0f).toNat = f.opcode.code := by
  have h : ∀ i : Fin 16, (UInt8.ofNat (i.val * 16 + f.opcode.code) &&& 0x0f).toNat =
      f.opcode.code := by
    cases f.opcode <;> decide
  exact h f.flags

/-- The second byte of a masked frame has the mask bit and the length. -/
theorem Frame.second_masked (f : Frame) : f.second true &&& 0x80 = 0x80 ∧
    (f.second true &&& 0x7f).toNat = f.encoding.field f.payload.length := by
  have h : ∀ i : Fin 128, UInt8.ofNat (128 + i.val) &&& 0x80 = 0x80 ∧
      (UInt8.ofNat (128 + i.val) &&& 0x7f).toNat = i.val := by
    decide
  exact h ⟨f.encoding.field f.payload.length, LengthEncoding.field_lt f.fits⟩

end WebSocket
