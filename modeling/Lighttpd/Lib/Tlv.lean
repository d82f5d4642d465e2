import Lighttpd.Lib.CString

/-!
# Type-length-value vectors

A vector is a byte for its type, two for the length of its value, and the value. `tlvs` are the
vectors that lie one behind the other from the start of a byte string, up to the first that does
not lie completely inside it.
-/

namespace TypeLength

open CString

/-- A vector. -/
structure Tlv where
  type : UInt8
  value : Bytes
  deriving DecidableEq, Repr

/-- A length of two bytes. -/
def length16 (hi lo : UInt8) : ℕ := 256 * hi.toNat + lo.toNat

theorem length16_lt (hi lo : UInt8) : length16 hi lo < 2 ^ 16 := by
  have h₁ := UInt8.toNat_lt hi
  have h₂ := UInt8.toNat_lt lo
  unfold length16
  omega

/-- The vectors of a byte string, by recursion on a bound for their number. -/
def tlvsAux : ℕ → Bytes → List Tlv
  | n + 1, type :: hi :: lo :: rest =>
    if length16 hi lo ≤ rest.length then
      ⟨type, rest.take (length16 hi lo)⟩ :: tlvsAux n (rest.drop (length16 hi lo))
    else []
  | _, _ => []

/-- The complete vectors from the start of a byte string. -/
def tlvs (s : Bytes) : List Tlv := tlvsAux s.length s

theorem tlvsAux_eq : ∀ {n m : ℕ} {s : Bytes}, s.length ≤ n → s.length ≤ m →
    tlvsAux n s = tlvsAux m s
  | n, m, [], _, _ => by cases n <;> cases m <;> rfl
  | n, m, [_], _, _ => by cases n <;> cases m <;> rfl
  | n, m, [_, _], _, _ => by cases n <;> cases m <;> rfl
  | n + 1, m + 1, type :: hi :: lo :: rest, hn, hm => by
    have hrest : (rest.drop (length16 hi lo)).length ≤ rest.length := by simp
    simp only [List.length_cons] at hn hm
    rw [tlvsAux, tlvsAux, tlvsAux_eq (n := n) (m := m) (by omega) (by omega)]
  | 0, _, _ :: _ :: _ :: _, hn, _ => by simp at hn
  | _, 0, _ :: _ :: _ :: _, _, hm => by simp at hm

theorem exists_head {s : Bytes} (h : 3 ≤ s.length) :
    ∃ type hi lo rest, s = type :: hi :: lo :: rest := by
  rcases s with _ | ⟨type, _ | ⟨hi, _ | ⟨lo, rest⟩⟩⟩
  · simp at h
  · simp at h
  · simp at h
  · exact ⟨type, hi, lo, rest, rfl⟩

theorem tlvs_of_short {s : Bytes} (h : s.length < 3) : tlvs s = [] := by
  rcases s with _ | ⟨type, _ | ⟨hi, _ | ⟨lo, rest⟩⟩⟩
  · rfl
  · rfl
  · rfl
  · simp at h
    omega

theorem tlvs_cons (type hi lo : UInt8) (rest : Bytes) : tlvs (type :: hi :: lo :: rest) =
    if length16 hi lo ≤ rest.length then
      ⟨type, rest.take (length16 hi lo)⟩ :: tlvs (rest.drop (length16 hi lo))
    else [] := by
  rw [tlvs, List.length_cons, tlvsAux]
  rw [tlvs, tlvsAux_eq (by simp; omega) le_rfl]

end TypeLength
