import Lighttpd.Lib.Strtol

/-!
# Byte ranges

A set of ranges is a list with commas: the last bytes of a file, the bytes from one on, or those from
one to another. A range that is satisfiable in a file of `n` bytes stands for a part of it that is not
empty (`RangeSpec.clamp_bounds`).
-/

namespace ByteRanges

open CString

/-- `-k`, `a-` and `a-b`. -/
inductive RangeSpec
  | suffix (k : ℕ)
  | start (a : ℕ)
  | span (a b : ℕ)
  deriving DecidableEq, Repr

/-- The range has bytes in a file of `n`. -/
def RangeSpec.Satisfiable (n : ℕ) : RangeSpec → Prop
  | .suffix k => 0 < k ∧ 0 < n
  | .start a => a < n
  | .span a b => a ≤ b ∧ a < n

/-- The first and the last of its bytes in a file of `n`. -/
def RangeSpec.clamp (n : ℕ) : RangeSpec → ℕ × ℕ
  | .suffix k => (n - k, n - 1)
  | .start a => (a, n - 1)
  | .span a b => (a, min b (n - 1))

variable {r : RangeSpec} {w : Bytes} {rs : List RangeSpec}

theorem RangeSpec.clamp_bounds {n : ℕ} (h : r.Satisfiable n) :
    (r.clamp n).1 ≤ (r.clamp n).2 ∧ (r.clamp n).2 < n := by
  cases r with
  | suffix k =>
    obtain ⟨hk, hn⟩ := h
    simp only [clamp]
    omega
  | start a =>
    have ha : a < n := h
    simp only [clamp]
    omega
  | span a b =>
    obtain ⟨hab, ha⟩ := h
    simp only [clamp]
    omega

/-- How a range is written. A number may have blanks and a sign before it. -/
inductive SpecText : Bytes → RangeSpec → Prop
  | suffix {ds : Bytes} : IsDecimal ds → SpecText (45 :: ds) (.suffix (ofDigits 10 ds))
  | start {w : Bytes} {a : ℕ} : Spells w a → 45 ∉ w → SpecText (w ++ [45]) (.start a)
  | span {w v : Bytes} {a b : ℕ} : Spells w a → 45 ∉ w → Spells v b →
      SpecText (w ++ 45 :: v) (.span a b)

/-- A list of ranges; what follows the last `-` of the list is no range. -/
inductive RangeText : Bytes → List RangeSpec → Prop
  | stop {t : Bytes} : 45 ∉ t → RangeText t []
  | last {w : Bytes} {r : RangeSpec} : SpecText w r → RangeText w [r]
  | cons {w t : Bytes} {r : RangeSpec} {rs : List RangeSpec} : SpecText w r → RangeText t rs →
      RangeText (w ++ 44 :: t) (r :: rs)

theorem SpecText.mem_minus (h : SpecText w r) : 45 ∈ w := by
  cases h <;> simp

theorem notMem_comma_of_spells {z : ℤ} (h : Spells w z) : 44 ∉ w := by
  obtain ⟨ws, sign, ds, rfl, hws, hsign, ⟨-, hds⟩, -⟩ := h.parts
  intro hmem
  rcases List.mem_append.mp hmem with hmem | hmem
  · exact absurd (hws 44 hmem) (by decide)
  · rcases List.mem_append.mp hmem with hmem | hmem
    · rcases hsign with rfl | rfl | rfl <;> simp at hmem
    · exact absurd (hds 44 hmem) (by decide)

theorem SpecText.notMem_comma (h : SpecText w r) : 44 ∉ w := by
  cases h with
  | suffix hds =>
    intro hmem
    rcases List.mem_cons.mp hmem with hmem | hmem
    · cases hmem
    · exact absurd (hds.2 44 hmem) (by decide)
  | start hw _ => simp [notMem_comma_of_spells hw]
  | span hw _ hv => simp [notMem_comma_of_spells hw, notMem_comma_of_spells hv]

theorem RangeText.eq_singleton {s : Bytes} (h : RangeText s rs) (h45 : 45 ∈ s) (hcomma : 44 ∉ s) :
    ∃ r, rs = [r] := by
  cases h with
  | stop ht => exact absurd h45 ht
  | @last w r hspec => exact ⟨r, rfl⟩
  | cons _ _ => simp at hcomma

theorem RangeText.ne_nil {s : Bytes} (h : RangeText s rs) (h45 : 45 ∈ s) : rs ≠ [] := by
  cases h with
  | stop ht => exact absurd h45 ht
  | last _ => simp
  | cons _ _ => simp

end ByteRanges
