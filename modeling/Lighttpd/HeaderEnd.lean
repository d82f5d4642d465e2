import Lighttpd.Lib.CString

/-!
# Where a header block ends

A header block ends at the first `CRLFCRLF` or `LFLF`. `headerEnd` is the length of the
shortest prefix that ends in one of the two (`headerEnd_eq_some_iff`). It scans by start
position: no terminator starts before and ends after another one, so the first to start
is the first to end.
-/

namespace Lighttpd

open CString

abbrev crlfcrlf : Bytes := [CR, LF, CR, LF]

abbrev lflf : Bytes := [LF, LF]

/-- `p` ends in an empty line of one of the two kinds. -/
def EndsHeader (p : Bytes) : Prop := crlfcrlf <:+ p ∨ lflf <:+ p

instance : DecidablePred EndsHeader := fun _ => inferInstanceAs (Decidable (_ ∨ _))

/-- Length of the shortest prefix that ends a header block. -/
def headerEnd : Bytes → Option ℕ
  | [] => none
  | c :: s =>
    if crlfcrlf.isPrefixOf (c :: s) then some 4
    else if lflf.isPrefixOf (c :: s) then some 2
    else (headerEnd s).map (· + 1)

/-- `R` is the shortest prefix of `B` that ends a header block. -/
def IsHeaderBlock (B R : Bytes) : Prop :=
  R <+: B ∧ EndsHeader R ∧ ∀ R', R' <+: B → EndsHeader R' → R.length ≤ R'.length

@[simp] theorem headerEnd_nil : headerEnd [] = none := rfl

theorem not_endsHeader_nil : ¬ EndsHeader [] := by decide

theorem not_endsHeader_take_crlfcrlf : ∀ m < 4, ¬ EndsHeader (crlfcrlf.take m) := by decide

theorem not_endsHeader_take_lflf : ∀ m < 2, ¬ EndsHeader (lflf.take m) := by decide

theorem endsHeader_cons {c : UInt8} {p : Bytes} :
    EndsHeader (c :: p) ↔ c :: p = crlfcrlf ∨ c :: p = lflf ∨ EndsHeader p := by
  simp only [EndsHeader, List.suffix_cons_iff, eq_comm (a := crlfcrlf), eq_comm (a := lflf)]
  tauto

theorem EndsHeader.two_le {p : Bytes} (h : EndsHeader p) : 2 ≤ p.length := by
  rcases h with h | h <;> have := h.length_le <;> simp at this <;> omega

theorem take_length_of_isPrefix {α : Type*} {p s : List α} (h : p <+: s) : s.take p.length = p :=
  (List.prefix_iff_eq_take.mp h).symm

theorem headerEnd_eq_some_iff :
    ∀ {B : Bytes} {n : ℕ}, headerEnd B = some n ↔
      n ≤ B.length ∧ EndsHeader (B.take n) ∧ ∀ m < n, ¬ EndsHeader (B.take m)
  | [], n => by simp [not_endsHeader_nil]
  | c :: s, n => by
    have key : ∀ {k : ℕ}, k ≤ (c :: s).length → EndsHeader ((c :: s).take k) →
        (∀ m < k, ¬ EndsHeader ((c :: s).take m)) →
        (some k = some n ↔ n ≤ (c :: s).length ∧ EndsHeader ((c :: s).take n) ∧
          ∀ m < n, ¬ EndsHeader ((c :: s).take m)) := by
      intro k hk he hmin
      constructor
      · rintro ⟨⟩
        exact ⟨hk, he, hmin⟩
      · rintro ⟨-, he', hmin'⟩
        rcases lt_trichotomy k n with h | rfl | h
        · exact absurd he (hmin' k h)
        · rfl
        · exact absurd he' (hmin n h)
    rw [headerEnd]
    simp only [List.isPrefixOf_iff_prefix]
    split_ifs with h4 h2
    · obtain ⟨t, ht⟩ := h4
      rw [← ht] at key ⊢
      exact key (by simp) (by simp [EndsHeader]) fun m hm => by
        rw [List.take_append_of_le_length (show m ≤ crlfcrlf.length by simp; omega)]
        exact not_endsHeader_take_crlfcrlf m hm
    · obtain ⟨t, ht⟩ := h2
      rw [← ht] at key ⊢
      exact key (by simp) (by simp [EndsHeader]) fun m hm => by
        rw [List.take_append_of_le_length (show m ≤ lflf.length by simp; omega)]
        exact not_endsHeader_take_lflf m hm
    · have hstart : ∀ m, EndsHeader ((c :: s).take (m + 1)) ↔ EndsHeader (s.take m) := by
        intro m
        rw [List.take_succ_cons, endsHeader_cons]
        constructor
        · rintro (h | h | h)
          · exact absurd (h ▸ List.take_prefix (m + 1) (c :: s)) h4
          · exact absurd (h ▸ List.take_prefix (m + 1) (c :: s)) h2
          · exact h
        · exact fun h => .inr (.inr h)
      rcases n with _ | n
      · simp [not_endsHeader_nil]
      · simp only [Option.map_eq_some_iff, Nat.add_right_cancel_iff, exists_eq_right,
          headerEnd_eq_some_iff (B := s), List.length_cons, Nat.add_le_add_iff_right, hstart]
        refine and_congr_right fun _ => and_congr_right fun _ => ⟨fun hm m hlt => ?_, fun hm m hlt => ?_⟩
        · rcases m with _ | m
          · simpa using not_endsHeader_nil
          · exact (hstart m).not.mpr (hm m (by omega))
        · exact (hstart m).not.mp (hm (m + 1) (by omega))

theorem headerEnd_eq_none_iff {B : Bytes} :
    headerEnd B = none ↔ ∀ R, R <+: B → ¬ EndsHeader R := by
  constructor
  · intro h R hR he
    classical
    have hex : ∃ n, EndsHeader (B.take n) := ⟨R.length, by rwa [take_length_of_isPrefix hR]⟩
    have hle : Nat.find hex ≤ B.length := by
      refine (Nat.find_min' hex ?_).trans hR.length_le
      rwa [take_length_of_isPrefix hR]
    have hsome : headerEnd B = some (Nat.find hex) :=
      headerEnd_eq_some_iff.mpr ⟨hle, Nat.find_spec hex, fun m hm => Nat.find_min hex hm⟩
    simp [h] at hsome
  · intro h
    cases hn : headerEnd B with
    | none => rfl
    | some n => exact absurd (headerEnd_eq_some_iff.mp hn).2.1 (h _ (List.take_prefix _ _))

/-- The header block of `B` is its prefix of length `headerEnd`. -/
theorem isHeaderBlock_iff {B R : Bytes} (hR : R <+: B) :
    IsHeaderBlock B R ↔ headerEnd B = some R.length := by
  rw [headerEnd_eq_some_iff, take_length_of_isPrefix hR]
  constructor
  · rintro ⟨-, he, hmin⟩
    refine ⟨hR.length_le, he, fun m hm hem => ?_⟩
    have := hmin _ (List.take_prefix m B) hem
    simp at this
    omega
  · rintro ⟨-, he, hmin⟩
    refine ⟨hR, he, fun R' hR' he' => ?_⟩
    by_contra hlt
    exact hmin R'.length (by omega) (by rwa [take_length_of_isPrefix hR'])

theorem headerEnd_two_le {B : Bytes} {n : ℕ} (h : headerEnd B = some n) : 2 ≤ n := by
  have := (headerEnd_eq_some_iff.mp h).2.1.two_le
  simp at this
  omega

end Lighttpd
