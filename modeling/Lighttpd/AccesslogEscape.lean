import Lighttpd.AccesslogWrite

/-!
# Escapes in the access log

`accesslog_append_escaped` appends `logEscape` of the value: printable bytes as they are and
an escape for every other byte. `readQuoted` reads a value back up to the quote behind it,
so that no escaped value holds a bare quote and no two values look alike.
-/

namespace Lighttpd

open CString

/-- A byte the way it is logged. -/
def logByte (c : UInt8) : Bytes := if logPlain c then [c] else escapeByte c

/-- A value the way it is logged. -/
def logEscape (s : Bytes) : Bytes := s.flatMap logByte

@[simp] theorem logEscape_nil : logEscape [] = [] := rfl

@[simp] theorem logEscape_cons (c : UInt8) (s : Bytes) :
    logEscape (c :: s) = logByte c ++ logEscape s := rfl

theorem appendEscapedLoop_eq : ∀ s dest block : Bytes,
    appendEscapedLoop dest block s = dest ++ block ++ logEscape s
  | [], dest, block => by simp [appendEscapedLoop]
  | c :: s, dest, block => by
    rw [appendEscapedLoop, logEscape_cons, logByte]
    split_ifs with hc
    · rw [appendEscapedLoop_eq s]
      simp
    · rw [appendEscapedLoop_eq s]
      simp

theorem accesslogAppendEscaped_eq (dest : Bytes) (s : Buffer) :
    accesslogAppendEscaped dest s = dest ++ logEscape s.string := by
  unfold accesslogAppendEscaped
  split_ifs with h
  · rw [List.isEmpty_iff.mp h, logEscape_nil, List.append_nil]
  · rw [appendEscapedLoop_eq, List.append_nil]

/-! ## Reading back -/

/-- The value of a digit in an `\xHH` escape. -/
def unescapeDigit (d : UInt8) : UInt8 := if d > 64 then d - 65 + 10 else d - 48

/-- The byte that a letter behind a backslash stands for. -/
def unescapeLetter (d : UInt8) : UInt8 :=
  if d = 98 then 8
  else if d = 110 then 10
  else if d = 114 then 13
  else if d = 116 then 9
  else if d = 118 then 11
  else d

/-- What was read of an escape. -/
inductive EscapeState
  | text | backslash | hex | digit (h : UInt8)

/-- Reads a logged value up to the first bare quote: the value, and what is behind the
quote. -/
def readQuoted : EscapeState → Bytes → Option (Bytes × Bytes)
  | _, [] => none
  | .text, c :: s =>
    if c = 34 then some ([], s)
    else if c = 92 then readQuoted .backslash s
    else (readQuoted .text s).map fun r => (c :: r.1, r.2)
  | .backslash, d :: s =>
    if d = 120 then readQuoted .hex s
    else (readQuoted .text s).map fun r => (unescapeLetter d :: r.1, r.2)
  | .hex, h :: s => readQuoted (.digit h) s
  | .digit h, l :: s =>
    (readQuoted .text s).map fun r => ((unescapeDigit h * 16 + unescapeDigit l) :: r.1, r.2)

theorem readQuoted_letter {d : UInt8} (hd : d ≠ 120) (s : Bytes) :
    readQuoted .text (92 :: d :: s) =
      (readQuoted .text s).map fun r => (unescapeLetter d :: r.1, r.2) := by
  rw [readQuoted, if_neg (by decide), if_pos rfl, readQuoted, if_neg hd]

theorem readQuoted_hex (h l : UInt8) (s : Bytes) :
    readQuoted .text (92 :: 120 :: h :: l :: s) = (readQuoted .text s).map fun r =>
      ((unescapeDigit h * 16 + unescapeDigit l) :: r.1, r.2) := by
  rw [readQuoted, if_neg (by decide), if_pos rfl, readQuoted, if_pos rfl, readQuoted, readQuoted]

theorem unescapeDigits (c : UInt8) :
    unescapeDigit (escapeDigit (c / 16)) * 16 + unescapeDigit (escapeDigit (c % 16)) = c := by
  have h256 : ∀ n < 256, unescapeDigit (escapeDigit (UInt8.ofNat n / 16)) * 16 +
      unescapeDigit (escapeDigit (UInt8.ofNat n % 16)) = UInt8.ofNat n := by decide +kernel
  have := h256 c.toNat c.toNat_lt
  rwa [UInt8.ofNat_toNat] at this

theorem readQuoted_logByte (c : UInt8) (t : Bytes) :
    readQuoted .text (logByte c ++ t) = (readQuoted .text t).map fun r => (c :: r.1, r.2) := by
  by_cases hplain : logPlain c
  · have hne : c ≠ 34 ∧ c ≠ 92 := by
      simp only [logPlain, Bool.and_eq_true, decide_eq_true_eq] at hplain
      exact ⟨hplain.1.2, hplain.2⟩
    rw [logByte, if_pos hplain, List.singleton_append, readQuoted, if_neg hne.1, if_neg hne.2]
  · rw [logByte, if_neg hplain, escapeByte]
    split_ifs with h34 h92 h8 h10 h13 h9 h11
    · rw [h34]
      exact readQuoted_letter (by decide) t
    · rw [h92]
      exact readQuoted_letter (by decide) t
    · rw [h8]
      exact readQuoted_letter (by decide) t
    · rw [h10]
      exact readQuoted_letter (by decide) t
    · rw [h13]
      exact readQuoted_letter (by decide) t
    · rw [h9]
      exact readQuoted_letter (by decide) t
    · rw [h11]
      exact readQuoted_letter (by decide) t
    · have h := readQuoted_hex (escapeDigit (c / 16)) (escapeDigit (c % 16)) t
      rw [unescapeDigits] at h
      exact h

/-- A logged value ends at the first bare quote and is read back from there. -/
theorem readQuoted_logEscape : ∀ s t : Bytes, readQuoted .text (logEscape s ++ 34 :: t) = some (s, t)
  | [], t => by simp [readQuoted]
  | c :: s, t => by
    rw [logEscape_cons, List.append_assoc, readQuoted_logByte, readQuoted_logEscape s t]
    rfl

theorem logEscape_injective : Function.Injective logEscape := fun s s' h => by
  have hs := readQuoted_logEscape s []
  rw [h, readQuoted_logEscape s' []] at hs
  exact (Prod.mk.inj (Option.some.inj hs)).1.symm

theorem printable_of_mem_logEscape {s : Bytes} {c : UInt8} (h : c ∈ logEscape s) :
    32 ≤ c ∧ c ≤ 126 := by
  have h256 : ∀ n < 256, (logByte (UInt8.ofNat n)).all (fun c => 32 ≤ c && c ≤ 126) = true := by
    decide +kernel
  obtain ⟨d, -, hd⟩ := List.mem_flatMap.mp h
  rw [← UInt8.ofNat_toNat (x := d)] at hd
  have hc := List.all_eq_true.mp (h256 d.toNat d.toNat_lt) c hd
  rwa [Bool.and_eq_true, decide_eq_true_eq, decide_eq_true_eq] at hc

end Lighttpd
