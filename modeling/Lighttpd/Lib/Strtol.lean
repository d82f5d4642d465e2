import Mathlib.Algebra.Order.Ring.Int
import Lighttpd.Lib.CString

/-!
# Numbers in C strings

`strtol` and `strtoll` in the C locale: white space, an optional sign, a prefix that
selects the base when none is given, digits. A `long` has 64 bits; the value saturates at
its bounds, and without a digit nothing is read.
-/

namespace CString

/-- `isspace` in the C locale. -/
def isSpace (c : UInt8) : Bool := c = 32 || (9 ≤ c && c ≤ 13)

/-- `isdigit`. -/
def isDigit (c : UInt8) : Bool := 48 ≤ c && c ≤ 57

/-- `isalpha` in the C locale. -/
def isAlpha (c : UInt8) : Bool := (65 ≤ c && c ≤ 90) || (97 ≤ c && c ≤ 122)

/-- `isalnum` in the C locale. -/
def isAlnum (c : UInt8) : Bool := isDigit c || isAlpha c

/-- The value of a digit in any base up to 36. -/
def digitValue (c : UInt8) : ℕ :=
  if isDigit c then c.toNat - 48
  else if 97 ≤ c ∧ c ≤ 122 then c.toNat - 87
  else if 65 ≤ c ∧ c ≤ 90 then c.toNat - 55
  else 36

/-- `isxdigit`. -/
def isXDigit (c : UInt8) : Bool := digitValue c < 16

/-- The number that a string of digits spells. -/
def ofDigits (base : ℕ) (ds : Bytes) : ℕ := ds.foldl (fun n d => base * n + digitValue d) 0

/-- A non-empty string of decimal digits. -/
def IsDecimal (s : Bytes) : Prop := s ≠ [] ∧ ∀ c ∈ s, isDigit c

instance : DecidablePred IsDecimal := fun _ => inferInstanceAs (Decidable (_ ∧ _))

/-- The nearest `long`. -/
def saturate64 (z : ℤ) : ℤ := max (-2 ^ 63) (min z (2 ^ 63 - 1))

/-- The base of the number that starts here, and the length of the prefix that says so. -/
def baseOf (base : ℕ) (u : Bytes) : ℕ × ℕ :=
  if base ≠ 0 then (base, 0)
  else
    match u with
    | 48 :: x :: d :: _ => if (x = 120 ∨ x = 88) ∧ isXDigit d then (16, 2) else (8, 0)
    | 48 :: _ => (8, 0)
    | _ => (10, 0)

/-- `strtol`: the value and the offset of the first byte not read. -/
def strtol (base : ℕ) (s : Bytes) : ℤ × ℕ :=
  let ws := (s.takeWhile isSpace).length
  let t := s.drop ws
  let sign := if t.head? = some 43 ∨ t.head? = some 45 then 1 else 0
  let b := baseOf base (t.drop sign)
  let ds := ((t.drop sign).drop b.2).takeWhile fun c => digitValue c < b.1
  if ds = [] then (0, 0)
  else
    (saturate64 (if t.head? = some 45 then -(ofDigits b.1 ds : ℤ) else ofDigits b.1 ds),
      ws + sign + b.2 + ds.length)

/-- The value of a `long` stored in an `int`. -/
def toInt32 (z : ℤ) : ℤ := z.bmod (2 ^ 32)

/-- The decimal digits of a number. -/
def itostr (n : ℕ) : Bytes := (Nat.toDigits 10 n).map Char.toUInt8

theorem saturate64_bounds (z : ℤ) : -2 ^ 63 ≤ saturate64 z ∧ saturate64 z < 2 ^ 63 := by
  unfold saturate64
  omega

theorem saturate64_lt (z : ℤ) : saturate64 z < 2 ^ 63 := by
  unfold saturate64
  omega

variable {n : ℕ} {c : UInt8} {s w : Bytes} {z : ℤ}

theorem saturate64_of_lt (h : n < 2 ^ 63) : saturate64 n = n := by
  unfold saturate64
  omega

theorem not_isSpace_of_isDigit (h : isDigit c) : ¬ isSpace c := by
  simp only [isDigit, isSpace, Bool.and_eq_true, Bool.or_eq_true, decide_eq_true_eq,
    UInt8.le_iff_toNat_le, ← UInt8.toNat_inj] at h ⊢
  simp at h ⊢
  omega

theorem digitValue_lt_of_isDigit (h : isDigit c) : digitValue c < 10 := by
  have hc : c ≤ 57 := by
    simp only [isDigit, Bool.and_eq_true, decide_eq_true_eq] at h
    exact h.2
  rw [digitValue, if_pos h]
  have : c.toNat ≤ 57 := hc
  omega

theorem strtol_of_isDecimal (h : IsDecimal s) :
    strtol 10 s = (saturate64 (ofDigits 10 s), s.length) := by
  obtain ⟨hne, hd⟩ := h
  obtain ⟨c, t, rfl⟩ := List.exists_cons_of_ne_nil hne
  have hc := hd c (by simp)
  have hws : (c :: t).takeWhile isSpace = [] := by
    simp [List.takeWhile, not_isSpace_of_isDigit hc]
  have hsign : ¬ (c = 43 ∨ c = 45) := by
    rintro (rfl | rfl) <;> exact absurd hc (by decide)
  have hds : (c :: t).takeWhile (fun c => decide (digitValue c < 10)) = c :: t :=
    List.takeWhile_eq_self_iff.mpr fun d hdm => by simpa using digitValue_lt_of_isDigit (hd d hdm)
  have h43 : c ≠ 43 := fun h => hsign (.inl h)
  have h45 : c ≠ 45 := fun h => hsign (.inr h)
  simp only [strtol, hws, baseOf]
  simp [h43, h45, hds]

/-! ## Numbers with a sign -/

/-- Blanks, an optional sign and digits. -/
structure Spells (w : Bytes) (z : ℤ) : Prop where
  parts : ∃ ws sign ds, w = ws ++ (sign ++ ds) ∧ (∀ c ∈ ws, isSpace c) ∧
    (sign = [] ∨ sign = [43] ∨ sign = [45]) ∧ IsDecimal ds ∧
    z = if sign = [45] then -(ofDigits 10 ds : ℤ) else ofDigits 10 ds

theorem digitValue_lt_ten_iff : digitValue c < 10 ↔ isDigit c := by
  refine ⟨fun h => ?_, digitValue_lt_of_isDigit⟩
  by_contra hnot
  rw [digitValue, if_neg hnot] at h
  have hle : ∀ a b : UInt8, a ≤ b ↔ a.toNat ≤ b.toNat := fun a b => Iff.rfl
  split_ifs at h with hlow hup
  · have h97 : 97 ≤ c.toNat := hlow.1
    omega
  · have h65 : 65 ≤ c.toNat := hup.1
    omega
  · omega

/-- A byte at which a number ends. -/
def StopsNumber (t : Bytes) : Prop := ∀ c, t.head? = some c → ¬ isDigit c

theorem takeWhile_append_stop {p : UInt8 → Bool} {u t : Bytes} (hu : ∀ c ∈ u, p c = true)
    (ht : ∀ c, t.head? = some c → p c = false) : (u ++ t).takeWhile p = u := by
  rw [List.takeWhile_append_of_pos hu]
  cases t with
  | nil => simp
  | cons c t => simp [ht c rfl]

/-- `strtol` reads a number and stops behind it. -/
theorem Spells.strtol_eq (h : Spells w z) {t : Bytes} (ht : StopsNumber t) :
    strtol 10 (w ++ t) = (saturate64 z, w.length) := by
  obtain ⟨ws, sign, ds, rfl, hws, hsign, ⟨hne, hds⟩, rfl⟩ := h.parts
  obtain ⟨d, ds', hd⟩ := List.exists_cons_of_ne_nil hne
  have hdigit : isDigit d := hds d (by rw [hd]; exact List.mem_cons_self)
  have hd43 : d ≠ 43 := by
    rintro rfl
    exact absurd hdigit (by decide)
  have hd45 : d ≠ 45 := by
    rintro rfl
    exact absurd hdigit (by decide)
  have hblank : (ws ++ (sign ++ ds) ++ t).takeWhile isSpace = ws := by
    rw [List.append_assoc]
    refine takeWhile_append_stop hws fun c hc => ?_
    have hc : c = 43 ∨ c = 45 ∨ isDigit c := by
      rcases hsign with rfl | rfl | rfl
      · rw [hd] at hc
        cases hc
        exact .inr (.inr hdigit)
      · cases hc
        exact .inl rfl
      · cases hc
        exact .inr (.inl rfl)
    rcases hc with rfl | rfl | hc
    · decide
    · decide
    · simpa using not_isSpace_of_isDigit hc
  have hdigits : (ds ++ t).takeWhile (fun c => decide (digitValue c < 10)) = ds := by
    refine takeWhile_append_stop (fun c hc => ?_) fun c hc => ?_
    · simpa using digitValue_lt_of_isDigit (hds c hc)
    · simpa using mt digitValue_lt_ten_iff.mp (ht c hc)
  have hdrop : (ws ++ (sign ++ ds) ++ t).drop ws.length = sign ++ (ds ++ t) := by simp
  have hlen : (if (sign ++ (ds ++ t)).head? = some 43 ∨ (sign ++ (ds ++ t)).head? = some 45 then 1
      else 0) = sign.length := by
    rcases hsign with rfl | rfl | rfl
    · simp [hd, hd43, hd45]
    · rfl
    · rfl
  have hneg : (sign ++ (ds ++ t)).head? = some 45 ↔ sign = [45] := by
    rcases hsign with rfl | rfl | rfl
    · simp [hd, hd45]
    · simp
    · simp
  have hbase : ∀ u, baseOf 10 u = (10, 0) := fun _ => rfl
  unfold strtol
  simp only [hblank, hdrop, hlen, hbase, List.drop_left, List.drop_zero, hdigits]
  simp only [hneg]
  rw [if_neg hne, List.length_append, List.length_append, Nat.add_zero, Nat.add_assoc]

/-- What `strtol` read is a number, unless it read nothing. -/
theorem exists_spells_of_strtol (h : (strtol 10 s).2 ≠ 0) :
    ∃ w t z, s = w ++ t ∧ Spells w z ∧ StopsNumber t ∧ strtol 10 s = (saturate64 z, w.length) := by
  obtain ⟨u, hu⟩ : ∃ u, u = s.drop (s.takeWhile isSpace).length := ⟨_, rfl⟩
  obtain ⟨k, hk⟩ : ∃ k, k = if u.head? = some 43 ∨ u.head? = some 45 then 1 else 0 := ⟨_, rfl⟩
  have hsign : u.take k = [] ∨ u.take k = [43] ∨ u.take k = [45] := by
    rw [hk]
    split_ifs with hhead
    · cases u with
      | nil => simp
      | cons c u => rcases hhead with hhead | hhead <;> cases hhead <;> simp
    · exact .inl rfl
  have hds : (u.drop k).takeWhile (fun c => decide (digitValue c < 10)) ≠ [] := by
    intro hnil
    refine h ?_
    rw [hk] at hnil
    unfold strtol
    simp only [show ∀ u, baseOf 10 u = (10, 0) from fun _ => rfl, ← hu, List.drop_zero]
    rw [if_pos hnil]
  obtain ⟨ds, hdsk⟩ : ∃ ds, ds = (u.drop k).takeWhile (fun c => decide (digitValue c < 10)) :=
    ⟨_, rfl⟩
  have hstop : StopsNumber ((u.drop k).dropWhile fun c => decide (digitValue c < 10)) := by
    intro c hc hdigit
    have hnot := List.head?_dropWhile_not (fun c => decide (digitValue c < 10)) (u.drop k)
    rw [hc] at hnot
    simp [digitValue_lt_ten_iff.mpr hdigit] at hnot
  have hspells : Spells (s.takeWhile isSpace ++ (u.take k ++ ds))
      (if u.take k = [45] then -(ofDigits 10 ds : ℤ) else ofDigits 10 ds) := by
    refine ⟨_, _, _, rfl, fun c hc => List.mem_takeWhile_imp hc, hsign, ⟨hdsk ▸ hds, ?_⟩, rfl⟩
    intro c hc
    rw [hdsk] at hc
    exact digitValue_lt_ten_iff.mp (by simpa using List.mem_takeWhile_imp hc)
  have hsplit : s = s.takeWhile isSpace ++ (u.take k ++ ds) ++
      (u.drop k).dropWhile fun c => decide (digitValue c < 10) := by
    have hdrop := @List.drop_left _ (s.takeWhile isSpace) (s.dropWhile isSpace)
    rw [List.takeWhile_append_dropWhile] at hdrop
    rw [List.append_assoc, List.append_assoc, hdsk, List.takeWhile_append_dropWhile,
      List.take_append_drop, hu, hdrop, List.takeWhile_append_dropWhile]
  refine ⟨_, _, _, hsplit, hspells, hstop, ?_⟩
  conv_lhs => rw [hsplit]
  exact hspells.strtol_eq hstop

theorem strtol_eq_zero (h : (strtol 10 s).2 = 0) : (strtol 10 s).1 = 0 := by
  unfold strtol at h ⊢
  dsimp only at h ⊢
  rw [apply_ite Prod.snd] at h
  rw [apply_ite Prod.fst]
  refine if_pos ?_
  by_contra hds
  rw [if_neg hds] at h
  exact hds (List.length_eq_zero_iff.mp (Nat.add_eq_zero_iff.mp h).2)

theorem Spells.minus {ds : Bytes} (h : IsDecimal ds) :
    Spells (45 :: ds) (-(ofDigits 10 ds : ℤ)) :=
  ⟨⟨[], [45], ds, rfl, by simp, .inr (.inr rfl), h, by simp⟩⟩

theorem Spells.ne_nil (h : Spells w z) : w ≠ [] := by
  obtain ⟨ws, sign, ds, rfl, -, -, ⟨hne, -⟩, -⟩ := h.parts
  simp [hne]

/-- A number without `-` is not negative. -/
theorem Spells.exists_nat (h : Spells w z) (h45 : 45 ∉ w) : ∃ a : ℕ, z = a := by
  obtain ⟨ws, sign, ds, rfl, -, -, -, rfl⟩ := h.parts
  refine ⟨ofDigits 10 ds, if_neg ?_⟩
  rintro rfl
  simp at h45

/-- A number that starts with `-` has its digits behind it. -/
theorem Spells.exists_digits (h : Spells w z) (h45 : w.head? = some 45) :
    ∃ ds, w = 45 :: ds ∧ IsDecimal ds ∧ z = -(ofDigits 10 ds : ℤ) := by
  obtain ⟨ws, sign, ds, rfl, hws, hsign, hds, rfl⟩ := h.parts
  cases ws with
  | cons c ws =>
    cases h45
    exact absurd (hws 45 List.mem_cons_self) (by decide)
  | nil =>
    rcases hsign with rfl | rfl | rfl
    · have hmem := List.mem_of_mem_head? (show 45 ∈ ds.head? from h45)
      exact absurd (hds.2 45 hmem) (by decide)
    · cases h45
    · exact ⟨ds, rfl, hds, if_pos rfl⟩

theorem itostr_ne_nil (n : ℕ) : itostr n ≠ [] := by
  simp [itostr, Nat.toDigits_ne_nil]

theorem isDigit_digitChar {d : ℕ} (h : d < 10) :
    isDigit (Nat.digitChar d).toUInt8 ∧ digitValue (Nat.digitChar d).toUInt8 = d := by
  interval_cases d <;> decide

theorem itostr_eq (n : ℕ) :
    itostr n = (if n < 10 then [] else itostr (n / 10)) ++ [(Nat.digitChar (n % 10)).toUInt8] := by
  rw [itostr, Nat.toDigits_eq_if (by decide)]
  split_ifs with h
  · simp [Nat.mod_eq_of_lt h]
  · simp [itostr]

theorem ofDigits_itostr (n : ℕ) : IsDecimal (itostr n) ∧ ofDigits 10 (itostr n) = n := by
  induction n using Nat.strong_induction_on with
  | _ n ih =>
    obtain ⟨hdigit, hvalue⟩ := isDigit_digitChar (Nat.mod_lt n (by decide : 10 > 0))
    refine ⟨⟨itostr_ne_nil n, ?_⟩, ?_⟩ <;> rw [itostr_eq]
    · intro c hc
      rcases List.mem_append.mp hc with hc | hc
      · split_ifs at hc with h
        · cases hc
        · exact (ih (n / 10) (by omega)).1.2 c hc
      · rw [List.mem_singleton.mp hc]
        exact hdigit
    · unfold ofDigits
      rw [List.foldl_append, List.foldl_cons, List.foldl_nil, hvalue]
      split_ifs with h
      · simp only [List.foldl_nil]
        omega
      · have hrec := (ih (n / 10) (by omega)).2
        unfold ofDigits at hrec
        rw [hrec]
        omega

/-- A written number other than zero starts with another digit. -/
theorem head?_itostr (hn : 0 < n) : (itostr n).head? ≠ some 48 := by
  induction n using Nat.strong_induction_on with
  | _ n ih =>
    rw [itostr_eq]
    split_ifs with h
    · have hdigit : ∀ d < 10, 0 < d → (Nat.digitChar d).toUInt8 ≠ 48 := by decide
      rw [Nat.mod_eq_of_lt h]
      simpa using hdigit n h hn
    · rw [List.head?_append_of_ne_nil _ (itostr_ne_nil _)]
      exact ih (n / 10) (by omega) (by omega)

theorem strtol_zero_of_head? (h : IsDecimal s) (hhead : s.head? ≠ some 48) :
    strtol 0 s = (saturate64 (ofDigits 10 s), s.length) := by
  rw [← strtol_of_isDecimal h]
  obtain ⟨hne, hd⟩ := h
  obtain ⟨c, t, rfl⟩ := List.exists_cons_of_ne_nil hne
  have hc := hd c List.mem_cons_self
  have h48 : c ≠ 48 := by simpa using hhead
  have hws : (c :: t).takeWhile isSpace = [] := by
    simp [List.takeWhile, not_isSpace_of_isDigit hc]
  have hsign : ¬ (c = 43 ∨ c = 45) := by
    rintro (rfl | rfl) <;> exact absurd hc (by decide)
  have h43 : c ≠ 43 := fun h => hsign (.inl h)
  have h45 : c ≠ 45 := fun h => hsign (.inr h)
  have hbase : baseOf 0 (c :: t) = (10, 0) := by
    unfold baseOf
    split <;> simp_all
  have hbase10 : baseOf 10 (c :: t) = (10, 0) := rfl
  simp only [strtol, hws]
  simp [h43, h45, hbase, hbase10]

/-- `strtol` reads a written number. -/
theorem strtol_itostr (hn : 0 < n) (h : n < 2 ^ 63) :
    strtol 0 (itostr n) = ((n : ℤ), (itostr n).length) := by
  obtain ⟨hdecimal, hvalue⟩ := ofDigits_itostr n
  rw [strtol_zero_of_head? hdecimal (head?_itostr hn), hvalue, saturate64_of_lt h]

end CString
