import Lighttpd.AccesslogWrite

/-!
# Fractions of a second in the access log

A fraction is rounded up to its unit and written backwards over as many zeros as it is wide.
`writeDigits_replicate` says what the loop leaves: the last digits of the number over the
zeros, and the digits before those wherever the pointer goes next. Rounded up to a full
second the number has one digit more, and `logField_fraction_iff` says what then becomes of
the byte in front.
-/

namespace Lighttpd

open CString

/-! ## Digits over zeros -/

/-- A decimal digit. -/
def fracDigit (d : ℕ) : UInt8 := UInt8.ofNat (d % 10) + 48

/-- The last `w` decimal digits of a number. -/
def padDigits : ℕ → ℕ → Bytes
  | 0, _ => []
  | w + 1, n => padDigits w (n / 10) ++ [fracDigit n]

@[simp] theorem length_padDigits : ∀ w n : ℕ, (padDigits w n).length = w
  | 0, _ => rfl
  | w + 1, n => by simp [padDigits, length_padDigits w]

theorem padDigits_zero : ∀ w : ℕ, padDigits w 0 = List.replicate w 48
  | 0 => rfl
  | w + 1 => by
    rw [padDigits, Nat.zero_div, padDigits_zero w, List.replicate_succ']
    rfl

theorem fracDigit_toNat (d : ℕ) : (fracDigit d).toNat = d % 10 + 48 := by
  have hd : d % 10 < 10 := Nat.mod_lt _ (by decide)
  have h48 : (48 : UInt8).toNat = 48 := rfl
  rw [fracDigit, UInt8.toNat_add, UInt8.toNat_ofNat', h48]
  omega

theorem isDigit_fracDigit (d : ℕ) : isDigit (fracDigit d) := by
  have h := fracDigit_toNat d
  have hd : d % 10 < 10 := Nat.mod_lt _ (by decide)
  simp only [isDigit, Bool.and_eq_true, decide_eq_true_eq, UInt8.le_iff_toNat_le, h,
    UInt8.reduceToNat]
  omega

theorem digitValue_fracDigit (d : ℕ) : digitValue (fracDigit d) = d % 10 := by
  rw [digitValue, if_pos (isDigit_fracDigit d), fracDigit_toNat]
  omega

theorem isDigit_of_mem_padDigits : ∀ {w n : ℕ} {c : UInt8}, c ∈ padDigits w n → isDigit c
  | 0, _, _, h => by simp [padDigits] at h
  | w + 1, n, c, h => by
    rcases List.mem_append.mp h with h | h
    · exact isDigit_of_mem_padDigits h
    · rw [List.mem_singleton.mp h]
      exact isDigit_fracDigit n

theorem ofDigits_padDigits : ∀ w n : ℕ, ofDigits 10 (padDigits w n) = n % 10 ^ w
  | 0, n => by simp [padDigits, ofDigits, Nat.mod_one]
  | w + 1, n => by
    have ih := ofDigits_padDigits w (n / 10)
    rw [padDigits, ofDigits, List.foldl_append, ← ofDigits, ih]
    simp only [List.foldl_cons, List.foldl_nil, digitValue_fracDigit]
    rw [pow_succ, mul_comm (10 ^ w) 10, Nat.mod_mul]
    omega

theorem writeDigits_zero (b : Bytes) : ∀ p : ℕ, writeDigits 0 b p = some b
  | 0 => rfl
  | _ + 1 => rfl

/-- The digits that fit go over the zeros; what is left of the number is written on from
there. -/
theorem writeDigits_replicate : ∀ (w n : ℕ) (b t : Bytes),
    writeDigits n (b ++ List.replicate w 48 ++ t) (b.length + w) =
      writeDigits (n / 10 ^ w) (b ++ padDigits w n ++ t) b.length
  | 0, n, b, t => by simp [padDigits]
  | w + 1, n, b, t => by
    by_cases hn : n = 0
    · rw [hn, Nat.zero_div, padDigits_zero, writeDigits_zero, writeDigits_zero]
    · have hset : (b ++ List.replicate (w + 1) 48 ++ t).set (b.length + w) (fracDigit n) =
          b ++ List.replicate w 48 ++ fracDigit n :: t := by
        rw [List.replicate_succ', ← List.append_assoc, List.append_assoc _ [48] t,
          List.set_append_right _ _ (by simp)]
        simp
      have hstep : writeDigits n (b ++ List.replicate (w + 1) 48 ++ t) (b.length + (w + 1)) =
          writeDigits (n / 10) (b ++ List.replicate w 48 ++ fracDigit n :: t) (b.length + w) := by
        rw [← hset, ← Nat.add_assoc, writeDigits, if_neg hn]
        rfl
      rw [hstep, writeDigits_replicate w (n / 10) b (fracDigit n :: t), padDigits,
        Nat.div_div_eq_div_mul, ← pow_succ']
      simp

/-! ## What a fraction adds -/

/-- A unit that is a fraction of a second. -/
def TimeUnit.IsFraction (unit : TimeUnit) : Prop :=
  unit = .msecFrac ∨ unit = .usecFrac ∨ unit = .nsecFrac

/-- The nanoseconds are rounded up to a full second. -/
def TimeUnit.Carries (unit : TimeUnit) (ns : ℕ) : Prop :=
  (unit = .msecFrac ∧ 999000000 < ns) ∨ (unit = .usecFrac ∧ 999999000 < ns)

instance (unit : TimeUnit) (ns : ℕ) : Decidable (unit.Carries ns) :=
  inferInstanceAs (Decidable (_ ∨ _))

variable {unit : TimeUnit} {ns : ℕ}

theorem fractionCeil_of_carries (hns : ns ≤ 999999999) (h : unit.Carries ns) :
    fractionCeil unit ns = 10 ^ fractionWidth unit := by
  rcases h with ⟨rfl, h⟩ | ⟨rfl, h⟩
  · simp only [fractionCeil, fractionWidth]
    omega
  · simp only [fractionCeil, fractionWidth]
    omega

theorem fractionCeil_lt (hunit : unit.IsFraction) (hns : ns ≤ 999999999) (h : ¬ unit.Carries ns) :
    fractionCeil unit ns < 10 ^ fractionWidth unit := by
  rcases hunit with rfl | rfl | rfl
  · have : ns ≤ 999000000 := not_lt.mp fun hlt => h (.inl ⟨rfl, hlt⟩)
    simp only [fractionCeil, fractionWidth]
    omega
  · have : ns ≤ 999999000 := not_lt.mp fun hlt => h (.inr ⟨rfl, hlt⟩)
    simp only [fractionCeil, fractionWidth]
    omega
  · simp only [fractionCeil, fractionWidth]
    omega

theorem appendFraction_of_not_carries (hunit : unit.IsFraction) (hns : ns ≤ 999999999)
    (h : ¬ unit.Carries ns) (b : Bytes) :
    appendFraction unit ns b =
      some (b ++ padDigits (fractionWidth unit) (fractionCeil unit ns)) := by
  have hw := writeDigits_replicate (fractionWidth unit) (fractionCeil unit ns) b []
  rw [Nat.div_eq_of_lt (fractionCeil_lt hunit hns h), writeDigits_zero, List.append_nil,
    List.append_nil] at hw
  rw [appendFraction, List.length_append, List.length_replicate]
  exact hw

/-- With a carry the first digit goes over the last byte of the buffer. -/
theorem appendFraction_of_carries (hns : ns ≤ 999999999) (h : unit.Carries ns) (b : Bytes) :
    appendFraction unit ns b =
      if b = [] then none
      else some (b.dropLast ++ 49 :: List.replicate (fractionWidth unit) 48) := by
  have hw := writeDigits_replicate (fractionWidth unit) (fractionCeil unit ns) b []
  have hpad : padDigits (fractionWidth unit) (10 ^ fractionWidth unit) =
      List.replicate (fractionWidth unit) 48 := by
    rcases h with ⟨rfl, -⟩ | ⟨rfl, -⟩ <;> rfl
  rw [fractionCeil_of_carries hns h, Nat.div_self (by positivity), List.append_nil,
    List.append_nil, hpad] at hw
  rw [appendFraction, List.length_append, List.length_replicate, fractionCeil_of_carries hns h]
  refine hw.trans ?_
  rcases List.eq_nil_or_concat b with rfl | ⟨b, c, rfl⟩
  · rfl
  · have hset : (b ++ [c] ++ List.replicate (fractionWidth unit) 48).set b.length 49 =
        b ++ 49 :: List.replicate (fractionWidth unit) 48 := by
      rw [List.append_assoc, List.set_append_right _ _ le_rfl]
      simp
    rw [if_neg (by simp), List.concat_eq_append, List.dropLast_concat, ← hset,
      List.length_append, List.length_singleton, writeDigits, if_neg one_ne_zero]
    exact writeDigits_zero _ _

section Field

variable (env : LogEnv) (con : LoggedCon)

/-- A field adds the digits of a fraction and leaves the log as it was. -/
def AddsFraction (s : Buffer) (opt : FormatOpt) (unit : TimeUnit) (st : LogState) : Prop :=
  ∃ ds st', logField env con st (.format .timestamp s opt) = some st' ∧
    st'.logbuffer = st.logbuffer ++ ds ∧ ds.length = fractionWidth unit ∧
    (∀ c ∈ ds, isDigit c) ∧
    ofDigits 10 ds =
      fractionCeil unit (st.fieldTime env con opt).2.2 % 10 ^ fractionWidth unit

variable {env con}

theorem logField_fraction {opt : FormatOpt} (hopt : opt.timeUnit = some unit)
    (hunit : unit.IsFraction) (s : Buffer) (st : LogState) :
    logField env con st (.format .timestamp s opt) =
      (appendFraction unit (st.fieldTime env con opt).2.2 st.logbuffer).map fun b =>
        { (st.fieldTime env con opt).1 with logbuffer := b } := by
  have hbuf : (st.fieldTime env con opt).1.logbuffer = st.logbuffer := by
    unfold LogState.fieldTime LogState.readClock
    split_ifs <;> rfl
  rw [← hbuf]
  rcases hunit with rfl | rfl | rfl <;> simp only [logField, logTimestamp, hopt]

/-- The digits of a fraction are added, and nothing else changes, exactly when the
nanoseconds are not rounded up to a full second, or the byte in front is a `1` already. -/
theorem logField_fraction_iff {s : Buffer} {opt : FormatOpt} {unit : TimeUnit}
    (hopt : opt.timeUnit = some unit) (hunit : unit.IsFraction) {st : LogState}
    (hns : (st.fieldTime env con opt).2.2 ≤ 999999999) :
    AddsFraction env con s opt unit st ↔
      ¬ unit.Carries (st.fieldTime env con opt).2.2 ∨ st.logbuffer.getLast? = some 49 := by
  rw [AddsFraction, logField_fraction hopt hunit]
  by_cases hcarry : unit.Carries (st.fieldTime env con opt).2.2
  · rw [appendFraction_of_carries hns hcarry]
    simp only [hcarry, not_true_eq_false, false_or]
    rcases List.eq_nil_or_concat st.logbuffer with hb | ⟨b, c, hb⟩
    · simp [hb]
    · rw [List.concat_eq_append] at hb
      have hlast : st.logbuffer.getLast? = some c := by simp [hb]
      rw [hlast, if_neg (by simp [hb])]
      constructor
      · rintro ⟨ds, st', hst', hds, -⟩
        obtain rfl := Option.some.inj (by simpa using hst')
        simp only [hb, List.dropLast_concat, List.append_assoc, List.append_cancel_left_eq,
          List.singleton_append, List.cons.injEq] at hds
        rw [hds.1]
      · intro hc
        obtain rfl := Option.some.inj hc
        refine ⟨List.replicate (fractionWidth unit) 48, _, rfl, ?_, by simp, ?_, ?_⟩
        · simp [hb]
        · intro d hd
          rw [(List.mem_replicate.mp hd).2]
          decide
        · rw [fractionCeil_of_carries hns hcarry, Nat.mod_self, ← padDigits_zero,
            ofDigits_padDigits, Nat.zero_mod]
  · simp only [hcarry, not_false_eq_true, true_or, iff_true]
    rw [appendFraction_of_not_carries hunit hns hcarry]
    exact ⟨_, _, rfl, rfl, length_padDigits _ _, fun c hc => isDigit_of_mem_padDigits hc,
      ofDigits_padDigits _ _⟩

end Field

/-- A request that set nothing. -/
def bareCon : LoggedCon where
  requestStart := 0
  requestStartHp := (0, 0)
  dstAddrBuf := []
  dstPort := 0
  environment := []
  requestHeaders := []
  responseHeaders := []
  requestLine := none
  httpStatus := 200
  httpVersion := .http11
  httpMethod := .get
  bytesWritten := 0
  bytesHeader := 0
  bytesRead := 0
  physicalPath := none
  serverName := none
  authority := none
  query := none
  pathRaw := none
  srvToken := []
  responseEnd := true
  keepAlive := true
  requestCount := 1

/-- One second and some nanoseconds after the epoch. -/
def logEnvAt (ns : ℕ) : LogEnv := ⟨1, (1, ns), fun _ _ => [], fun _ => 0, 80⟩

/-- An empty log buffer. -/
def emptyLog : LogState := ⟨[], [], 0, false, (0, 0)⟩

/-- The options of the field in `%\x7bmsec_frac\x7dt`. -/
def msecFracOpt : FormatOpt := ⟨false, some .msecFrac, false⟩

theorem logAccessOpen_msecFrac : logAccessOpen (str "%\x7bmsec_frac\x7dt") =
    some [.format .timestamp (some (str "msec_frac")) msecFracOpt] := by
  decide

theorem logField_fraction_iff_msecFrac :
    AddsFraction (logEnvAt 1) bareCon (some (str "msec_frac")) msecFracOpt .msecFrac emptyLog ↔
      ¬ TimeUnit.msecFrac.Carries 1 ∨ emptyLog.logbuffer.getLast? = some 49 :=
  logField_fraction_iff rfl (.inl rfl) (by decide)

/-- In the last millisecond of a second the first field writes before the log buffer. -/
theorem not_addsFraction : ¬ ∀ format fields, logAccessOpen format = some fields →
    ∀ s opt unit, FormatField.format .timestamp s opt ∈ fields → opt.timeUnit = some unit →
      unit.IsFraction → ∀ env con st, (LogState.fieldTime env con opt st).2.2 ≤ 999999999 →
        AddsFraction env con s opt unit st := by
  intro h
  obtain ⟨ds, st', hst', -⟩ := h _ _ logAccessOpen_msecFrac _ _ .msecFrac
    (List.mem_singleton.mpr rfl) rfl (.inl rfl) (logEnvAt 999000001) bareCon emptyLog (by decide)
  have hnone : logField (logEnvAt 999000001) bareCon emptyLog
      (.format .timestamp (some (str "msec_frac")) msecFracOpt) = none := rfl
  rw [hnone] at hst'
  cases hst'

end Lighttpd
