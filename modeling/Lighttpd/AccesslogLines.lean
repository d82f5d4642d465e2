import Lighttpd.AccesslogCookie

/-!
# Lines of the access log

Every field appends a text, except that a fraction rounded up to a full second replaces the
byte in front of it by a `1` (`logField_eq`). `logFields_eq` puts the texts of a format
together. Some fields copy a string of the request or of the configuration as it is, and
`written_printable` says that all others write printable bytes, so that a line is one line
exactly when the copied strings hold no control byte (`logAccessWrite_oneLine_iff`).
-/

namespace Lighttpd

open CString

/-- A byte that the log of a line does not hold. -/
def isControl (c : UInt8) : Bool := c < 32 || c = 127

/-- What a field writes: its text, whether it replaces the byte in front by a `1`, and the
string it copies, if it copies one. -/
structure LogPiece where
  text : Bytes
  carries : Bool
  copied : Option Bytes
  deriving DecidableEq, Repr

/-- Writes a text behind a log. -/
def LogPiece.write (b : Bytes) (p : LogPiece) : Option Bytes :=
  if p.carries then if b = [] then none else some (b.dropLast ++ 49 :: p.text)
  else some (b ++ p.text)

/-- The first text that is not empty replaces the byte in front. -/
def carriesFirst : List LogPiece → Bool
  | [] => false
  | p :: ps => if p.carries then true else if p.text = [] then carriesFirst ps else false

/-- What is left of a text with others behind it. -/
def keptText (text : Bytes) (ps : List LogPiece) : Bytes :=
  if carriesFirst ps then text.dropLast else text

/-- The texts once all are written. -/
def settledText : List LogPiece → Bytes
  | [] => []
  | p :: ps =>
    keptText p.text ps ++ (if carriesFirst ps ∧ p.text ≠ [] then [49] else []) ++ settledText ps

theorem foldlM_write : ∀ (ps : List LogPiece) (b : Bytes),
    (∀ p ∈ ps, p.carries = true → p.text ≠ []) →
      ps.foldlM LogPiece.write b =
        if carriesFirst ps then if b = [] then none else some (b.dropLast ++ 49 :: settledText ps)
        else some (b ++ settledText ps)
  | [], b, _ => by simp [carriesFirst, settledText]
  | p :: ps, b, hps => by
    have ih := fun b => foldlM_write ps b fun q hq => hps q (List.mem_cons_of_mem _ hq)
    rw [List.foldlM_cons, LogPiece.write, carriesFirst, settledText, keptText]
    cases hp : p.carries with
    | true =>
      have htext : p.text ≠ [] := hps p List.mem_cons_self hp
      by_cases hb : b = []
      · simp [hb]
      · cases hnext : carriesFirst ps with
        | true =>
          have hlast : (b.dropLast ++ 49 :: p.text).dropLast =
              b.dropLast ++ 49 :: p.text.dropLast := by
            rw [List.dropLast_append_cons, List.dropLast_cons_of_ne_nil htext]
          simp [hb, ih, hnext, hlast, htext]
        | false => simp [hb, ih, hnext]
    | false =>
      by_cases htext : p.text = []
      · simp [htext, ih]
      · cases hnext : carriesFirst ps with
        | true =>
          have hlast : (b ++ p.text).dropLast = b ++ p.text.dropLast :=
            List.dropLast_append_of_ne_nil htext
          simp [htext, ih, hnext, hlast]
        | false => simp [htext, ih, hnext]

/-- The settled texts hold a control byte only where a text that is left does. -/
theorem settledText_clean_iff : ∀ ps : List LogPiece,
    (∀ c ∈ settledText ps, isControl c = false) ↔
      ∀ pre p post, ps = pre ++ p :: post → ∀ c ∈ keptText p.text post, isControl c = false
  | [] => by simp [settledText]
  | p :: ps => by
    have ih := settledText_clean_iff ps
    have hone : ∀ c ∈ (if carriesFirst ps ∧ p.text ≠ [] then [(49 : UInt8)] else []),
        isControl c = false := by
      intro c hc
      split_ifs at hc
      · rw [List.mem_singleton.mp hc]
        decide
      · cases hc
    constructor
    · intro h pre q post heq c hc
      rcases List.cons_eq_append_iff.mp heq with ⟨rfl, hq⟩ | ⟨pre', rfl, hps⟩
      · obtain ⟨rfl, rfl⟩ := List.cons.inj hq
        exact h c (by simp [settledText, hc])
      · exact ih.mp (fun d hd => h d (by simp [settledText, hd])) pre' q post hps c hc
    · intro h c hc
      rcases List.mem_append.mp hc with hc | hc
      · rcases List.mem_append.mp hc with hc | hc
        · exact h [] p ps rfl c hc
        · exact hone c hc
      · exact ih.mpr (fun pre q post heq => h (p :: pre) q post (by rw [heq]; rfl)) c hc

variable {text : Bytes}

section Fields

variable (env : LogEnv) (con : LoggedCon)

/-! ## Texts of the fields -/

/-- The text of a timestamp, cached or not. -/
def timestampCopied (s : Buffer) (opt : FormatOpt) (st : LogState) : Bytes :=
  if ¬ opt.timeBegin ∧ env.curTs = st.lastTs then st.tsStr
  else timestampText env s (if opt.timeBegin then con.requestStart else env.curTs)

/-- The string that a field copies as it is. -/
def copiedText (st : LogState) : FormatField → Option Bytes
  | .format .filename _ _ => some (orDash con.physicalPath)
  | .format .serverName _ _ => some (orDash con.serverName)
  | .format .remoteAddr _ _ | .format .remoteHost _ _ => some con.dstAddrBuf
  | .format .localAddr _ _ =>
    some (match srvTokenColon con with
      | some colon => con.srvToken.take colon
      | none => con.srvToken)
  | .format .serverPort _ opt =>
    if opt.portRemote then none
    else (srvTokenColon con).map fun colon => con.srvToken.drop (colon + 1)
  | .format .timestamp s opt =>
    if opt.timeUnit = none then some (timestampCopied env con s opt st) else none
  | _ => none

/-- A field that is a fraction rounded up to a full second. -/
def fieldCarries (st : LogState) : FormatField → Bool
  | .format .timestamp _ opt =>
    match opt.timeUnit with
    | some unit => unit.Carries (st.fieldTime env con opt).2.2
    | none => false
  | _ => false

/-- The state with a log buffer that holds a `1`, behind which every field appends. -/
def LogState.behindOne (st : LogState) : LogState := { st with logbuffer := [49] }

/-- The state after a field behind a `1`. -/
def afterField (st : LogState) (f : FormatField) : LogState :=
  (logField env con st.behindOne f).getD st.behindOne

/-- What a field writes. -/
def fieldPiece (st : LogState) (f : FormatField) : LogPiece :=
  ⟨(afterField env con st f).logbuffer.drop 1, fieldCarries env con st f,
    copiedText env con st f⟩

/-- What the fields of a format write. -/
def logPieces (st : LogState) : List FormatField → List LogPiece
  | [] => []
  | f :: fs => fieldPiece env con st f :: logPieces (afterField env con st f) fs

/-- The scans for cookies stay in the header value. -/
def CookiesInBounds (fields : List FormatField) : Prop :=
  ∀ s opt value, FormatField.format .cookie s opt ∈ fields →
    arrayGetElement con.requestHeaders (str "Cookie") = some value →
      cookieScan s.string (value.string.length + 1) (value.string ++ [0]) ≠ none

variable {env con}

theorem readClock_logbuffer (st : LogState) (b : Bytes) :
    LogState.readClock env { st with logbuffer := b } =
      { st.readClock env with logbuffer := b } := by
  unfold LogState.readClock
  split_ifs <;> rfl

theorem readClock_ts (st : LogState) :
    (st.readClock env).ts = st.ts ∨ (st.readClock env).ts = env.realtime := by
  unfold LogState.readClock
  split_ifs
  · exact .inr rfl
  · exact .inl rfl

theorem fieldTime_logbuffer (st : LogState) (opt : FormatOpt) (b : Bytes) :
    LogState.fieldTime env con opt { st with logbuffer := b } =
      ({ (st.fieldTime env con opt).1 with logbuffer := b }, (st.fieldTime env con opt).2) := by
  unfold LogState.fieldTime
  split_ifs
  · rfl
  · rw [readClock_logbuffer]

theorem fieldTime_ts (st : LogState) (opt : FormatOpt) :
    (st.fieldTime env con opt).1.ts = st.ts ∨ (st.fieldTime env con opt).1.ts = env.realtime := by
  unfold LogState.fieldTime
  split_ifs
  · exact .inl rfl
  · exact readClock_ts st

variable {st : LogState} {f : FormatField} {s : Buffer} {opt : FormatOpt}

theorem fieldTime_le (hstart : con.requestStartHp.2 ≤ 999999999)
    (hclock : env.realtime.2 ≤ 999999999) (hts : st.ts.2 ≤ 999999999) (opt : FormatOpt) :
    (st.fieldTime env con opt).2.2 ≤ 999999999 := by
  unfold LogState.fieldTime
  split_ifs
  · exact hstart
  · have hread : (st.readClock env).ts = st.ts ∨ (st.readClock env).ts = env.realtime :=
      readClock_ts st
    rcases hread with h | h
    · exact h ▸ hts
    · exact h ▸ hclock

/-! ## Printable texts -/

theorem not_isControl {c : UInt8} (h : 32 ≤ c ∧ c ≤ 126) : isControl c = false := by
  have h127 : c ≠ 127 := by
    rintro rfl
    exact absurd h.2 (by decide)
  simp [isControl, h127, UInt8.not_lt.mpr h.1]

theorem not_isControl_of_isDigit {c : UInt8} (h : isDigit c = true) : isControl c = false := by
  simp only [isDigit, Bool.and_eq_true, decide_eq_true_eq] at h
  have h32 : (32 : UInt8) ≤ 48 := by decide
  have h126 : (57 : UInt8) ≤ 126 := by decide
  exact not_isControl ⟨UInt8.le_trans h32 h.1, UInt8.le_trans h.2 h126⟩

/-- A text without control bytes. -/
def Printable (text : Bytes) : Prop := ∀ c ∈ text, isControl c = false

theorem printable_of_all (h : (text.all fun c => !isControl c) = true) :
    Printable text := fun c hc => by
  have hc' := List.all_eq_true.mp h c hc
  simpa using hc'

theorem printable_itostr (n : ℕ) : Printable (itostr n) := fun c hc =>
  not_isControl_of_isDigit ((ofDigits_itostr n).1.2 c hc)

theorem printable_offtostr (n : ℤ) : Printable (offtostr n) := by
  intro c hc
  unfold offtostr at hc
  split_ifs at hc
  · rcases List.mem_cons.mp hc with rfl | hc
    · decide
    · exact printable_itostr _ c hc
  · exact printable_itostr _ c hc

theorem printable_logEscape (s : Bytes) : Printable (logEscape s) := fun _ hc =>
  not_isControl (printable_of_mem_logEscape hc)

theorem printable_padDigits (w n : ℕ) : Printable (padDigits w n) := fun _ hc =>
  not_isControl_of_isDigit (isDigit_of_mem_padDigits hc)

theorem printable_ite {p : Prop} [Decidable p] {s t : Bytes} (hs : Printable s)
    (ht : Printable t) : Printable (if p then s else t) := by
  split_ifs
  · exact hs
  · exact ht

theorem printable_methodName (method : HttpMethod) :
    Printable ((getHttpMethodName method).getD []) := by
  cases method <;> exact printable_of_all (by decide)

/-! ## What a field does -/

variable (env con) in
/-- The text of a field: the string it copies, the text of the format, or printable bytes. -/
def IsFieldText (st : LogState) (f : FormatField) (text : Bytes) : Prop :=
  copiedText env con st f = some text ∨
    (copiedText env con st f = none ∧ ((∃ s, f = .string s ∧ text = s.string) ∨ Printable text))

variable (env con) in
/-- A field appends a text to any log. -/
def AppendsText (st : LogState) (f : FormatField) : Prop :=
  ∃ (st' : LogState) (text : Bytes), (∀ b, logField env con { st with logbuffer := b } f =
      some { st' with logbuffer := b ++ text }) ∧
    IsFieldText env con st f text ∧ (st'.ts = st.ts ∨ st'.ts = env.realtime)

theorem appendsText_of (h : ∀ b, logField env con { st with logbuffer := b } f =
      some ({ st with logbuffer := b }.append text)) (ht : IsFieldText env con st f text) :
    AppendsText env con st f := ⟨st, text, h, ht, .inl rfl⟩

theorem appendsText_nothing
    (h : ∀ b, logField env con { st with logbuffer := b } f = some { st with logbuffer := b })
    (hf : copiedText env con st f = none) : AppendsText env con st f := by
  refine ⟨st, [], fun b => ?_, .inr ⟨hf, .inr (printable_of_all rfl)⟩, .inl rfl⟩
  rw [h b, List.append_nil]

theorem appendsText_escaped (h : ∀ b, logField env con { st with logbuffer := b } f =
      some { st with logbuffer := accesslogAppendEscaped b s })
    (hf : copiedText env con st f = none) : AppendsText env con st f := by
  refine ⟨st, logEscape s.string, fun b => ?_, .inr ⟨hf, .inr (printable_logEscape _)⟩, .inl rfl⟩
  rw [h b, accesslogAppendEscaped_eq]

theorem appendsText_value {value : Option Buffer}
    (h : ∀ b, logField env con { st with logbuffer := b } f =
      some ({ st with logbuffer := b }.appendValue value)) (hf : copiedText env con st f = none) :
    AppendsText env con st f := by
  cases value with
  | some s => exact appendsText_escaped h hf
  | none => exact appendsText_of h (.inr ⟨hf, .inr (printable_of_all (by decide))⟩)

theorem appendsText_time {unit : TimeUnit} (hopt : opt.timeUnit = some unit) (text : ℤ × ℕ → Bytes)
    (htext : ∀ t, Printable (text t)) (h : ∀ st, logField env con st (.format .timestamp s opt) =
      some ((st.fieldTime env con opt).1.append (text (st.fieldTime env con opt).2))) :
    AppendsText env con st (.format .timestamp s opt) := by
  refine ⟨(st.fieldTime env con opt).1, text (st.fieldTime env con opt).2, fun b => ?_,
    .inr ⟨by rw [copiedText, if_neg (by simp [hopt])], .inr (htext _)⟩, fieldTime_ts st opt⟩
  rw [h, fieldTime_logbuffer]
  rfl

theorem appendsText_timestamp (hstart : con.requestStartHp.2 ≤ 999999999)
    (hclock : env.realtime.2 ≤ 999999999) (hts : st.ts.2 ≤ 999999999)
    (hcarry : fieldCarries env con st (.format .timestamp s opt) = false) :
    AppendsText env con st (.format .timestamp s opt) := by
  have hfraction : ∀ unit : TimeUnit, unit.IsFraction → opt.timeUnit = some unit →
      AppendsText env con st (.format .timestamp s opt) := by
    intro unit hunit hopt
    have hno : ¬ unit.Carries (st.fieldTime env con opt).2.2 := by
      simpa [fieldCarries, hopt] using hcarry
    refine ⟨(st.fieldTime env con opt).1, _, fun b => ?_,
      .inr ⟨by rw [copiedText, if_neg (by simp [hopt])], .inr (printable_padDigits
        (fractionWidth unit) (fractionCeil unit (st.fieldTime env con opt).2.2))⟩,
      fieldTime_ts st opt⟩
    rw [logField_fraction hopt hunit, fieldTime_logbuffer,
      appendFraction_of_not_carries hunit (fieldTime_le hstart hclock hts opt) hno]
    rfl
  rcases hopt : opt.timeUnit with _ | unit
  · have hcopied : copiedText env con st (.format .timestamp s opt) =
        some (timestampCopied env con s opt st) := by rw [copiedText, if_pos hopt]
    have hfield : ∀ st, logField env con st (.format .timestamp s opt) =
        logTimestamp env con s opt st := fun st => rfl
    unfold logTimestamp at hfield
    simp only [hopt] at hfield
    by_cases hcache : ¬ opt.timeBegin ∧ env.curTs = st.lastTs
    · refine ⟨st, st.tsStr, fun b => ?_, .inl ?_, .inl rfl⟩
      · rw [hfield, if_pos hcache]
        rfl
      · rw [hcopied, timestampCopied, if_pos hcache]
    · by_cases hbegin : opt.timeBegin = true
      · refine ⟨{ st with tsStr := timestampText env s con.requestStart },
          timestampText env s con.requestStart, fun b => ?_, .inl ?_, .inl rfl⟩
        · rw [hfield, if_neg hcache, if_pos hbegin]
          rfl
        · rw [hcopied, timestampCopied, if_neg hcache, if_pos hbegin]
      · refine ⟨{ st with
            lastTs := env.curTs, newts := true, tsStr := timestampText env s env.curTs },
          timestampText env s env.curTs, fun b => ?_, .inl ?_, .inl rfl⟩
        · rw [hfield, if_neg hcache, if_neg hbegin]
          rfl
        · rw [hcopied, timestampCopied, if_neg hcache, if_neg hbegin]
  · cases unit with
    | sec =>
      have hfield : ∀ b, logField env con { st with logbuffer := b } (.format .timestamp s opt) =
          some ({ st with logbuffer := b }.append
            (offtostr (if opt.timeBegin then con.requestStart else env.curTs))) := fun b => by
        rw [logField, logTimestamp, hopt]
      exact appendsText_of hfield (.inr ⟨by rw [copiedText, if_neg (by simp [hopt])],
        .inr (printable_offtostr _)⟩)
    | msec =>
      exact appendsText_time hopt (fun t => offtostr (t.1 * 1000 + ((t.2 + 999999) / 1000000 : ℕ)))
        (fun t => printable_offtostr _) fun st => by rw [logField, logTimestamp, hopt]
    | usec =>
      exact appendsText_time hopt (fun t => offtostr (t.1 * 1000000 + ((t.2 + 999) / 1000 : ℕ)))
        (fun t => printable_offtostr _) fun st => by rw [logField, logTimestamp, hopt]
    | nsec =>
      exact appendsText_time hopt (fun t => offtostr (t.1 * 1000000000 + t.2))
        (fun t => printable_offtostr _) fun st => by rw [logField, logTimestamp, hopt]
    | msecFrac => exact hfraction _ (.inl rfl) hopt
    | usecFrac => exact hfraction _ (.inr (.inl rfl)) hopt
    | nsecFrac => exact hfraction _ (.inr (.inr rfl)) hopt

theorem appendsText_timeUsed (h : ∀ st, logField env con st f = some (logTimeUsed env con opt st))
    (hf : copiedText env con st f = none) : AppendsText env con st f := by
  by_cases hsec : opt.timeUnit = some .sec
  · have hfield : ∀ b, logField env con { st with logbuffer := b } f =
        some ({ st with logbuffer := b }.append (offtostr (env.curTs - con.requestStart))) :=
      fun b => by rw [h, logTimeUsed, if_pos hsec]
    exact appendsText_of hfield (.inr ⟨hf, .inr (printable_offtostr _)⟩)
  · let tdiff := ((st.readClock env).ts.1 - con.requestStartHp.1) * 1000000000 +
      (((st.readClock env).ts.2 : ℤ) - con.requestStartHp.2)
    refine ⟨st.readClock env, offtostr (
        if tdiff ≤ 0 then -1
        else if opt.timeUnit = some .msec then (tdiff + 999999) / 1000000
        else if opt.timeUnit = some .usec then (tdiff + 999) / 1000
        else tdiff), fun b => ?_, .inr ⟨hf, .inr (printable_offtostr _)⟩, readClock_ts st⟩
    rw [h, logTimeUsed, if_neg hsec, readClock_logbuffer]
    rfl

theorem appendsText_field (hstart : con.requestStartHp.2 ≤ 999999999)
    (hclock : env.realtime.2 ≤ 999999999) (hts : st.ts.2 ≤ 999999999)
    (hcookie : CookiesInBounds con [f]) (hcarry : fieldCarries env con st f = false) :
    AppendsText env con st f := by
  have hone : ∀ t : Bytes, Printable t → ∀ f, copiedText env con st f = none →
      IsFieldText env con st f t := fun t ht f hf => .inr ⟨hf, .inr ht⟩
  rcases f with s | ⟨field, s, opt⟩
  · exact appendsText_of (fun b => rfl) (.inr ⟨rfl, .inl ⟨s, rfl, rfl⟩⟩)
  · cases field with
    | timestamp => exact appendsText_timestamp hstart hclock hts hcarry
    | timeUsed => exact appendsText_timeUsed (fun st => rfl) rfl
    | timeUsedUs => exact appendsText_timeUsed (fun st => rfl) rfl
    | remoteAddr => exact appendsText_of (fun b => rfl) (.inl rfl)
    | remoteHost => exact appendsText_of (fun b => rfl) (.inl rfl)
    | remoteIdent =>
      exact appendsText_of (fun b => rfl) (hone _ (printable_of_all (by decide)) _ rfl)
    | remoteUser => exact appendsText_value (fun b => rfl) rfl
    | requestLine => exact appendsText_escaped (fun b => rfl) rfl
    | status => exact appendsText_of (fun b => rfl) (hone _ (printable_offtostr _) _ rfl)
    | bytesOutNoHeader =>
      exact appendsText_of (fun b => rfl)
        (hone _ (printable_ite (printable_offtostr _) (printable_of_all (by decide))) _ rfl)
    | header => exact appendsText_value (fun b => rfl) rfl
    | responseHeader => exact appendsText_value (fun b => rfl) rfl
    | env => exact appendsText_value (fun b => rfl) rfl
    | note => exact appendsText_value (fun b => rfl) rfl
    | filename => exact appendsText_of (fun b => rfl) (.inl rfl)
    | bytesOut =>
      exact appendsText_of (fun b => rfl)
        (hone _ (printable_ite (printable_offtostr _) (printable_of_all (by decide))) _ rfl)
    | bytesIn =>
      exact appendsText_of (fun b => rfl)
        (hone _ (printable_ite (printable_offtostr _) (printable_of_all (by decide))) _ rfl)
    | serverName => exact appendsText_of (fun b => rfl) (.inl rfl)
    | httpHost => exact appendsText_value (fun b => rfl) rfl
    | requestProtocol =>
      exact appendsText_of (fun b => rfl)
        (hone _ (printable_ite (printable_of_all (by decide)) (printable_of_all (by decide))) _ rfl)
    | requestMethod =>
      exact appendsText_of (fun b => rfl) (hone _ (printable_methodName _) _ rfl)
    | percent => exact appendsText_of (fun b => rfl) (hone _ (printable_of_all (by decide)) _ rfl)
    | localAddr => exact appendsText_of (fun b => rfl) (.inl rfl)
    | serverPort =>
      by_cases hport : opt.portRemote = true
      · have hfield : ∀ b, logField env con { st with logbuffer := b }
              (.format .serverPort s opt) =
                some ({ st with logbuffer := b }.append (itostr con.dstPort)) := fun b => by
          simp only [logField, if_pos hport]
        exact appendsText_of hfield
          (hone _ (printable_itostr _) _ (by rw [copiedText, if_pos hport]))
      · rcases hcolon : srvTokenColon con with _ | colon
        · have hfield : ∀ b, logField env con { st with logbuffer := b }
              (.format .serverPort s opt) =
                some ({ st with logbuffer := b }.append (itostr env.port)) := fun b => by
            simp only [logField, if_neg hport, hcolon]
          exact appendsText_of hfield
            (hone _ (printable_itostr _) _ (by rw [copiedText, if_neg hport, hcolon]; rfl))
        · have hfield : ∀ b, logField env con { st with logbuffer := b }
              (.format .serverPort s opt) =
                some ({ st with logbuffer := b }.append (con.srvToken.drop (colon + 1))) :=
            fun b => by simp only [logField, if_neg hport, hcolon]
          exact appendsText_of hfield
            (.inl (by rw [copiedText, if_neg hport, hcolon]; rfl))
    | queryString => exact appendsText_escaped (fun b => rfl) rfl
    | url => exact appendsText_escaped (fun b => rfl) rfl
    | connectionStatus =>
      exact appendsText_of (fun b => rfl) (hone _ (printable_ite (printable_ite
        (printable_of_all (by decide)) (printable_of_all (by decide)))
          (printable_of_all (by decide))) _ rfl)
    | keepaliveCount =>
      exact appendsText_of (fun b => rfl)
        (hone _ (printable_ite (printable_itostr _) (printable_of_all (by decide))) _ rfl)
    | cookie =>
      rcases hget : arrayGetElement con.requestHeaders (str "Cookie") with _ | value
      · refine appendsText_nothing (fun b => ?_) rfl
        simp only [logField, logCookie, hget]
      · obtain ⟨v, hv⟩ := Option.ne_none_iff_exists'.mp
          (hcookie s opt value (List.mem_singleton.mpr rfl) hget)
        refine appendsText_escaped (s := some v) (fun b => ?_) rfl
        simp only [logField, logCookie, hget, hv, Option.map_some]
    | unset => exact appendsText_nothing (fun b => rfl) rfl
    | unsupported => exact appendsText_nothing (fun b => rfl) rfl

theorem logField_carries (hstart : con.requestStartHp.2 ≤ 999999999)
    (hclock : env.realtime.2 ≤ 999999999) (hts : st.ts.2 ≤ 999999999)
    (hcarry : fieldCarries env con st f = true) :
    ∃ (st' : LogState) (w : ℕ), (∀ b, logField env con { st with logbuffer := b } f =
        if b = [] then none
        else some { st' with logbuffer := b.dropLast ++ 49 :: List.replicate w 48 }) ∧
      0 < w ∧ copiedText env con st f = none ∧ (st'.ts = st.ts ∨ st'.ts = env.realtime) := by
  obtain ⟨s, opt, rfl⟩ : ∃ s opt, f = .format .timestamp s opt := by
    unfold fieldCarries at hcarry
    split at hcarry
    · exact ⟨_, _, rfl⟩
    · cases hcarry
  obtain ⟨unit, hopt⟩ : ∃ unit, opt.timeUnit = some unit := by
    rcases hopt : opt.timeUnit with _ | unit
    · simp [fieldCarries, hopt] at hcarry
    · exact ⟨unit, rfl⟩
  have hcarries : unit.Carries (st.fieldTime env con opt).2.2 := by
    simpa [fieldCarries, hopt] using hcarry
  have hunit : unit.IsFraction := by
    rcases hcarries with ⟨rfl, -⟩ | ⟨rfl, -⟩
    · exact .inl rfl
    · exact .inr (.inl rfl)
  refine ⟨(st.fieldTime env con opt).1, fractionWidth unit, fun b => ?_, ?_, ?_,
    fieldTime_ts st opt⟩
  · rw [logField_fraction hopt hunit, fieldTime_logbuffer,
      appendFraction_of_carries (fieldTime_le hstart hclock hts opt) hcarries]
    by_cases hb : b = []
    · rw [if_pos hb, if_pos hb]
      rfl
    · rw [if_neg hb, if_neg hb]
      rfl
  · rcases hunit with rfl | rfl | rfl <;> decide
  · rw [copiedText, if_neg (by simp [hopt])]

theorem logField_eq (hstart : con.requestStartHp.2 ≤ 999999999)
    (hclock : env.realtime.2 ≤ 999999999) (hts : st.ts.2 ≤ 999999999)
    (hcookie : CookiesInBounds con [f]) :
    (∀ b, logField env con { st with logbuffer := b } f =
      ((fieldPiece env con st f).write b).map fun b =>
        { afterField env con st f with logbuffer := b }) ∧
    IsFieldText env con st f (fieldPiece env con st f).text ∧
    ((fieldPiece env con st f).carries = true → (fieldPiece env con st f).text ≠ []) ∧
    (afterField env con st f).ts.2 ≤ 999999999 := by
  have hle : ∀ st' : LogState, st'.ts = st.ts ∨ st'.ts = env.realtime → st'.ts.2 ≤ 999999999 := by
    rintro st' (h | h)
    · exact h ▸ hts
    · exact h ▸ hclock
  cases hcarry : fieldCarries env con st f with
  | true =>
    obtain ⟨st', w, hfield, hw, hcopied, hts'⟩ := logField_carries hstart hclock hts hcarry
    have hafter : afterField env con st f =
        { st' with logbuffer := 49 :: List.replicate w 48 } := by
      rw [afterField, LogState.behindOne, hfield, if_neg (by simp)]
      rfl
    have hpiece : fieldPiece env con st f = ⟨List.replicate w 48, true, none⟩ := by
      rw [fieldPiece, hafter, hcarry, hcopied]
      rfl
    rw [hpiece, hafter]
    refine ⟨fun b => ?_, .inr ⟨hcopied, .inr fun c hc => ?_⟩, fun _ => ?_, hle _ hts'⟩
    · rw [hfield, LogPiece.write, if_pos rfl]
      split_ifs <;> rfl
    · rw [(List.mem_replicate.mp hc).2]
      decide
    · simpa using Nat.pos_iff_ne_zero.mp hw
  | false =>
    obtain ⟨st', text, hfield, htext, hts'⟩ :=
      appendsText_field hstart hclock hts hcookie hcarry
    have hafter : afterField env con st f = { st' with logbuffer := 49 :: text } := by
      rw [afterField, LogState.behindOne, hfield]
      rfl
    have hpiece : fieldPiece env con st f = ⟨text, false, copiedText env con st f⟩ := by
      rw [fieldPiece, hafter, hcarry]
      rfl
    rw [hpiece, hafter]
    refine ⟨fun b => ?_, htext, fun h => absurd h Bool.false_ne_true, hle _ hts'⟩
    rw [hfield, LogPiece.write, if_neg Bool.false_ne_true]
    rfl

variable (env con) in
/-- The state after the fields of a format. -/
def afterFields (st : LogState) (fields : List FormatField) : LogState :=
  fields.foldl (afterField env con) st

theorem logFields_eq (hstart : con.requestStartHp.2 ≤ 999999999)
    (hclock : env.realtime.2 ≤ 999999999) :
    ∀ {fields : List FormatField} {st : LogState}, st.ts.2 ≤ 999999999 →
      CookiesInBounds con fields →
        (∀ b, logFields env con { st with logbuffer := b } fields =
          ((logPieces env con st fields).foldlM LogPiece.write b).map fun b =>
            { afterFields env con st fields with logbuffer := b }) ∧
        (∀ p ∈ logPieces env con st fields, p.carries = true → p.text ≠ []) ∧
        ∀ p ∈ logPieces env con st fields, p.copied = some p.text ∨
          (p.copied = none ∧ ((∃ s, .string s ∈ fields ∧ p.text = s.string) ∨ Printable p.text))
  | [], st, _, _ => ⟨fun b => rfl, by simp [logPieces], by simp [logPieces]⟩
  | f :: fs, st, hts, hcookie => by
    obtain ⟨hfield, htext, hne, hts'⟩ := logField_eq hstart hclock hts
      fun s opt value hmem => hcookie s opt value (List.mem_cons.mpr
        (.inl (List.mem_singleton.mp hmem)))
    obtain ⟨ihfields, ihne, ihtext⟩ := logFields_eq hstart hclock hts'
      fun s opt value hmem => hcookie s opt value (List.mem_cons_of_mem _ hmem)
    refine ⟨fun b => ?_, ?_, ?_⟩
    · rw [logFields, List.foldlM_cons, hfield, logPieces, List.foldlM_cons]
      rcases (fieldPiece env con st f).write b with _ | b'
      · rfl
      · exact ihfields b'
    · intro p hp
      rcases List.mem_cons.mp hp with rfl | hp
      · exact hne
      · exact ihne p hp
    · intro p hp
      rcases List.mem_cons.mp hp with rfl | hp
      · rcases htext with htext | ⟨hnone, ⟨s, rfl, hs⟩ | hprint⟩
        · exact .inl htext
        · exact .inr ⟨hnone, .inl ⟨s, List.mem_cons_self, hs⟩⟩
        · exact .inr ⟨hnone, .inr hprint⟩
      · rcases ihtext p hp with h | ⟨hnone, ⟨s, hs, hstring⟩ | hprint⟩
        · exact .inl h
        · exact .inr ⟨hnone, .inl ⟨s, List.mem_cons_of_mem _ hs, hstring⟩⟩
        · exact .inr ⟨hnone, .inr hprint⟩

theorem logFields_eq_none (hf : ∀ st, logField env con st f = none) :
    ∀ {fields : List FormatField}, f ∈ fields → ∀ st, logFields env con st fields = none
  | g :: fs, hmem, st => by
    rw [logFields, List.foldlM_cons]
    rcases List.mem_cons.mp hmem with rfl | hmem
    · rw [hf]
      rfl
    · rcases logField env con st g with _ | st'
      · rfl
      · exact logFields_eq_none hf hmem st'

end Fields

/-! ## Lines -/

/-- All that was logged, buffered or written. -/
def Accesslog.content (log : Accesslog) : Bytes := log.written ++ log.logbuffer.string

/-- The state at the start of a line. -/
def Accesslog.start (log : Accesslog) : LogState := ⟨[], log.tsStr, log.lastTs, false, (0, 0)⟩

/-- One request makes one line, without control bytes but the one at its end. -/
def OneLine (env : LogEnv) (con : LoggedCon) (conf : AccesslogConf) (log : Accesslog) : Prop :=
  ∃ log' line, logAccessWrite env con conf log = some log' ∧
    log'.content = log.content ++ line ++ [LF] ∧ Printable line

/-- An escaped value is read back from the log up to the quote behind it. -/
def EscapesReadBack : Prop :=
  ∀ (dest : Bytes) (s : Buffer), ∃ text, accesslogAppendEscaped dest s = dest ++ text ∧
    ∀ t, readQuoted .text (text ++ 34 :: t) = some (s.string, t)

/-- The copied strings hold no control byte that stays, no text replaces the end of the log,
and the scans for cookies stay in the header. -/
structure LineClean (env : LogEnv) (con : LoggedCon) (conf : AccesslogConf) (log : Accesslog) :
    Prop where
  cookies : CookiesInBounds con conf.fields
  first : carriesFirst (logPieces env con log.start conf.fields) = false ∨
    log.logbuffer.string.getLast? = some 49
  copied : ∀ pre p post text, logPieces env con log.start conf.fields = pre ++ p :: post →
    p.copied = some text → Printable (keptText text post)

theorem escapesReadBack : EscapesReadBack := fun dest s =>
  ⟨logEscape s.string, accesslogAppendEscaped_eq dest s, readQuoted_logEscape s.string⟩

theorem oneLine_iff {env : LogEnv} {con : LoggedCon} {conf : AccesslogConf} {log : Accesslog}
    (hfile : conf.useSyslog = false) (hfd : conf.logAccessFd ≠ none) :
    OneLine env con conf log ↔ ∃ st line,
      logFields env con { log.start with logbuffer := log.logbuffer.string } conf.fields = some st ∧
        st.logbuffer = log.logbuffer.string ++ line ∧ Printable line := by
  have hwrite : ∃ log' : LogState → Accesslog,
      logAccessWrite env con conf log =
        (logFields env con { log.start with logbuffer := log.logbuffer.string }
          conf.fields).map log' ∧
      ∀ st, (log' st).content = log.written ++ st.logbuffer ++ [LF] := by
    refine ⟨_, by rw [logAccessWrite, hfile, if_neg Bool.false_ne_true, if_neg hfd]; rfl,
      fun st => ?_⟩
    simp only [Accesslog.content]
    split_ifs <;> simp [Buffer.string]
  obtain ⟨log', hlog', hcontent⟩ := hwrite
  rw [OneLine, hlog']
  constructor
  · rintro ⟨_, line, hsome, heq, hprint⟩
    obtain ⟨st, hst, rfl⟩ := Option.map_eq_some_iff.mp hsome
    rw [hcontent, Accesslog.content, List.append_cancel_right_eq, List.append_assoc,
      List.append_cancel_left_eq] at heq
    exact ⟨st, line, hst, heq, hprint⟩
  · rintro ⟨st, line, hst, heq, hprint⟩
    refine ⟨log' st, line, by rw [hst]; rfl, ?_, hprint⟩
    rw [hcontent, heq, Accesslog.content, ← List.append_assoc log.written]

theorem not_oneLine_of_cookie {env : LogEnv} {con : LoggedCon} {fields : List FormatField}
    (h : ¬ CookiesInBounds con fields) (st : LogState) : logFields env con st fields = none := by
  simp only [CookiesInBounds, not_forall, not_not] at h
  obtain ⟨s, opt, value, hmem, hget, hscan⟩ := h
  refine logFields_eq_none (fun st => ?_) hmem st
  simp only [logField, logCookie, hget, hscan, Option.map_none]

theorem printable_keptText (h : Printable text) (ps : List LogPiece) :
    Printable (keptText text ps) := fun c hc => by
  unfold keptText at hc
  split_ifs at hc
  · exact h c (List.mem_of_mem_dropLast hc)
  · exact h c hc

/-- The texts of a format, once written, hold no control byte exactly when the copied strings
leave none. -/
theorem printable_settledText_iff {ps : List LogPiece}
    (hps : ∀ p ∈ ps, p.copied = some p.text ∨ (p.copied = none ∧ Printable p.text)) :
    Printable (settledText ps) ↔ ∀ pre p post text, ps = pre ++ p :: post →
      p.copied = some text → Printable (keptText text post) := by
  rw [Printable, settledText_clean_iff]
  constructor
  · intro h pre p post text heq hcopied
    rcases hps p (by rw [heq]; simp) with htext | ⟨hnone, -⟩
    · obtain rfl := Option.some.inj (htext.symm.trans hcopied)
      exact h pre p post heq
    · rw [hnone] at hcopied
      cases hcopied
  · intro h pre p post heq
    rcases hps p (by rw [heq]; simp) with htext | ⟨-, hprint⟩
    · exact h pre p post _ heq htext
    · exact printable_keptText hprint post

/-- A request makes exactly one line, and escaped values are read back, exactly when the
copied strings leave no control byte, no text replaces the end of the log and the scans for
cookies stay in the header. -/
theorem logAccessWrite_oneLine_iff {env : LogEnv} {con : LoggedCon} {conf : AccesslogConf}
    {log : Accesslog} (hstart : con.requestStartHp.2 ≤ 999999999)
    (hclock : env.realtime.2 ≤ 999999999) (hfile : conf.useSyslog = false)
    (hfd : conf.logAccessFd ≠ none)
    (hliteral : ∀ s, FormatField.string s ∈ conf.fields → Printable s.string) :
    OneLine env con conf log ∧ EscapesReadBack ↔ LineClean env con conf log := by
  rw [and_iff_left escapesReadBack, oneLine_iff hfile hfd]
  by_cases hcookie : CookiesInBounds con conf.fields
  · have hts : log.start.ts.2 ≤ 999999999 := Nat.zero_le _
    obtain ⟨hfields, hne, htext⟩ := logFields_eq hstart hclock hts hcookie
    have hps : ∀ p ∈ logPieces env con log.start conf.fields,
        p.copied = some p.text ∨ (p.copied = none ∧ Printable p.text) := by
      intro p hp
      rcases htext p hp with h | ⟨hnone, ⟨s, hs, hstring⟩ | hprint⟩
      · exact .inl h
      · exact .inr ⟨hnone, hstring ▸ hliteral s hs⟩
      · exact .inr ⟨hnone, hprint⟩
    rw [hfields, foldlM_write _ _ hne]
    cases hfirst : carriesFirst (logPieces env con log.start conf.fields) with
    | false =>
      constructor
      · rintro ⟨st, line, hst, heq, hprint⟩
        obtain rfl := Option.some.inj hst
        refine ⟨hcookie, .inl hfirst, (printable_settledText_iff hps).mp ?_⟩
        rwa [List.append_cancel_left heq]
      · intro hclean
        exact ⟨_, _, rfl, rfl, (printable_settledText_iff hps).mpr hclean.copied⟩
    | true =>
      rcases List.eq_nil_or_concat log.logbuffer.string with hb | ⟨b, c, hb⟩
      · rw [hb]
        constructor
        · rintro ⟨st, line, hst, -⟩
          cases hst
        · intro hclean
          have hlast := hclean.first
          rw [hfirst, hb] at hlast
          simp at hlast
      · rw [List.concat_eq_append] at hb
        rw [hb]
        simp only [if_true, List.append_eq_nil_iff, List.cons_ne_nil, and_false, if_false,
          List.dropLast_concat]
        constructor
        · rintro ⟨st, line, hst, heq, hprint⟩
          obtain rfl := Option.some.inj hst
          rw [List.append_assoc, List.append_cancel_left_eq, List.singleton_append,
            List.cons.injEq] at heq
          refine ⟨hcookie, .inr ?_, (printable_settledText_iff hps).mp ?_⟩
          · rw [hb, ← heq.1]
            simp
          · rwa [heq.2]
        · intro hclean
          have hlast := hclean.first
          rw [hfirst, hb] at hlast
          obtain rfl : c = 49 := by simpa using hlast
          exact ⟨_, settledText _, rfl, by simp,
            (printable_settledText_iff hps).mpr hclean.copied⟩
  · constructor
    · rintro ⟨st, line, hst, -⟩
      rw [not_oneLine_of_cookie hcookie] at hst
      cases hst
    · intro hclean
      exact absurd hclean.cookies hcookie

/-- A log to a file with the fields of a format. -/
def fileConf (fields : List FormatField) : AccesslogConf := ⟨fields, false, some 3, false⟩

/-- A log that nothing was written to. -/
def newLog : Accesslog := ⟨none, [], 0, [], []⟩

theorem logAccessOpen_filename :
    logAccessOpen (str "%f") = some [.format .filename none .zero] := by
  decide

theorem logAccessWrite_oneLine_iff_filename :
    OneLine (logEnvAt 0) { bareCon with physicalPath := some (str "/srv/a\nb") }
        (fileConf [.format .filename none .zero]) newLog ∧ EscapesReadBack ↔
      LineClean (logEnvAt 0) { bareCon with physicalPath := some (str "/srv/a\nb") }
        (fileConf [.format .filename none .zero]) newLog :=
  logAccessWrite_oneLine_iff (by decide) (by decide) rfl (by decide) (by simp [fileConf])

/-- With `%f` a decoded `%0A` in the path of a request ends the line. -/
theorem not_oneLine : ¬ ∀ format fields, logAccessOpen format = some fields →
    (∀ s, FormatField.string s ∈ fields → Printable s.string) →
      ∀ env con log, con.requestStartHp.2 ≤ 999999999 → env.realtime.2 ≤ 999999999 →
        OneLine env con (fileConf fields) log ∧ EscapesReadBack := by
  intro h
  obtain ⟨⟨log', line, hwrite, hline, hprint⟩, -⟩ := h _ _ logAccessOpen_filename (by simp)
    (logEnvAt 0) { bareCon with physicalPath := some (str "/srv/a\nb") } newLog (by decide)
    (by decide)
  have hlog' : log' = { newLog with logbuffer := some (str "/srv/a\nb" ++ [LF]) } :=
    (Option.some.inj hwrite).symm
  rw [hlog'] at hline
  have hline' : line = str "/srv/a\nb" := (List.append_cancel_right hline).symm
  exact absurd (hprint LF (by rw [hline']; decide)) (by decide)

end Lighttpd
