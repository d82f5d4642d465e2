import Lighttpd.RequestHeaders

/-!
# The lines of a header

`headerLoop` does two things at once: it cuts the bytes into header lines, and it stores each
line. `scanHeader` is the first alone. The loop succeeds when the scan does and every line
can be stored (`headerLoop_eq_ok_iff`), so what a request can contain is read off the scan and
what is stored is a fold over its lines.
-/

namespace Lighttpd

open CString

/-- A line in front of what a scan found. -/
def consLine (line : HeaderLine) (r : List HeaderLine × Bytes) : List HeaderLine × Bytes :=
  (line :: r.1, r.2)

/-- The lines of a header and the bytes behind its blank line. -/
def scanHeader (strict : Bool) : HeaderMode → Bytes → Option (List HeaderLine × Bytes)
  | .key _, [] => none
  | .key acc, c :: s =>
    if c = 58 then scanHeader strict (.value (some acc) []) s
    else if isSeparator c then none
    else if isWs c then
      if acc = [] then scanHeader strict (.value none [c]) s
      else scanHeader strict (.wsAfterKey acc) s
    else if c = CR then
      match s with
      | [] => none
      | c' :: s' => if c' = LF ∧ acc = [] then some ([], s') else none
    else if c = LF ∧ strict then none
    else if c = LF ∧ acc = [] then some ([], s)
    else if (if strict then c < 32 ∨ 127 ≤ c else c = 0) then none
    else scanHeader strict (.key (acc ++ [c])) s
  | .wsAfterKey _, [] => none
  | .wsAfterKey key, c :: s =>
    if isWs c then scanHeader strict (.wsAfterKey key) s
    else if c = 58 then scanHeader strict (.value (some key) []) s
    else none
  | .value _ _, [] => none
  | .value key acc, c :: s =>
    if c = CR then
      match s with
      | [] => none
      | c' :: s' =>
        if c' = LF then (scanHeader strict (.key []) s').map (consLine (headerLine key acc))
        else none
    else if c = LF then
      if strict then none
      else (scanHeader strict (.key []) s).map (consLine (headerLine key acc))
    else if isWs c then scanHeader strict (.value key (acc ++ [c])) s
    else if (if strict then c < 32 else c = 0) then none
    else scanHeader strict (.value key (acc ++ [c])) s

/-- Lines that a scan found and that can all be stored. -/
def Stores (st : ParseState) (r : Option (List HeaderLine × Bytes)) (st' : ParseState)
    (rest : Bytes) : Prop :=
  ∃ lines, r = some (lines, rest) ∧ lines.foldlM endOfHeaderLine st = .ok st'

variable {st st' : ParseState} {rest s : Bytes} {c : UInt8}

@[simp] theorem stores_none : ¬ Stores st none st' rest := fun ⟨_, h, _⟩ => by cases h

@[simp] theorem stores_nil_iff : Stores st (some ([], s)) st' rest ↔ st = st' ∧ s = rest := by
  simp only [Stores, Option.some.injEq, Prod.mk.injEq]
  refine ⟨fun ⟨lines, ⟨hl, hs⟩, h⟩ => ?_, fun ⟨hst, hs⟩ => ⟨[], ⟨rfl, hs⟩, by rw [hst]; rfl⟩⟩
  subst hl
  exact ⟨Except.ok.inj h, hs⟩

@[simp] theorem stores_consLine_iff {line : HeaderLine} {r : Option (List HeaderLine × Bytes)} :
    Stores st (r.map (consLine line)) st' rest ↔
      ∃ st₁, endOfHeaderLine st line = .ok st₁ ∧ Stores st₁ r st' rest := by
  refine ⟨fun ⟨lines, hl, h⟩ => ?_, fun ⟨st₁, h₁, lines, hr, h⟩ => ?_⟩
  · obtain ⟨⟨ls, rest'⟩, hr, he⟩ := Option.map_eq_some_iff.mp hl
    simp only [consLine, Prod.mk.injEq] at he
    obtain ⟨rfl, rfl⟩ := he
    cases h₁ : endOfHeaderLine st line with
    | error con =>
      rw [List.foldlM_cons, h₁] at h
      cases h
    | ok st₁ =>
      rw [List.foldlM_cons, h₁] at h
      exact ⟨st₁, rfl, ls, hr, h⟩
  · refine ⟨line :: lines, by rw [hr]; rfl, ?_⟩
    rw [List.foldlM_cons, h₁]
    exact h

theorem headerLoop_eq_ok_iff {strict : Bool} {m : HeaderMode} :
    headerLoop strict st m s = .ok (st', rest) ↔ Stores st (scanHeader strict m s) st' rest := by
  fun_induction headerLoop strict st m s
  all_goals unfold scanHeader
  all_goals simp_all [-not_and]

/-- The end of a line, and a blank line. -/
def IsNewline (b : Bytes) : Prop := b = [LF] ∨ b = [CR, LF]

/-- The steps that a successful scan consists of. -/
inductive HeaderScan : HeaderMode → Bytes → List HeaderLine → Bytes → Prop
  | blank {b rest} : IsNewline b → HeaderScan (.key []) (b ++ rest) [] rest
  | keyByte {acc c s lines rest} : c ≠ CR → HeaderScan (.key (acc ++ [c])) s lines rest →
      HeaderScan (.key acc) (c :: s) lines rest
  | colon {acc s lines rest} : HeaderScan (.value (some acc) []) s lines rest →
      HeaderScan (.key acc) (58 :: s) lines rest
  | fold {c s lines rest} : isWs c → HeaderScan (.value none [c]) s lines rest →
      HeaderScan (.key []) (c :: s) lines rest
  | wsKey {acc c s lines rest} : isWs c → HeaderScan (.wsAfterKey acc) s lines rest →
      HeaderScan (.key acc) (c :: s) lines rest
  | ws {key c s lines rest} : isWs c → HeaderScan (.wsAfterKey key) s lines rest →
      HeaderScan (.wsAfterKey key) (c :: s) lines rest
  | wsColon {key s lines rest} : HeaderScan (.value (some key) []) s lines rest →
      HeaderScan (.wsAfterKey key) (58 :: s) lines rest
  | valueByte {key acc c s lines rest} : c ≠ CR → c ≠ LF → c ≠ 0 →
      HeaderScan (.value key (acc ++ [c])) s lines rest →
      HeaderScan (.value key acc) (c :: s) lines rest
  | line {key acc e s lines rest} : IsNewline e → HeaderScan (.key []) s lines rest →
      HeaderScan (.value key acc) (e ++ s) (headerLine key acc :: lines) rest

theorem isWs_iff : isWs c ↔ c = SP ∨ c = HT := by simp [isWs]

theorem ne_zero_of_isWs (h : isWs c) : c ≠ 0 := by
  rcases isWs_iff.mp h with rfl | rfl <;> decide

theorem HeaderScan.consLine {strict : Bool} {key : Option Bytes} {acc e s rest : Bytes}
    {lines : List HeaderLine} (he : IsNewline e)
    (h : (scanHeader strict (.key []) s).map (consLine (headerLine key acc)) = some (lines, rest))
    (ih : ∀ {lines rest}, scanHeader strict (.key []) s = some (lines, rest) →
      HeaderScan (.key []) s lines rest) :
    HeaderScan (.value key acc) (e ++ s) lines rest := by
  obtain ⟨⟨lines', rest'⟩, hs, hl⟩ := Option.map_eq_some_iff.mp h
  obtain ⟨rfl, rfl⟩ := Prod.mk.inj hl
  exact .line he (ih hs)

theorem scanHeader_sound {strict : Bool} {m : HeaderMode} {s rest : Bytes}
    {lines : List HeaderLine} (h : scanHeader strict m s = some (lines, rest)) :
    HeaderScan m s lines rest := by
  fun_induction scanHeader strict m s generalizing lines rest
  case case2 ih => exact .colon (ih h)
  case case4 ih => exact .fold ‹_› (ih h)
  case case5 ih => exact .wsKey ‹_› (ih h)
  case case7 hc _ _ _ =>
    obtain ⟨rfl, rfl⟩ := hc
    obtain ⟨rfl, rfl⟩ := Prod.mk.inj (Option.some.inj h)
    exact .blank (.inr rfl)
  case case10 hc =>
    obtain ⟨rfl, rfl⟩ := hc
    obtain ⟨rfl, rfl⟩ := Prod.mk.inj (Option.some.inj h)
    exact .blank (.inl rfl)
  case case12 ih => exact .keyByte ‹_› (ih h)
  case case14 ih => exact .ws ‹_› (ih h)
  case case15 ih => exact .wsColon (ih h)
  case case19 ih => exact .consLine (.inr rfl) h ih
  case case22 ih => exact .consLine (.inl rfl) h ih
  case case23 ih => exact .valueByte ‹_› ‹_› (ne_zero_of_isWs ‹_›) (ih h)
  case case25 hz ih =>
    refine .valueByte ‹_› ‹_› (fun h0 => hz ?_) (ih h)
    subst h0
    split <;> simp
  all_goals cases h

/-! ## Where the scan stops -/

/-- No CR behind an LF. -/
def NotLFCR (a b : UInt8) : Prop := ¬ (a = LF ∧ b = CR)

/-- The byte that was read last, as far as `NotLFCR` can tell: no key goes on with a CR. -/
def HeaderMode.lead : HeaderMode → UInt8
  | .value _ _ => 58
  | _ => LF

/-- What is read in a mode: the rest of a line and further lines, each up to its LF, then a
blank line. -/
def HeaderExtent (m : HeaderMode) (s rest : Bytes) : Prop :=
  ∃ t b, s = t ++ (b ++ rest) ∧ IsNewline b ∧ (m.lead :: t).IsChain NotLFCR ∧
    (t.getLast? = some LF ∨ t = [] ∧ m = .key [])

theorem HeaderExtent.cons {m m' : HeaderMode} {c : UInt8} {s rest : Bytes}
    (h : HeaderExtent m' s rest) (hm : m' = .key [] → c = LF) (hlead : c = LF → m'.lead = LF)
    (hc : m.lead = LF → c ≠ CR) : HeaderExtent m (c :: s) rest := by
  obtain ⟨t, b, rfl, hb, hchain, hlast⟩ := h
  refine ⟨c :: t, b, rfl, hb, ?_, .inl ?_⟩
  · refine List.isChain_cons_cons.mpr ⟨fun h => hc h.1 h.2, ?_⟩
    rcases t with _ | ⟨d, t⟩
    · exact .singleton _
    · obtain ⟨hd, ht⟩ := List.isChain_cons_cons.mp hchain
      exact List.isChain_cons_cons.mpr ⟨fun h => hd ⟨hlead h.1, h.2⟩, ht⟩
  · rcases hlast with hlast | ⟨rfl, hk⟩
    · rw [List.getLast?_cons, hlast]
      rfl
    · rw [hm hk]
      rfl

theorem HeaderExtent.cons_of_ne {m m' : HeaderMode} (h : HeaderExtent m' s rest) (hm : m' ≠ .key [])
    (hlf : c ≠ LF) (hcr : c ≠ CR) : HeaderExtent m (c :: s) rest :=
  h.cons (fun hk => absurd hk hm) (fun hc => absurd hc hlf) (fun _ => hcr)

theorem HeaderExtent.line {key : Option Bytes} {acc e : Bytes} (he : IsNewline e)
    (h : HeaderExtent (.key []) s rest) : HeaderExtent (.value key acc) (e ++ s) rest := by
  have hlead : (HeaderMode.value key acc).lead ≠ LF := show (58 : UInt8) ≠ LF by decide
  have hlf : HeaderExtent (.value key acc) (LF :: s) rest :=
    h.cons (fun _ => rfl) (fun _ => rfl) (fun h => absurd h hlead)
  rcases he with rfl | rfl
  · exact hlf
  · exact hlf.cons (by simp) (fun h => absurd h (by decide)) (fun h => absurd h hlead)

theorem ne_LF_of_isWs (h : isWs c) : c ≠ LF := by
  rcases isWs_iff.mp h with rfl | rfl <;> decide

theorem ne_CR_of_isWs (h : isWs c) : c ≠ CR := by
  rcases isWs_iff.mp h with rfl | rfl <;> decide

theorem HeaderScan.extent {m : HeaderMode} {s rest : Bytes} {lines : List HeaderLine}
    (h : HeaderScan m s lines rest) : HeaderExtent m s rest := by
  induction h with
  | blank hb => exact ⟨[], _, rfl, hb, .singleton _, .inr ⟨rfl, rfl⟩⟩
  | keyByte hc _ ih => exact ih.cons (by simp) (fun _ => rfl) (fun _ => hc)
  | colon _ ih => exact ih.cons_of_ne (by simp) (by decide) (by decide)
  | fold hc _ ih => exact ih.cons_of_ne (by simp) (ne_LF_of_isWs hc) (ne_CR_of_isWs hc)
  | wsKey hc _ ih => exact ih.cons_of_ne (by simp) (ne_LF_of_isWs hc) (ne_CR_of_isWs hc)
  | ws hc _ ih => exact ih.cons_of_ne (by simp) (ne_LF_of_isWs hc) (ne_CR_of_isWs hc)
  | wsColon _ ih => exact ih.cons_of_ne (by simp) (by decide) (by decide)
  | valueByte hcr hlf _ _ ih => exact ih.cons_of_ne (by simp) hlf hcr
  | line he _ ih => exact ih.line he

/-- No NUL in a value, and white space in front of a continuation line. -/
def HeaderLine.Clean : HeaderLine → Prop
  | .field _ raw => (0 : UInt8) ∉ raw
  | .continuation value => (0 : UInt8) ∉ value ∧ ∃ c v, value = c :: v ∧ isWs c

/-- What was read of a value so far. -/
def HeaderMode.Clean : HeaderMode → Prop
  | .value name acc => (headerLine name acc).Clean
  | _ => True

theorem HeaderScan.clean {m : HeaderMode} {s rest : Bytes} {lines : List HeaderLine}
    (h : HeaderScan m s lines rest) (hm : m.Clean) : ∀ line ∈ lines, line.Clean := by
  induction h with
  | blank => simp
  | keyByte _ _ ih => exact ih trivial
  | colon _ ih => exact ih (by simp [HeaderMode.Clean, headerLine, HeaderLine.Clean])
  | @fold c _ _ _ hc _ ih => exact ih ⟨by simpa using (ne_zero_of_isWs hc).symm, c, [], rfl, hc⟩
  | wsKey _ _ ih => exact ih trivial
  | ws _ _ ih => exact ih trivial
  | wsColon _ ih => exact ih (by simp [HeaderMode.Clean, headerLine, HeaderLine.Clean])
  | @valueByte key acc c _ _ _ _ _ h0 _ ih =>
    refine ih ?_
    cases key with
    | none =>
      obtain ⟨hz, d, v, rfl, hd⟩ := hm
      exact ⟨by simpa [h0.symm] using hz, d, v ++ [c], rfl, hd⟩
    | some key =>
      have hz : (0 : UInt8) ∉ acc := hm
      simpa [HeaderMode.Clean, headerLine, HeaderLine.Clean, h0.symm] using hz
  | line _ _ ih => exact List.forall_mem_cons.mpr ⟨hm, ih trivial⟩

end Lighttpd
