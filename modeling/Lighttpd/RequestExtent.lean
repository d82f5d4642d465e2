import Mathlib.Data.List.Chain
import Lighttpd.HeaderEnd
import Lighttpd.RequestAccept

/-!
# How much of a request the parser reads

`connection_handle_read_state` cuts a request at the first CRLFCRLF or LFLF, and
`http_request_parse` stops at the first blank line, which is LF or CRLF behind any LF. The two
agree but for a CRLF behind an LF that has no CR before it: the parser stops there and the
reader does not (`httpRequestParse_readsAll_iff`). The bytes behind it are lost.
-/

namespace Lighttpd

open CString

variable {s u : Bytes} {opts : ParseOpts} {con : RequestCon} {st : ParseState}

theorem requestLineLoop_extent {strict : Bool} {words words' : List Bytes} {cur last rest : Bytes}
    (h : requestLineLoop strict words cur s = .line words' last rest) :
    ∃ w, s = w ++ LF :: rest ∧ LF ∉ w := by
  have step : ∀ {c s}, c ≠ LF → (∃ w, s = w ++ LF :: rest ∧ LF ∉ w) →
      ∃ w, c :: s = w ++ LF :: rest ∧ LF ∉ w := fun {c s} hc ⟨w, hs, hw⟩ =>
    ⟨c :: w, by rw [hs, List.cons_append], List.not_mem_cons_of_ne_of_not_mem hc.symm hw⟩
  fun_induction requestLineLoop strict words cur s
  case case3 =>
    obtain ⟨-, -, rfl⟩ := RequestLineScan.line.inj h
    exact ⟨[CR], rfl, by decide⟩
  case case4 ih => exact step (by decide) (ih h)
  case case6 =>
    obtain ⟨-, -, rfl⟩ := RequestLineScan.line.inj h
    exact ⟨[], rfl, List.not_mem_nil⟩
  case case8 ih => exact step (by decide) (ih h)
  case case9 ih => exact step ‹_› (ih h)
  all_goals contradiction

/-- Bytes without LF in front do not bring a CR behind an LF. -/
theorem isChain_notLFCR_append (hs : s.IsChain NotLFCR) :
    ∀ {w : Bytes}, LF ∉ w → (w ++ s).IsChain NotLFCR
  | [], _ => hs
  | c :: w, hw => by
    have hc : LF ≠ c := List.ne_of_not_mem_cons hw
    exact List.isChain_cons.mpr ⟨fun _ _ h => hc h.1.symm,
      isChain_notLFCR_append hs (List.not_mem_of_not_mem_cons hw)⟩

theorem parseHeader_extent (h : parseHeader opts con s = .ok st) :
    ∃ t b rest, s = t ++ [LF] ++ b ++ rest ∧ IsNewline b ∧ (t ++ [LF]).IsChain NotLFCR ∧
      st.con.headerLen = (t ++ [LF] ++ b).length := by
  obtain ⟨st₀, st₁, r, lines, rest, hline, hscan, -, rfl⟩ := parseHeader_eq_ok h
  obtain ⟨method, target, proto, con', host, hloop, -⟩ := parseRequestLine_eq_ok hline
  obtain ⟨w, rfl, hw⟩ := requestLineLoop_extent hloop
  obtain ⟨t, b, rfl, hb, hchain, hlast⟩ := (scanHeader_sound hscan).extent
  have hchain' : (w ++ LF :: t).IsChain NotLFCR := isChain_notLFCR_append hchain hw
  obtain ⟨t', ht'⟩ : ∃ t', w ++ LF :: t = t' ++ [LF] := by
    rcases hlast with hlast | ⟨rfl, -⟩
    · obtain ⟨t', rfl⟩ := List.getLast?_eq_some_iff.mp hlast
      exact ⟨w ++ LF :: t', by simp⟩
    · exact ⟨w, rfl⟩
  refine ⟨t', b, rest, ?_, hb, ht' ▸ hchain', ?_⟩
  · rw [← ht']
    simp
  · rw [← ht']
    simp
    omega

/-! ## The parser and the reader -/

/-- Some LF without a CR before it has a CRLF behind it. -/
def HasBareLFBeforeCRLF (R : Bytes) : Prop :=
  ∃ u v, R = u ++ [LF, CR, LF] ++ v ∧ u.getLast? ≠ some CR

/-- The parser skips at most one blank line at the front, and reads up to the last byte. -/
def ReadsAll (opts : ParseOpts) (requestCount : ℕ) (R : Bytes) (con : RequestCon) : Prop :=
  ∃ skip, leadingSkip opts requestCount R = some skip ∧
    (R.take skip = [] ∨ IsNewline (R.take skip)) ∧ skip + con.headerLen = R.length

theorem parseHeader_LF (opts : ParseOpts) (con : RequestCon) (s : Bytes) (st : ParseState) :
    parseHeader opts con (LF :: s) ≠ .ok st := fun h => by
  obtain ⟨st₀, st₁, r, lines, rest, hline, -⟩ := parseHeader_eq_ok h
  obtain ⟨method, target, proto, con', host, hloop, -⟩ := parseRequestLine_eq_ok hline
  have hnone : requestLineLoop opts.headerStrict [] [] (LF :: s) =
      if opts.headerStrict then .missingCR else .line [] [] s := by
    cases s <;> rfl
  rw [hnone] at hloop
  split_ifs at hloop
  cases hloop

theorem take_leadingSkip {requestCount : ℕ} {R : Bytes} {skip : ℕ}
    (hs : leadingSkip opts requestCount R = some skip)
    (hp : parseHeader opts con (R.drop skip) = .ok st) :
    skip = (R.take skip).length ∧ (R.take skip = [] ∨ R.take skip = [CR, LF]) := by
  unfold leadingSkip at hs
  split_ifs at hs with h2 h1 hstrict
  · obtain ⟨-, h0, h1⟩ := h2
    obtain rfl := Option.some.inj hs
    rcases R with _ | ⟨a, _ | ⟨b, R⟩⟩
    · simp at h0
    · simp at h1
    · obtain rfl : a = CR := by simpa using h0
      obtain rfl : b = LF := by simpa using h1
      simp
  · obtain rfl := Option.some.inj hs
    rcases R with _ | ⟨a, _ | ⟨b, R⟩⟩
    · simp at h1
    · simp at h1
    · obtain rfl : b = LF := by simpa using h1.2
      exact absurd hp (parseHeader_LF _ _ _ _)
  · obtain rfl := Option.some.inj hs
    simp

/-- In lines that have no CR behind an LF, only the blank line can bring one. -/
theorem eq_append_CRLF_of_isChain {t b v : Bytes} (hb : IsNewline b)
    (hchain : (t ++ [LF]).IsChain NotLFCR) (h : t ++ [LF] ++ b = u ++ [LF, CR, LF] ++ v) :
    t = u ∧ b = [CR, LF] := by
  rw [List.append_assoc u] at h
  rcases List.append_eq_append_iff.mp h with ⟨c, hu, hbc⟩ | ⟨a, ht, ha⟩
  · -- the pattern would lie in the blank line
    have := congrArg List.length hbc
    rcases hb with rfl | rfl <;> simp at this <;> omega
  · rcases a with _ | ⟨x, _ | ⟨y, a⟩⟩
    · rcases hb with rfl | rfl <;> simp at ha
    · obtain ⟨rfl, -⟩ := List.append_inj' ht rfl
      rcases hb with rfl | rfl
      · simp at ha
      · exact ⟨rfl, rfl⟩
    · simp only [List.cons_append, List.nil_append, List.cons.injEq] at ha
      obtain ⟨rfl, rfl, -⟩ := ha
      rw [ht] at hchain
      have := (List.isChain_append.mp hchain).2.1
      exact absurd ⟨rfl, rfl⟩ (List.isChain_cons_cons.mp this).1

theorem exists_of_blank_append {p v : Bytes} (hp : p = [] ∨ p = [CR, LF])
    (h : p ++ s = u ++ [LF, CR, LF] ++ v) (hu : u.getLast? ≠ some CR) :
    ∃ u', u = p ++ u' ∧ s = u' ++ [LF, CR, LF] ++ v := by
  rcases hp with rfl | rfl
  · exact ⟨u, rfl, h⟩
  · rcases u with _ | ⟨a, _ | ⟨b, u⟩⟩
    · exact absurd (List.cons.inj h).1 (by decide)
    · obtain rfl : CR = a := by simpa using congrArg List.head? h
      simp at hu
    · simp only [List.cons_append, List.nil_append, List.cons.injEq] at h
      obtain ⟨rfl, rfl, rfl⟩ := h
      exact ⟨u, rfl, by simp⟩

theorem not_endsHeader_bareLF (hu : u.getLast? ≠ some CR) : ¬ EndsHeader (u ++ [LF, CR, LF]) := by
  rintro (⟨w, hw⟩ | ⟨w, hw⟩)
  · have : w ++ [CR] ++ [LF, CR, LF] = u ++ [LF, CR, LF] := by simpa using hw
    rw [← List.append_cancel_right this] at hu
    simp at hu
  · have : w ++ [LF] ++ [LF] = u ++ [LF, CR] ++ [LF] := by simpa using hw
    have := List.append_cancel_right this
    rw [show u ++ [LF, CR] = u ++ [LF] ++ [CR] by simp] at this
    exact absurd (List.append_inj' this rfl).2 (by decide)

/-- The lines and their blank line are the whole header block, unless the blank line is the
CRLF behind a bare LF. -/
theorem hasBareLFBeforeCRLF_iff {B p t b rest : Bytes} (hp : p = [] ∨ p = [CR, LF])
    (hb : IsNewline b) (hchain : (t ++ [LF]).IsChain NotLFCR)
    (hR : IsHeaderBlock B (p ++ (t ++ [LF] ++ b ++ rest))) :
    HasBareLFBeforeCRLF (p ++ (t ++ [LF] ++ b ++ rest)) ↔ rest ≠ [] := by
  obtain ⟨hpre, hend, hmin⟩ := hR
  constructor
  · rintro ⟨u, v, h, hu⟩ rfl
    rw [List.append_nil] at h hend
    obtain ⟨u', rfl, hs⟩ := exists_of_blank_append hp h hu
    obtain ⟨rfl, rfl⟩ := eq_append_CRLF_of_isChain hb hchain hs
    refine not_endsHeader_bareLF hu ?_
    simpa using hend
  · intro hrest
    have hnot : ¬ EndsHeader (p ++ (t ++ [LF] ++ b)) := fun he => by
      have hle := hmin _ (List.IsPrefix.trans ⟨rest, by simp⟩ hpre) he
      have := List.length_pos_iff.mpr hrest
      simp only [List.length_append] at hle
      omega
    rcases hb with rfl | rfl
    · exact absurd (.inr ⟨p ++ t, by simp⟩) hnot
    · refine ⟨p ++ t, rest, by simp, fun hlast => hnot (.inl ?_)⟩
      obtain ⟨w, hw⟩ := List.getLast?_eq_some_iff.mp hlast
      refine ⟨w, ?_⟩
      calc w ++ crlfcrlf = w ++ [CR] ++ [LF, CR, LF] := by simp
        _ = p ++ (t ++ [LF] ++ [CR, LF]) := by rw [← hw]; simp

/-- For a header block that is accepted, the parser reads all of it if and only if no LF
without a CR before it has a CRLF behind it. -/
theorem httpRequestParse_readsAll_iff {lib : AddrLib} {opts : ParseOpts} {requestCount : ℕ}
    {proto : Buffer} {keepAlive responseKeepAlive : Bool} {B R : Bytes}
    (hR : IsHeaderBlock B R)
    (hacc : Accepted (httpRequestParse lib opts requestCount proto
      (.reset keepAlive responseKeepAlive) R)) :
    ReadsAll opts requestCount R (httpRequestParse lib opts requestCount proto
      (.reset keepAlive responseKeepAlive) R).1 ↔ ¬ HasBareLFBeforeCRLF R := by
  obtain ⟨skip, st, hskip, hparse, hfin⟩ := httpRequestParse_accepted hacc
  obtain ⟨t, b, rest, hdrop, hb, hchain, hlen⟩ := parseHeader_extent hparse
  obtain ⟨hsk, hfront⟩ := take_leadingSkip hskip hparse
  have hRp : R = R.take skip ++ (t ++ [LF] ++ b ++ rest) := by
    rw [← hdrop, List.take_append_drop]
  generalize hp : R.take skip = p at hsk hfront hRp
  have hbare : HasBareLFBeforeCRLF R ↔ rest ≠ [] := by
    rw [hRp] at hR ⊢
    exact hasBareLFBeforeCRLF_iff hfront hb hchain hR
  have hRlen : R.length = skip + st.con.headerLen + rest.length := by
    rw [hlen, hsk, ← List.length_append, ← List.length_append, List.append_assoc, ← hRp]
  rw [hbare, not_not]
  constructor
  · rintro ⟨skip', hskip', -, hread⟩
    obtain rfl := Option.some.inj (hskip'.symm.trans hskip)
    rw [headerLen_of_finishRequest hfin] at hread
    exact List.length_eq_zero_iff.mp (by omega)
  · rintro rfl
    refine ⟨skip, hskip, hp ▸ hfront.imp id Or.inr, ?_⟩
    rw [headerLen_of_finishRequest hfin, hRlen]
    rfl

/-- A request after a blank line. -/
def blankLineRequest : Bytes := str "\r\nGET /a HTTP/1.0\r\n\r\n"

theorem isHeaderBlock_blankLineRequest : IsHeaderBlock blankLineRequest blankLineRequest :=
  (isHeaderBlock_iff (List.prefix_refl _)).mpr (by decide)

/-- On a second request that comes after a blank line. -/
theorem httpRequestParse_readsAll_blankLine :
    ReadsAll lenientOpts 2 blankLineRequest (httpRequestParse .noAddress lenientOpts 2 none
      (.reset true true) blankLineRequest).1 ↔ ¬ HasBareLFBeforeCRLF blankLineRequest :=
  httpRequestParse_readsAll_iff isHeaderBlock_blankLineRequest (by decide)

/-- A request with a bare LF at the end of its request line, and what follows it. -/
def bareLFRequest : Bytes := str "GET /a HTTP/1.0\n\r\nGET /b HTTP/1.0\r\n\r\n"

/-- The second request in the buffer is not read. -/
theorem httpRequestParse_not_readsAll :
    IsHeaderBlock bareLFRequest bareLFRequest ∧
      Accepted (httpRequestParse .noAddress lenientOpts 1 none (.reset true true)
        bareLFRequest) ∧
      ¬ ReadsAll lenientOpts 1 bareLFRequest (httpRequestParse .noAddress lenientOpts 1 none
        (.reset true true) bareLFRequest).1 := by
  refine ⟨(isHeaderBlock_iff (List.prefix_refl _)).mpr (by decide), by decide, ?_⟩
  rintro ⟨skip, hskip, -, hread⟩
  obtain rfl : 0 = skip := Option.some.inj hskip
  exact absurd hread (by decide)

end Lighttpd
