import Lighttpd.Lib.PathSegments
import Lighttpd.RequestHost

/-!
# The syntax of a host

The comment on `request_check_hostname` gives a grammar of hosts. The scan from the right looks at the
byte to the right of a dot and at the first byte of the host, so that no label starts with `-`, but
at no byte to the left of a dot; and where a dot at the end was taken out, it passes over a second
one (`scanAccepts_start_iff`). Hosts of these two kinds apart the function accepts what the grammar
says and leaves a host that it accepts again (`requestCheckHostname_iff`).
-/

namespace Lighttpd

open CString PathSegments

/-- A byte of a label. -/
def IsLabelChar (c : UInt8) : Prop := c = 45 ∨ isAlnum c

/-- A label that may end with `-`. -/
structure LooseLabel (l : Bytes) : Prop where
  ne_nil : l ≠ []
  chars : ∀ c ∈ l, IsLabelChar c
  head_ne : l.head? ≠ some 45

/-- `alphanum | alphanum *( alphanum | "-" ) alphanum` -/
def Label (l : Bytes) : Prop := LooseLabel l ∧ l.getLast? ≠ some 45

/-- Labels with dots between them; with digits alone in the last one behind a dot they are the four
parts of an IPv4 address. -/
structure HostName (P : Bytes → Prop) (name : Bytes) : Prop where
  labels : ∀ l ∈ name.splitOn 46, P l
  address : 2 ≤ (name.splitOn 46).length → (∀ c ∈ lastSegment 46 name, isDigit c) →
    (name.splitOn 46).length = 4 ∧ ∀ l ∈ name.splitOn 46, ∀ c ∈ l, isDigit c

/-- `[ ":" *digit ]` -/
def IsPort (port : Bytes) : Prop := port = [] ∨ ∃ ds, port = 58 :: ds ∧ ∀ c ∈ ds, isDigit c

/-- An address in brackets. -/
def BracketHost (host : Bytes) : Prop :=
  ∃ a port, host = 91 :: a ++ 93 :: port ∧ (∀ c ∈ a, isXDigit c ∨ c = 58 ∨ c = 46) ∧
    a.count 58 ≤ 7 ∧ IsPort port

/-- A host. -/
def WellFormedHost (host : Bytes) : Prop :=
  BracketHost host ∨ ∃ name dot port, host = name ++ (dot ++ port) ∧ HostName Label name ∧
    (dot = [] ∨ dot = [46]) ∧ IsPort port

/-! ## The scan -/

/-- The scan from here on ends well. -/
def scanAccepts (s : HostScan) (right : Option UInt8) (w : Bytes) : Prop :=
  ∃ s', hostScan s right w = some s' ∧ ¬ (s'.isIp = some true ∧ s'.level ≠ 3) ∧ s'.labelLen ≠ 0

variable {s : HostScan} {c : UInt8} {w name port name' : Bytes}

theorem scanAccepts_cons {right : Option UInt8} :
    scanAccepts s right (c :: w) ↔
      ∃ s', hostScanStep s c right w.isEmpty = some s' ∧ scanAccepts s' (some c) w := by
  unfold scanAccepts
  rw [hostScan]
  cases hostScanStep s c right w.isEmpty with
  | none => simp
  | some s' => simp

theorem scanAccepts_nil {right : Option UInt8} :
    scanAccepts s right [] ↔ ¬ (s.isIp = some true ∧ s.level ≠ 3) ∧ s.labelLen ≠ 0 := by
  simp [scanAccepts, hostScan]

theorem splitOn_cons_dot (w : Bytes) : (46 :: w : Bytes).splitOn 46 = [] :: w.splitOn 46 := by
  rw [List.splitOn_cons_eq_if_modifyHead, if_pos (by decide)]

theorem splitOn_cons_of_ne (hc : c ≠ 46) {p : Bytes} {ps : List Bytes}
    (h : (c :: w).splitOn 46 = p :: ps) : ∃ p', w.splitOn 46 = p' :: ps ∧ p = c :: p' := by
  rw [List.splitOn_cons_eq_if_modifyHead, if_neg (by simpa using hc)] at h
  obtain ⟨p', ps', hw⟩ := List.exists_cons_of_ne_nil (List.splitOn_ne_nil 46 w)
  rw [hw, List.modifyHead_cons] at h
  obtain ⟨rfl, rfl⟩ := List.cons.inj h
  exact ⟨p', hw, rfl⟩

theorem scanAccepts_address (w : Bytes) :
    ∀ {p : Bytes} {ps : List Bytes}, w.splitOn 46 = p :: ps → ∀ (len lv : ℕ) (right : Option UInt8),
      scanAccepts ⟨.domainLabel, len, some true, lv⟩ right w ↔
        (len ≠ 0 ∨ p ≠ []) ∧ (∀ c ∈ p, isDigit c) ∧
          (∀ q ∈ ps, q ≠ [] ∧ ∀ c ∈ q, isDigit c) ∧ lv + ps.length = 3 := by
  induction w with
  | nil =>
    intro p ps h len lv right
    rw [List.splitOn_nil] at h
    cases h
    rw [scanAccepts_nil]
    simp
    tauto
  | cons c w ih =>
    intro p ps h len lv right
    rw [scanAccepts_cons]
    by_cases hc : c = 46
    · subst hc
      rw [splitOn_cons_dot] at h
      obtain ⟨rfl, rfl⟩ := List.cons.inj h
      obtain ⟨q, qs, hq⟩ := List.exists_cons_of_ne_nil (List.splitOn_ne_nil 46 w)
      by_cases hlen : len = 0
      · simp [hostScanStep, hlen]
      · have hlevel : lv + 1 + qs.length = lv + (q :: qs).length := by
          rw [List.length_cons]
          omega
        simp [hostScanStep, hlen, ih hq, hq, hlevel, and_assoc]
    · obtain ⟨p', hw, rfl⟩ := splitOn_cons_of_ne hc h
      by_cases hdigit : isDigit c = true
      · simp [hostScanStep, hc, hdigit, ih hw]
      · simp [hostScanStep, hc, hdigit]

/-- A piece that is read from the right, so that its first byte is the last one read. -/
structure LoosePiece (q : Bytes) : Prop where
  ne_nil : q ≠ []
  chars : ∀ c ∈ q, IsLabelChar c
  last_ne : q.getLast? ≠ some 45

theorem isAlnum_iff : isAlnum c = true ↔ IsLabelChar c ∧ c ≠ 45 := by
  unfold IsLabelChar
  constructor
  · intro h
    refine ⟨.inr h, ?_⟩
    rintro rfl
    exact absurd h (by decide)
  · rintro ⟨rfl | h, hne⟩
    · exact absurd rfl hne
    · exact h

theorem loosePiece_iff {q : Bytes} (r : UInt8) :
    LoosePiece q ↔ q ≠ [] ∧ (∀ c ∈ q, IsLabelChar c) ∧ (q.getLast?).getD r ≠ 45 := by
  have hlast : q ≠ [] → ((q.getLast?).getD r ≠ 45 ↔ q.getLast? ≠ some 45) := by
    intro hq
    rw [List.getLast?_eq_getLast_of_ne_nil hq]
    simp
  constructor
  · intro h
    exact ⟨h.ne_nil, h.chars, (hlast h.ne_nil).mpr h.last_ne⟩
  · rintro ⟨hne, hchars, h⟩
    exact ⟨hne, hchars, (hlast hne).mp h⟩

theorem getLast?_cons_getD (c r : UInt8) (p : Bytes) :
    ((c :: p).getLast?).getD r = (p.getLast?).getD c := by
  rw [List.getLast?_cons, Option.getD_some]

/-- In a name the pieces are labels. The first byte of the host is looked at as the one to the right
of a dot is. -/
theorem scanAccepts_name (w : Bytes) :
    ∀ {p : Bytes} {ps : List Bytes}, w.splitOn 46 = p :: ps → ∀ (len lv : ℕ) (right : UInt8),
      (w = [] → len ≠ 0 → right ≠ 45) →
      (scanAccepts ⟨.domainLabel, len, some false, lv⟩ (some right) w ↔
        (len ≠ 0 ∨ p ≠ []) ∧ (∀ c ∈ p, IsLabelChar c) ∧ (p.getLast?).getD right ≠ 45 ∧
          ∀ q ∈ ps, LoosePiece q) := by
  induction w with
  | nil =>
    intro p ps h len lv right hright
    rw [List.splitOn_nil] at h
    cases h
    rw [scanAccepts_nil]
    simpa using hright rfl
  | cons c w ih =>
    intro p ps h len lv right _
    rw [scanAccepts_cons]
    by_cases hc : c = 46
    · subst hc
      rw [splitOn_cons_dot] at h
      obtain ⟨rfl, rfl⟩ := List.cons.inj h
      obtain ⟨q, qs, hq⟩ := List.exists_cons_of_ne_nil (List.splitOn_ne_nil 46 w)
      by_cases hlen : len = 0
      · simp [hostScanStep, hlen]
      · by_cases h45 : right = 45
        · simp [hostScanStep, hlen, h45]
        · have hstep := ih hq 0 (lv + 1) 46 fun _ h => absurd rfl h
          simp [hostScanStep, hlen, h45, hstep, hq, loosePiece_iff 46, and_assoc]
    · obtain ⟨p', hw, rfl⟩ := splitOn_cons_of_ne hc h
      rw [getLast?_cons_getD]
      cases w with
      | nil =>
        rw [List.splitOn_nil] at hw
        cases hw
        by_cases halnum : isAlnum c = true
        · simp [hostScanStep, hc, halnum, scanAccepts_nil, isAlnum_iff.mp halnum]
        · have hnot := mt isAlnum_iff.mpr halnum
          simp only [not_and, not_not] at hnot
          simp [hostScanStep, hc, halnum]
          exact hnot
      | cons d w =>
        have hstep := ih hw (len + 1) lv c fun h => absurd h (List.cons_ne_nil d w)
        by_cases hchar : IsLabelChar c
        · have hok : ¬ c = 45 → isAlnum c = true := hchar.resolve_left
          simp [hostScanStep, hc, hstep, hchar]
          tauto
        · have hbad : c ≠ 45 ∧ ¬ isAlnum c = true := not_or.mp hchar
          simp [hostScanStep, hc, hbad.1, hbad.2, hchar]

theorem ne_of_isDigit (h : isDigit c = true) : c ≠ 45 := by
  rintro rfl
  exact absurd h (by decide)

theorem isLabelChar_of_isDigit (h : isDigit c = true) : IsLabelChar c :=
  .inr (by rw [isAlnum, h, Bool.true_or])

theorem loosePiece_of_isDigit {q : Bytes} (hne : q ≠ []) (h : ∀ c ∈ q, isDigit c) : LoosePiece q where
  ne_nil := hne
  chars c hc := isLabelChar_of_isDigit (h c hc)
  last_ne hlast := ne_of_isDigit (h 45 (List.mem_of_getLast? hlast)) rfl

/-- In the last label, which is read first, the scan finds out whether the host may be an address. -/
theorem scanAccepts_top (w : Bytes) :
    ∀ {p : Bytes} {ps : List Bytes}, w.splitOn 46 = p :: ps →
      ∀ (len : ℕ) (isIp : Option Bool) (right : UInt8),
      (isIp = none ∨ isIp = some false) → (len ≠ 0 → IsLabelChar right) →
      (len ≠ 0 → isIp = none → isDigit right) → (w = [] → len ≠ 0 → right ≠ 45) →
      (scanAccepts ⟨.topLabel, len, isIp, 0⟩ (some right) w ↔
        (len ≠ 0 ∨ p ≠ []) ∧ (∀ c ∈ p, IsLabelChar c) ∧ (p.getLast?).getD right ≠ 45 ∧
          (∀ q ∈ ps, LoosePiece q) ∧
          (ps ≠ [] → isIp = none → (∀ c ∈ p, isDigit c) →
            ps.length = 3 ∧ ∀ q ∈ ps, ∀ c ∈ q, isDigit c)) := by
  induction w with
  | nil =>
    intro p ps h len isIp right hisIp _ _ hright
    rw [List.splitOn_nil] at h
    cases h
    rw [scanAccepts_nil]
    rcases hisIp with rfl | rfl <;> simpa using hright rfl
  | cons c w ih =>
    intro p ps h len isIp right hisIp hchar hdigit _
    rw [scanAccepts_cons]
    by_cases hc : c = 46
    · subst hc
      rw [splitOn_cons_dot] at h
      obtain ⟨rfl, rfl⟩ := List.cons.inj h
      obtain ⟨q, qs, hq⟩ := List.exists_cons_of_ne_nil (List.splitOn_ne_nil 46 w)
      by_cases hlen : len = 0
      · simp [hostScanStep, hlen]
      · have hlabel : (q ≠ [] ∧ ∀ c ∈ q, isDigit c) ∧ (∀ q ∈ qs, q ≠ [] ∧ ∀ c ∈ q, isDigit c) →
            ∀ x ∈ q :: qs, LoosePiece x := by
          rintro ⟨hq, hqs⟩ x hx
          rcases List.mem_cons.mp hx with rfl | hx
          · exact loosePiece_of_isDigit hq.1 hq.2
          · exact loosePiece_of_isDigit (hqs x hx).1 (hqs x hx).2
        rcases hisIp with rfl | rfl
        · have hright := hdigit hlen rfl
          have hstep := scanAccepts_address w hq 0 1 (some 46)
          have hlevel : 1 + qs.length = 3 ↔ (q :: qs).length = 3 := by
            rw [List.length_cons]
            omega
          rw [hlevel] at hstep
          have hturn : hostScanStep ⟨.topLabel, len, none, 0⟩ 46 (some right) w.isEmpty =
              some ⟨.domainLabel, 0, some true, 1⟩ := by
            simp [hostScanStep, hlen, hright]
          rw [hturn, hq]
          simp only [Option.some.injEq, exists_eq_left', hstep]
          constructor
          · rintro ⟨hq0, hqd, hqs, hlength⟩
            have hq0 := hq0.resolve_left (absurd rfl)
            refine ⟨.inl hlen, by simp, ne_of_isDigit hright, hlabel ⟨⟨hq0, hqd⟩, hqs⟩,
              fun _ _ _ => ⟨hlength, ?_⟩⟩
            exact List.forall_mem_cons.mpr ⟨hqd, fun x hx => (hqs x hx).2⟩
          · rintro ⟨-, -, -, hloose, haddress⟩
            obtain ⟨hlength, hdigits⟩ := haddress (List.cons_ne_nil q qs) trivial (by simp)
            have hmem := List.forall_mem_cons.mp hdigits
            have hloose := List.forall_mem_cons.mp hloose
            exact ⟨.inr hloose.1.ne_nil, hmem.1, fun x hx => ⟨(hloose.2 x hx).ne_nil, hmem.2 x hx⟩,
              hlength⟩
        · have hstep := scanAccepts_name w hq 0 1 46 fun _ h => absurd rfl h
          have hright : isAlnum right = true ↔ right ≠ 45 := by
            rw [isAlnum_iff, and_iff_right (hchar hlen)]
          by_cases h45 : right = 45
          · simp [hostScanStep, hlen, h45, show isAlnum 45 = false from rfl]
          · simp [hostScanStep, hlen, hright.mpr h45, h45, hstep, hq, loosePiece_iff 46, and_assoc]
    · obtain ⟨p', hw, rfl⟩ := splitOn_cons_of_ne hc h
      rw [getLast?_cons_getD]
      cases w with
      | nil =>
        rw [List.splitOn_nil] at hw
        cases hw
        have hIp : isIp ≠ some true := by
          rcases hisIp with rfl | rfl <;> simp
        by_cases halnum : isAlnum c = true
        · simp [hostScanStep, hc, halnum, scanAccepts_nil, isAlnum_iff.mp halnum, hIp]
        · have hnot := mt isAlnum_iff.mpr halnum
          simp only [not_and, not_not] at hnot
          simp [hostScanStep, hc, halnum]
          exact hnot
      | cons d w =>
        by_cases hchar : IsLabelChar c
        · -- a byte other than a digit says that the host is no address
          obtain ⟨isIp', hstep, hisIp', hnone⟩ : ∃ isIp',
              hostScanStep ⟨.topLabel, len, isIp, 0⟩ c (some right) false =
                some ⟨.topLabel, len + 1, isIp', 0⟩ ∧ (isIp' = none ∨ isIp' = some false) ∧
                (isIp' = none ↔ isIp = none ∧ isDigit c = true) := by
            have hok : ¬ (c ≠ 45 ∧ ¬ isAlnum c = true) := fun h => h.2 (hchar.resolve_left h.1)
            refine ⟨if isIp = none ∧ ¬ isDigit c then some false else isIp, ?_, ?_, ?_⟩
            · unfold hostScanStep
              dsimp only
              rw [if_neg hc, if_neg (by decide), if_neg hok]
            · split_ifs
              · exact .inr rfl
              · exact hisIp
            · split_ifs with h
              · simp [h.2]
              · simpa using h
          rw [List.isEmpty_cons, hstep]
          simp only [Option.some.injEq, exists_eq_left']
          rw [ih hw (len + 1) isIp' c hisIp' (fun _ => hchar) (fun _ h => (hnone.mp h).2)
            fun h => absurd h (List.cons_ne_nil d w), hnone]
          simp [hchar, and_imp]
        · have hbad : c ≠ 45 ∧ ¬ isAlnum c = true := not_or.mp hchar
          simp [hostScanStep, hc, hbad.1, hbad.2, hchar]

theorem loosePiece_reverse {l : Bytes} : LoosePiece l.reverse ↔ LooseLabel l := by
  constructor
  · intro h
    refine ⟨fun hnil => h.ne_nil (by simp [hnil]), fun c hc => h.chars c (by simpa using hc), ?_⟩
    rw [← List.getLast?_reverse]
    exact h.last_ne
  · intro h
    refine ⟨fun hnil => h.ne_nil (by simpa using hnil), fun c hc => h.chars c (by simpa using hc), ?_⟩
    rw [List.getLast?_reverse]
    exact h.head_ne

/-- The scan that starts to the left of something accepts the names whose labels may end with `-`. -/
theorem scanAccepts_start_iff (name : Bytes) (right : UInt8) :
    scanAccepts ⟨.topLabel, 0, none, 0⟩ (some right) name.reverse ↔ HostName LooseLabel name := by
  obtain ⟨p, ps, hp⟩ := List.exists_cons_of_ne_nil (List.splitOn_ne_nil 46 name.reverse)
  have hpieces : p :: ps = ((name.splitOn 46).map List.reverse).reverse := by
    rw [← hp, splitOn_reverse]
  have hlabels : name.splitOn 46 = (ps.map List.reverse).reverse ++ [p.reverse] := by
    have h := congrArg (fun x => (List.reverse x).map List.reverse) hpieces
    simpa using h.symm
  have hlast : lastSegment 46 name = p.reverse := by simp [lastSegment, hlabels]
  rw [scanAccepts_top name.reverse hp 0 none right (.inl rfl) (absurd rfl) (absurd rfl)
    fun _ => absurd rfl]
  have hforall : ∀ P : Bytes → Prop, (∀ l ∈ name.splitOn 46, P l) ↔
      (∀ q ∈ ps, P q.reverse) ∧ P p.reverse := by
    intro P
    rw [hlabels]
    simp only [List.forall_mem_append, List.mem_reverse, List.forall_mem_map,
      List.forall_mem_singleton]
  have hlength : (name.splitOn 46).length = ps.length + 1 := by simp [hlabels]
  have hps : ps ≠ [] ↔ 2 ≤ ps.length + 1 := by
    rw [← List.length_pos_iff]
    omega
  have hpiece := loosePiece_iff (q := p) right
  constructor
  · rintro ⟨hne, hchars, hgetLast, hloose, haddress⟩
    have hp := hpiece.mpr ⟨hne.resolve_left (absurd rfl), hchars, hgetLast⟩
    refine ⟨(hforall _).mpr ⟨fun q hq => ?_, ?_⟩, ?_⟩
    · exact loosePiece_reverse.mp (by simpa using hloose q hq)
    · exact loosePiece_reverse.mp (by simpa using hp)
    · rw [hlength, hlast, ← hps]
      intro hne hdigits
      have hdigits : ∀ c ∈ p, isDigit c = true := fun c hc => hdigits c (by simpa using hc)
      obtain ⟨h3, hall⟩ := haddress hne rfl hdigits
      refine ⟨by omega, (hforall _).mpr ⟨fun q hq c hc => ?_, fun c hc => ?_⟩⟩
      · exact hall q hq c (by simpa using hc)
      · exact hdigits c (by simpa using hc)
  · rintro ⟨hlabels, haddress⟩
    obtain ⟨hloose, hp⟩ := (hforall _).mp hlabels
    obtain ⟨hne, hchars, hgetLast⟩ := hpiece.mp (by simpa using loosePiece_reverse.mpr hp)
    rw [hlength, hlast, ← hps] at haddress
    refine ⟨.inr hne, hchars, hgetLast, fun q hq => ?_, fun hne _ hdigits => ?_⟩
    · simpa using loosePiece_reverse.mpr (hloose q hq)
    · obtain ⟨h4, hall⟩ := haddress hne fun c hc => hdigits c (by simpa using hc)
      exact ⟨by omega, fun q hq c hc => ((hforall _).mp hall).1 q hq c (by simpa using hc)⟩

theorem scanAccepts_right_congr (hc : c ≠ 46) (w : Bytes) (right right' : Option UInt8) :
    scanAccepts s right (c :: w) ↔ scanAccepts s right' (c :: w) := by
  have hstep : hostScanStep s c right w.isEmpty = hostScanStep s c right' w.isEmpty := by
    unfold hostScanStep
    simp [hc]
  rw [scanAccepts_cons, scanAccepts_cons, hstep]

/-- What the scan does with the dots that are left at the end of a name. -/
theorem scanAccepts_dots_iff (hname : name.getLast? ≠ some 46) (k : ℕ) :
    scanAccepts ⟨.topLabel, 0, none, 0⟩ none (name ++ List.replicate k 46).reverse ↔
      k ≤ 1 ∧ HostName LooseLabel name := by
  have hstart := scanAccepts_start_iff name 46
  have hempty : ∀ w, ¬ scanAccepts ⟨.topLabel, 0, none, 0⟩ (some 46) (46 :: w) := by
    intro w
    simp [scanAccepts_cons, hostScanStep]
  have hdot : ∀ w, scanAccepts ⟨.topLabel, 0, none, 0⟩ none (46 :: w) ↔
      scanAccepts ⟨.topLabel, 0, none, 0⟩ (some 46) w := by
    intro w
    rw [scanAccepts_cons]
    cases w with
    | nil => simp [hostScanStep, scanAccepts_nil]
    | cons c w => simp [hostScanStep]
  rw [List.reverse_append, List.reverse_replicate]
  match k with
  | 0 =>
    rw [← hstart]
    simp only [List.replicate_zero, List.nil_append, Nat.zero_le, true_and]
    cases hrev : name.reverse with
    | nil => simp [scanAccepts_nil]
    | cons c w =>
      refine scanAccepts_right_congr ?_ w none (some 46)
      rintro rfl
      rw [← List.head?_reverse, hrev] at hname
      exact hname rfl
  | 1 =>
    rw [← hstart]
    simpa using hdot name.reverse
  | k + 2 =>
    refine iff_of_false ?_ (by omega)
    rw [List.replicate_succ, List.cons_append, hdot, List.replicate_succ, List.cons_append]
    exact hempty _

theorem exists_dots (name : Bytes) :
    ∃ core k, name = core ++ List.replicate k 46 ∧ core.getLast? ≠ some 46 := by
  induction name using List.reverseRecOn with
  | nil => exact ⟨[], 0, rfl, by simp⟩
  | append_singleton name c ih =>
    by_cases hc : c = 46
    · obtain ⟨core, k, rfl, hcore⟩ := ih
      refine ⟨core, k + 1, ?_, hcore⟩
      rw [List.append_assoc, hc, List.replicate_succ']
    · exact ⟨name ++ [c], 0, by simp, by simpa using hc⟩

theorem HostName.getLast?_ne {P : Bytes → Prop} (hP : ∀ l, P l → l ≠ []) (h : HostName P name) :
    name.getLast? ≠ some 46 := by
  intro hlast
  obtain ⟨u, rfl⟩ : ∃ u, name = u ++ [46] := by
    obtain ⟨hne, hlast⟩ := List.getLast?_eq_some_iff.mp hlast
    exact ⟨hne, hlast⟩
  refine hP [] (h.labels [] ?_) rfl
  rw [List.splitOn_append_cons_self]
  simp [List.splitOn_nil]

theorem HostName.mem (h : HostName LooseLabel name) (hc : c ∈ name) : c = 46 ∨ IsLabelChar c := by
  have hjoin : c ∈ join 46 (name.splitOn 46) := by
    rw [join_splitOn]
    exact List.mem_cons_of_mem 46 hc
  obtain ⟨l, hl, hc⟩ := List.mem_flatMap.mp hjoin
  exact (List.mem_cons.mp hc).imp_right ((h.labels l hl).chars c)

theorem HostName.notMem (h : HostName LooseLabel name) (hc : c = 58 ∨ c = 91) : c ∉ name := by
  intro hmem
  have hnot : ¬ (c = 46 ∨ IsLabelChar c) := by
    unfold IsLabelChar
    rcases hc with rfl | rfl <;> decide
  exact hnot (h.mem hmem)

/-! ## The function -/

/-- A name without the dot at its end. -/
def stripDot (name : Bytes) : Bytes := if name.getLast? = some 46 then name.dropLast else name

/-- The function on a name and a port. -/
def checkNameAndPort (name port : Bytes) : Bool × Bytes :=
  if ¬ (cstr port.tail).all isDigit then (false, name ++ port)
  else if name = [] then (false, name ++ port)
  else if stripDot name = [] then (false, stripDot name ++ port)
  else
    match hostScan ⟨.topLabel, 0, none, 0⟩ none (stripDot name).reverse with
    | none => (false, stripDot name ++ port)
    | some s => (¬ (s.isIp = some true ∧ s.level ≠ 3) ∧ s.labelLen ≠ 0, stripDot name ++ port)

/-- The first colon of a host that is not in brackets is the one before the port. -/
theorem requestCheckHostname_append (h91 : (name ++ port).head? ≠ some 91) (h58 : 58 ∉ name)
    (hport : port = [] ∨ ∃ v, port = 58 :: v) :
    requestCheckHostname (name ++ port) = checkNameAndPort name port := by
  rw [requestCheckHostname, if_neg h91]
  rcases hport with rfl | ⟨v, rfl⟩
  · rw [List.append_nil, memchr_of_notMem h58]
    simp only [checkNameAndPort, List.append_nil]
    rfl
  · rw [memchr_append_cons h58]
    simp only [List.take_left, List.drop_left]
    rfl

theorem checkNameAndPort_iff {name port : Bytes} (hport : port = [] ∨ ∃ v, port = 58 :: v)
    (h0 : 0 ∉ port) :
    ((checkNameAndPort name port).1 = true ↔
      IsPort port ∧ stripDot name ≠ [] ∧
        scanAccepts ⟨.topLabel, 0, none, 0⟩ none (stripDot name).reverse) ∧
      ((checkNameAndPort name port).1 = true →
        (checkNameAndPort name port).2 = stripDot name ++ port) := by
  have hcstr : cstr port.tail = port.tail := cstr_of_notMem fun h => h0 (List.mem_of_mem_tail h)
  have hdigits : port.tail.all isDigit = true ↔ IsPort port := by
    unfold IsPort
    rcases hport with rfl | ⟨v, rfl⟩ <;> simp
  unfold checkNameAndPort
  rw [hcstr]
  by_cases hp : IsPort port
  · rw [if_neg (not_not.mpr (hdigits.mpr hp))]
    by_cases hname : name = []
    · simp [hname, stripDot]
    · rw [if_neg hname]
      by_cases hstrip : stripDot name = []
      · simp [hstrip]
      · rw [if_neg hstrip]
        unfold scanAccepts
        cases hostScan ⟨.topLabel, 0, none, 0⟩ none (stripDot name).reverse with
        | none => simp
        | some s =>
          simp only [hp, hstrip, Option.some.injEq, exists_eq_left', decide_eq_true_eq, true_and,
            ne_eq, not_false_eq_true, implies_true, and_self]
  · rw [if_pos (mt hdigits.mp hp)]
    simp [hp]

theorem stripDot_append_replicate (hname : name.getLast? ≠ some 46) (k : ℕ) :
    stripDot (name ++ List.replicate k 46) = name ++ List.replicate (k - 1) 46 := by
  unfold stripDot
  cases k with
  | zero => simp [hname]
  | succ k =>
    rw [List.replicate_succ', ← List.append_assoc, List.getLast?_concat, if_pos rfl,
      List.dropLast_concat]
    rfl

/-- The hosts without brackets that are accepted, and what is left of the dots at their end. -/
theorem requestCheckHostname_name {k : ℕ} (hname : name.getLast? ≠ some 46)
    (h91 : (name ++ List.replicate k 46 ++ port).head? ≠ some 91) (h58 : 58 ∉ name)
    (hport : port = [] ∨ ∃ v, port = 58 :: v) (h0 : 0 ∉ port) :
    ((requestCheckHostname (name ++ List.replicate k 46 ++ port)).1 = true ↔
      IsPort port ∧ k ≤ 2 ∧ HostName LooseLabel name) ∧
      ((requestCheckHostname (name ++ List.replicate k 46 ++ port)).1 = true →
        (requestCheckHostname (name ++ List.replicate k 46 ++ port)).2 =
          name ++ List.replicate (k - 1) 46 ++ port) := by
  have h58' : 58 ∉ name ++ List.replicate k 46 := by simp [h58]
  rw [requestCheckHostname_append h91 h58' hport]
  obtain ⟨haccepts, hbuffer⟩ := @checkNameAndPort_iff (name ++ List.replicate k 46) _ hport h0
  rw [stripDot_append_replicate hname] at haccepts hbuffer
  refine ⟨?_, hbuffer⟩
  rw [haccepts, scanAccepts_dots_iff hname]
  refine and_congr_right fun _ => ?_
  constructor
  · rintro ⟨-, hk, hlabels⟩
    exact ⟨by omega, hlabels⟩
  · rintro ⟨hk, hlabels⟩
    refine ⟨fun hnil => ?_, by omega, hlabels⟩
    rw [(List.append_eq_nil_iff.mp hnil).1] at hlabels
    exact (hlabels.labels [] (by simp [List.splitOn_nil])).ne_nil rfl

theorem bracketScan_eq_some_iff {rest : Bytes} (h0 : 0 ∉ w) : ∀ {n : ℕ}, n ≤ 7 →
    (bracketScan n w = some rest ↔
      ∃ a, w = a ++ 93 :: rest ∧ (∀ c ∈ a, isXDigit c ∨ c = 58 ∨ c = 46) ∧ n + a.count 58 ≤ 7) := by
  induction w with
  | nil =>
    intro n _
    simp [bracketScan]
  | cons c w ih =>
    intro n hn
    have h0c : c ≠ 0 := fun h => h0 (h ▸ List.mem_cons_self)
    replace ih := @ih fun h => h0 (List.mem_cons_of_mem c h)
    -- an address that starts with a byte other than the bracket
    have hcons : c ≠ 93 → ((∃ a, c :: w = a ++ 93 :: rest ∧
        (∀ c ∈ a, isXDigit c ∨ c = 58 ∨ c = 46) ∧ n + a.count 58 ≤ 7) ↔
          ∃ a, w = a ++ 93 :: rest ∧ (∀ d ∈ c :: a, isXDigit d ∨ d = 58 ∨ d = 46) ∧
            n + (c :: a).count 58 ≤ 7) := by
      intro h93
      constructor
      · rintro ⟨a, heq, hchars, hcount⟩
        cases a with
        | nil => exact absurd (List.cons.inj heq).1 h93
        | cons d a =>
          obtain ⟨rfl, rfl⟩ := List.cons.inj heq
          exact ⟨a, rfl, hchars, hcount⟩
      · rintro ⟨a, rfl, hchars, hcount⟩
        exact ⟨c :: a, rfl, hchars, hcount⟩
    rw [bracketScan]
    by_cases h93 : c = 93
    · subst h93
      rw [if_pos rfl]
      constructor
      · rintro ⟨⟩
        exact ⟨[], rfl, by simp, by simpa using hn⟩
      · rintro ⟨a, heq, hchars, -⟩
        cases a with
        | nil => rw [(List.cons.inj heq).2]
        | cons d a =>
          have hd := hchars 93 (by rw [(List.cons.inj heq).1]; exact List.mem_cons_self)
          exact absurd hd (by decide)
    · rw [if_neg h93, if_neg h0c, hcons h93]
      by_cases h58 : c = 58
      · subst h58
        rw [if_pos rfl]
        split_ifs with hlt
        · refine iff_of_false (by simp) ?_
          rintro ⟨a, -, -, hcount⟩
          rw [List.count_cons_self] at hcount
          omega
        · rw [ih (by omega)]
          refine exists_congr fun a => and_congr_right fun _ => and_congr ?_ ?_
          · simp
          · rw [List.count_cons_self]
            omega
      · rw [if_neg h58]
        by_cases hx : isXDigit c = true ∨ c = 46
        · have hnot : ¬ (¬ isXDigit c = true ∧ c ≠ 46) := by tauto
          rw [if_neg hnot, ih hn]
          refine exists_congr fun a => and_congr_right fun _ => and_congr ?_ ?_
          · have hc : isXDigit c = true ∨ c = 58 ∨ c = 46 := by tauto
            simp [hc]
          · rw [List.count_cons_of_ne h58]
        · have hnot : ¬ isXDigit c = true ∧ c ≠ 46 := not_or.mp hx
          rw [if_pos hnot]
          refine iff_of_false (by simp) ?_
          rintro ⟨a, -, hchars, -⟩
          rcases hchars c List.mem_cons_self with h | h | h
          · exact hnot.1 h
          · exact h58 h
          · exact hnot.2 h

theorem requestCheckHostname_bracket {host : Bytes} (h91 : host.head? = some 91) (h0 : 0 ∉ host) :
    ((requestCheckHostname host).1 = true ↔ BracketHost host) ∧
      (requestCheckHostname host).2 = host := by
  obtain ⟨w, rfl⟩ := List.head?_eq_some_iff.mp h91
  have h0w : 0 ∉ w := fun h => h0 (List.mem_cons_of_mem 91 h)
  have hbracket : BracketHost (91 :: w) ↔ ∃ rest, bracketScan 0 w = some rest ∧ IsPort rest := by
    constructor
    · rintro ⟨a, port, heq, hchars, hcount, hport⟩
      refine ⟨port, (bracketScan_eq_some_iff h0w (Nat.zero_le 7)).mpr
        ⟨a, (List.cons.inj heq).2, hchars, by omega⟩, hport⟩
    · rintro ⟨rest, hscan, hport⟩
      obtain ⟨a, rfl, hchars, hcount⟩ := (bracketScan_eq_some_iff h0w (Nat.zero_le 7)).mp hscan
      exact ⟨a, rest, rfl, hchars, by omega, hport⟩
  rw [requestCheckHostname, if_pos h91, List.tail_cons, hbracket]
  cases hscan : bracketScan 0 w with
  | none => simp
  | some rest =>
    have h0rest : 0 ∉ rest := by
      obtain ⟨a, rfl, -⟩ := (bracketScan_eq_some_iff h0w (Nat.zero_le 7)).mp hscan
      exact fun h => h0w (by simp [h])
    cases rest with
    | nil => simp [IsPort]
    | cons c rest =>
      by_cases hc : c = 58
      · subst hc
        have hcstr : cstr rest = rest := cstr_of_notMem fun h => h0rest (List.mem_cons_of_mem 58 h)
        simp [IsPort, hcstr]
      · have hc0 : c ≠ 0 := fun h => h0rest (h ▸ List.mem_cons_self)
        simp [IsPort, hc, hc0]

/-- The host without its port. -/
def hostPart (host : Bytes) : Bytes :=
  if host.head? = some 91 then host.takeWhile (· ≠ 93) ++ [93] else host.takeWhile (· ≠ 58)

/-- The function accepts the hosts of the grammar, and leaves a host without a dot at its end, which
it accepts as it is. -/
structure ChecksHostname (host : Bytes) : Prop where
  accepts : (requestCheckHostname host).1 = true ↔ WellFormedHost host
  noDot : (requestCheckHostname host).1 = true →
    (hostPart (requestCheckHostname host).2).getLast? ≠ some 46
  again : (requestCheckHostname host).1 = true →
    requestCheckHostname (requestCheckHostname host).2 = (true, (requestCheckHostname host).2)

/-- A label that ends with `-`, or two dots at the end. -/
def LooseHost (host : Bytes) : Prop :=
  ∃ name dots port, host = name ++ (dots ++ port) ∧ HostName LooseLabel name ∧
    (dots = [] ∨ dots = [46] ∨ dots = [46, 46]) ∧ IsPort port ∧
    (dots = [46, 46] ∨ ∃ l ∈ name.splitOn 46, l.getLast? = some 45)

theorem HostName.mono {P Q : Bytes → Prop} (h : HostName P name)
    (hPQ : ∀ l ∈ name.splitOn 46, P l → Q l) : HostName Q name :=
  ⟨fun l hl => hPQ l hl (h.labels l hl), h.address⟩

theorem hostPart_append (h91 : (name ++ port).head? ≠ some 91) (h58 : 58 ∉ name)
    (hport : port = [] ∨ ∃ v, port = 58 :: v) : hostPart (name ++ port) = name := by
  have hname : name.takeWhile (· ≠ 58) = name :=
    List.takeWhile_eq_self_iff.mpr fun c hc => by
      simpa using fun h : c = 58 => h58 (h ▸ hc)
  rw [hostPart, if_neg h91]
  rcases hport with rfl | ⟨v, rfl⟩
  · rw [List.append_nil, hname]
  · rw [List.takeWhile_append, hname]
    simp

theorem IsPort.eq_nil_or_cons (h : IsPort port) : port = [] ∨ ∃ v, port = 58 :: v := by
  rcases h with h | ⟨v, h, -⟩
  · exact .inl h
  · exact .inr ⟨v, h⟩

theorem append_port_inj {port' : Bytes} (h58 : 58 ∉ name) (h58' : 58 ∉ name')
    (hport : port = [] ∨ ∃ v, port = 58 :: v) (hport' : port' = [] ∨ ∃ v, port' = 58 :: v)
    (h : name ++ port = name' ++ port') : name = name' ∧ port = port' := by
  rcases hport with rfl | ⟨v, rfl⟩ <;> rcases hport' with rfl | ⟨v', rfl⟩
  · exact ⟨by simpa using h, rfl⟩
  · rw [List.append_nil] at h
    exact absurd (by simp [h]) h58
  · rw [List.append_nil] at h
    exact absurd (by simp [← h]) h58'
  · obtain ⟨hname, hv⟩ := append_cons_inj h58 h58' h
    exact ⟨hname, by rw [hv]⟩

theorem append_replicate_inj (hname : name.getLast? ≠ some 46) (hname' : name'.getLast? ≠ some 46) :
    ∀ {k k' : ℕ},
    name ++ List.replicate k 46 = name' ++ List.replicate k' 46 → name = name' ∧ k = k'
  | 0, 0, h => ⟨by simpa using h, rfl⟩
  | 0, k' + 1, h => by
    rw [List.replicate_zero, List.append_nil, List.replicate_succ', ← List.append_assoc] at h
    exact absurd (by rw [h, List.getLast?_concat]) hname
  | k + 1, 0, h => by
    rw [List.replicate_zero, List.append_nil, List.replicate_succ', ← List.append_assoc] at h
    exact absurd (by rw [← h, List.getLast?_concat]) hname'
  | k + 1, k' + 1, h => by
    rw [List.replicate_succ', List.replicate_succ', ← List.append_assoc, ← List.append_assoc] at h
    obtain ⟨hname, hk⟩ := append_replicate_inj hname hname' (List.append_cancel_right h)
    exact ⟨hname, by rw [hk]⟩

/-- The hosts that are not in brackets: their name, the dots behind it and the port. -/
theorem exists_name_dots_port (host : Bytes) :
    ∃ name k port, host = name ++ List.replicate k 46 ++ port ∧ name.getLast? ≠ some 46 ∧
      58 ∉ name ∧ (port = [] ∨ ∃ v, port = 58 :: v) := by
  have hsplit : ∃ pre port, host = pre ++ port ∧ 58 ∉ pre ∧ (port = [] ∨ ∃ v, port = 58 :: v) := by
    by_cases h58 : 58 ∈ host
    · obtain ⟨pre, v, rfl, hpre⟩ := List.eq_append_cons_of_mem h58
      exact ⟨pre, 58 :: v, rfl, hpre, .inr ⟨v, rfl⟩⟩
    · exact ⟨host, [], (List.append_nil host).symm, h58, .inl rfl⟩
  obtain ⟨pre, port, rfl, hpre, hport⟩ := hsplit
  obtain ⟨name, k, rfl, hname⟩ := exists_dots pre
  exact ⟨name, k, port, rfl, hname, fun h => hpre (List.mem_append_left _ h), hport⟩

theorem LooseLabel.of_label {l : Bytes} (h : Label l) : LooseLabel l := h.1

theorem HostName.ne_nil (h : HostName LooseLabel name) : name ≠ [] := by
  rintro rfl
  exact (h.labels [] (by simp [List.splitOn_nil])).ne_nil rfl

theorem HostName.head_ne (h : HostName LooseLabel name) (rest : Bytes) :
    (name ++ rest).head? ≠ some 91 := by
  obtain ⟨c, t, rfl⟩ := List.exists_cons_of_ne_nil h.ne_nil
  intro hc
  exact h.notMem (.inr (Option.some.inj hc)) List.mem_cons_self

/-- A host of the grammar has one name, one number of dots behind it and one port. -/
theorem HostName.dots_port_inj {dots port' : Bytes} {k : ℕ} (hname : name.getLast? ≠ some 46)
    (h58 : 58 ∉ name) (hport : port = [] ∨ ∃ v, port = 58 :: v) (hname' : HostName LooseLabel name')
    (hdots : dots = [] ∨ dots = [46] ∨ dots = [46, 46]) (hport' : IsPort port')
    (h : name ++ List.replicate k 46 ++ port = name' ++ (dots ++ port')) :
    name = name' ∧ List.replicate k 46 = dots ∧ port = port' := by
  obtain ⟨k', rfl⟩ : ∃ k', dots = List.replicate k' 46 := by
    rcases hdots with rfl | rfl | rfl
    · exact ⟨0, rfl⟩
    · exact ⟨1, rfl⟩
    · exact ⟨2, rfl⟩
  rw [← List.append_assoc] at h
  obtain ⟨hpre, hport⟩ := append_port_inj (by simp [h58]) (by simp [hname'.notMem (.inl rfl)])
    hport hport'.eq_nil_or_cons h
  obtain ⟨hname, hk⟩ := append_replicate_inj hname
    (hname'.getLast?_ne fun l (hl : LooseLabel l) => hl.ne_nil) hpre
  exact ⟨hname, by rw [hk], hport⟩

section

variable {name port : Bytes} {k : ℕ}

theorem wellFormedHost_iff (hname : name.getLast? ≠ some 46)
    (h91 : (name ++ List.replicate k 46 ++ port).head? ≠ some 91) (h58 : 58 ∉ name)
    (hport : port = [] ∨ ∃ v, port = 58 :: v) :
    WellFormedHost (name ++ List.replicate k 46 ++ port) ↔
      IsPort port ∧ k ≤ 1 ∧ HostName Label name := by
  constructor
  · rintro (⟨a, port', heq, -⟩ | ⟨name', dot, port', heq, hlabels, hdot, hport'⟩)
    · rw [heq] at h91
      exact absurd rfl h91
    · have hloose := hlabels.mono fun l _ hl => LooseLabel.of_label hl
      obtain ⟨rfl, hk, rfl⟩ := hloose.dots_port_inj hname h58 hport
        (hdot.imp_right .inl) hport' heq
      refine ⟨hport', ?_, hlabels⟩
      have hlength := congrArg List.length hk
      rcases hdot with rfl | rfl <;> simp at hlength <;> omega
  · rintro ⟨hport, hk, hlabels⟩
    refine .inr ⟨name, List.replicate k 46, port, List.append_assoc _ _ _, hlabels, ?_, hport⟩
    interval_cases k
    · exact .inl rfl
    · exact .inr rfl

theorem looseHost_iff (hname : name.getLast? ≠ some 46) (h58 : 58 ∉ name)
    (hport : port = [] ∨ ∃ v, port = 58 :: v) :
    LooseHost (name ++ List.replicate k 46 ++ port) ↔
      IsPort port ∧ k ≤ 2 ∧ HostName LooseLabel name ∧
        (k = 2 ∨ ∃ l ∈ name.splitOn 46, l.getLast? = some 45) := by
  constructor
  · rintro ⟨name', dots, port', heq, hlabels, hdots, hport', hbad⟩
    obtain ⟨rfl, hk, rfl⟩ := hlabels.dots_port_inj hname h58 hport hdots hport' heq
    have hlength := congrArg List.length hk
    rw [List.length_replicate] at hlength
    refine ⟨hport', ?_, hlabels, hbad.imp_left fun h => ?_⟩
    · rcases hdots with rfl | rfl | rfl <;> simp at hlength <;> omega
    · rw [hlength, h]
      rfl
  · rintro ⟨hport, hk, hlabels, hbad⟩
    refine ⟨name, List.replicate k 46, port, List.append_assoc _ _ _, hlabels, ?_, hport,
      hbad.imp_left ?_⟩
    · interval_cases k
      · exact .inl rfl
      · exact .inr (.inl rfl)
      · exact .inr (.inr rfl)
    · rintro rfl
      rfl

end

theorem checksHostname_of_bracket {host : Bytes} (h91 : host.head? = some 91) (h0 : 0 ∉ host) :
    ChecksHostname host := by
  obtain ⟨haccepts, hbuffer⟩ := requestCheckHostname_bracket h91 h0
  refine ⟨?_, ?_, ?_⟩
  · rw [haccepts]
    refine ⟨.inl, fun h => h.resolve_right ?_⟩
    rintro ⟨name, dot, port, rfl, hlabels, -⟩
    exact (hlabels.mono fun l _ hl => LooseLabel.of_label hl).head_ne _ h91
  · intro _
    rw [hbuffer, hostPart, if_pos h91, List.getLast?_concat]
    decide
  · intro haccepted
    rw [hbuffer]
    exact Prod.ext haccepted hbuffer

/-- The function meets its contract on the hosts that are none of the two kinds. -/
theorem requestCheckHostname_iff (host : Bytes) (h0 : 0 ∉ host) :
    ChecksHostname host ↔ ¬ LooseHost host := by
  by_cases h91 : host.head? = some 91
  · refine iff_of_true (checksHostname_of_bracket h91 h0) ?_
    rintro ⟨name, dots, port, rfl, hlabels, -⟩
    exact hlabels.head_ne _ h91
  obtain ⟨name, k, port, rfl, hname, h58, hport⟩ := exists_name_dots_port host
  have h0port : 0 ∉ port := fun h => h0 (List.mem_append_right _ h)
  obtain ⟨haccepts, hbuffer⟩ := requestCheckHostname_name hname h91 h58 hport h0port
  have hwell := wellFormedHost_iff hname h91 h58 hport
  have hloose := looseHost_iff (k := k) hname h58 hport
  rw [hloose]
  constructor
  · rintro ⟨haccept, hnoDot, -⟩ ⟨hport', hk, hlabels, hbad⟩
    have hyes := haccepts.mpr ⟨hport', hk, hlabels⟩
    rcases hbad with rfl | ⟨l, hl, hlast⟩
    · -- one of the two dots is left
      have hpart : hostPart (name ++ [46] ++ port) = name ++ [46] := by
        refine hostPart_append ?_ (by simp [h58]) hport
        rw [List.append_assoc]
        exact hlabels.head_ne _
      refine hnoDot hyes ?_
      rw [hbuffer hyes, show List.replicate (2 - 1) (46 : UInt8) = [46] from rfl, hpart,
        List.getLast?_concat]
    · exact ((hwell.mp (haccept.mp hyes)).2.2.labels l hl).2 hlast
  · intro hnot
    have hsame : IsPort port ∧ k ≤ 2 ∧ HostName LooseLabel name →
        k ≤ 1 ∧ HostName Label name := by
      rintro ⟨hport', hk, hlabels⟩
      simp only [hport', hk, hlabels, true_and, not_or, not_exists, not_and] at hnot
      exact ⟨by omega, hlabels.mono fun l hl hloose => ⟨hloose, hnot.2 l hl⟩⟩
    refine ⟨?_, ?_, ?_⟩
    · rw [haccepts, hwell]
      constructor
      · intro h
        exact ⟨h.1, hsame h⟩
      · rintro ⟨hport', hk, hlabels⟩
        exact ⟨hport', by omega, hlabels.mono fun l _ hl => hl.1⟩
    all_goals
      intro hyes
      obtain ⟨hport', hk, hlabels⟩ := haccepts.mp hyes
      have hk1 := (hsame ⟨hport', hk, hlabels⟩).1
      have hafter : (requestCheckHostname (name ++ List.replicate k 46 ++ port)).2 =
          name ++ port := by
        rw [hbuffer hyes, show k - 1 = 0 by omega, List.replicate_zero, List.append_nil]
      rw [hafter]
    · rw [hostPart_append (hlabels.head_ne port) h58 hport]
      exact hname
    · obtain ⟨haccepts', hbuffer'⟩ := requestCheckHostname_name (k := 0) hname
        (by simpa using hlabels.head_ne port) h58 hport h0port
      have hyes' := haccepts'.mpr ⟨hport', by omega, hlabels⟩
      have hafter' := hbuffer' hyes'
      simp only [List.replicate_zero, List.append_nil] at hyes' hafter'
      exact Prod.ext hyes' (by simpa using hafter')

theorem requestCheckHostname_a : ChecksHostname [97] ↔ ¬ LooseHost [97] :=
  requestCheckHostname_iff [97] (by decide)

/-- `a..` -/
theorem requestCheckHostname_dots : ¬ ∀ host, host ≠ [] → 0 ∉ host → ChecksHostname host := by
  intro h
  have hnoDot := (h [97, 46, 46] (by decide) (by decide)).noDot (by decide)
  exact absurd hnoDot (by decide)

end Lighttpd
