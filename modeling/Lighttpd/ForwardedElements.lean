import Lighttpd.ForwardedBounds

/-!
# The elements of a Forwarded header

A header is written as elements with commas in between, an element as parameters with semicolons in
between, and a value is a token or a quoted string. `modExtforwardForwarded_render` says which
address such a header sets: the walk goes from the last element that has a `for` to the first one
that is not trusted, and the leftmost address on the way that is not obfuscated is taken.
-/

namespace Lighttpd

open CString FaultRuns

/-! ## Elements -/

/-- A token has no blanks, quotation marks or separators. -/
def IsForwardedTokenByte (c : UInt8) : Prop :=
  c ≠ 0 ∧ c ≠ SP ∧ c ≠ HT ∧ c ≠ 34 ∧ c ≠ 44 ∧ c ≠ 59 ∧ c ≠ 61

instance : DecidablePred IsForwardedTokenByte := fun _ => inferInstanceAs (Decidable (_ ∧ _))

/-- What stands between quotation marks: bytes, and any byte behind a backslash. -/
inductive QuotedText : Bytes → Prop
  | nil : QuotedText []
  | plain {c : UInt8} {t : Bytes} :
      c ≠ 0 → c ≠ 34 → c ≠ 92 → QuotedText t → QuotedText (c :: t)
  | escaped {c : UInt8} {t : Bytes} : c ≠ 0 → QuotedText t → QuotedText (92 :: c :: t)

/-- A token or a quoted string. -/
inductive ForwardedValue
  | token (t : Bytes) (nonempty : t ≠ []) (bytes : ∀ c ∈ t, IsForwardedTokenByte c)
  | quoted (t : Bytes) (text : QuotedText t)

/-- The value as it is written. -/
def ForwardedValue.text : ForwardedValue → Bytes
  | .token t _ _ => t
  | .quoted t _ => 34 :: t ++ [34]

/-- The value is a quoted string. -/
def ForwardedValue.isQuoted : ForwardedValue → Bool
  | .token .. => false
  | .quoted .. => true

/-- What is between the bracket and the last `]`, if that is not empty. -/
def bracketedAddr (t : Bytes) : Option Bytes :=
  if 93 ∈ t.tail then some (t.rdropWhile fun c => c ≠ 93).dropLast else none

/-- The address between quotation marks: what is in brackets, an obfuscated address or a path as it
is, and anything else up to the port. -/
def quotedAddr (t : Bytes) : Option Bytes :=
  if t.head? = some 91 then bracketedAddr t.tail
  else if t.head? = some 95 ∨ t.head? = some 47 ∨ t.head? = some 117 then some t
  else some (t.takeWhile fun c => c ≠ 58)

/-- The address in the value of a `for`; none if there is none in the brackets. -/
def ForwardedValue.addr : ForwardedValue → Option Bytes
  | .token t _ _ => some t
  | .quoted t _ => quotedAddr t

/-- `name=value`, with blanks around it. -/
structure ForwardedPair where
  before : Bytes
  name : Bytes
  value : ForwardedValue
  after : Bytes
  before_blank : ∀ c ∈ before, c = SP ∨ c = HT
  name_nonempty : name ≠ []
  name_bytes : ∀ c ∈ name, IsForwardedTokenByte c
  after_blank : ∀ c ∈ after, c = SP ∨ c = HT

/-- The pair as it is written. -/
def ForwardedPair.render (p : ForwardedPair) : Bytes :=
  p.before ++ (p.name ++ (61 :: (p.value.text ++ p.after)))

/-- An element as it is written. -/
def renderElement (ps : List ForwardedPair) : Bytes :=
  [59].intercalate (ps.map (·.render))

/-- A header as it is written. -/
def renderForwarded (es : List (List ForwardedPair)) : Bytes :=
  [44].intercalate (es.map renderElement)

/-- The entries that the header takes in the table. -/
def elementEntries (es : List (List ForwardedPair)) : ℕ :=
  es.length - 1 + 4 * (es.map List.length).sum

/-! ## The address -/

/-- The pair is a `for`. -/
def ForwardedPair.IsFor (p : ForwardedPair) : Prop :=
  p.name.length = 3 ∧ bufferCaselessCompare p.name (str "for") = 0

instance : DecidablePred ForwardedPair.IsFor := fun _ => inferInstanceAs (Decidable (_ ∧ _))

/-- The value of the `for` of an element: the last one counts. -/
def forValue (ps : List ForwardedPair) : Option ForwardedValue :=
  (ps.reverse.find? fun p => p.IsFor).map (·.value)

/-- The values of the elements that have a `for`. -/
def forValues (es : List (List ForwardedPair)) : List ForwardedValue := es.filterMap forValue

/-- The values up to the first one that stops a walk. -/
def visited (stops : ForwardedValue → Bool) : List ForwardedValue → List ForwardedValue
  | [] => []
  | v :: vs => if stops v then [v] else v :: visited stops vs

/-- The walk stops at an address that is not trusted, or at a value that is rejected; it goes on
from an empty address. -/
def stopsWalk (conf : ExtforwardConf) (v : ForwardedValue) : Bool :=
  match v.addr with
  | none => true
  | some addr => addr ≠ [] ∧ ¬ conf.isProxyTrusted addr

/-- The values that are visited, from the last element on. -/
def visitedValues (conf : ExtforwardConf) (es : List (List ForwardedPair)) : List ForwardedValue :=
  visited (stopsWalk conf) (forValues es).reverse

/-- The address, if it is not obfuscated. -/
def ForwardedValue.clearAddr (v : ForwardedValue) : Option Bytes :=
  v.addr.filter fun addr => addr ≠ [] ∧ ¬ isObfuscated addr

/-- The leftmost address of the visited values that is not obfuscated; none if a visited value is
rejected. -/
def forwardedAddress (conf : ExtforwardConf) (es : List (List ForwardedPair)) :
    Option (Option Bytes) :=
  if (visitedValues conf es).any (·.addr.isNone) then none
  else some ((visitedValues conf es).filterMap (·.clearAddr)).getLast?

/-! ## Reading -/

/-- The value goes on with `rest` at `i`. -/
structure RestAt (s : Bytes) (i : ℤ) (rest : Bytes) : Prop where
  nonneg : 0 ≤ i
  le : i ≤ s.length
  drop : s.drop i.toNat = rest

section Reading

variable {s t rest : Bytes} {i : ℤ} {c : UInt8}

theorem RestAt.zero (s : Bytes) : RestAt s 0 s := ⟨le_rfl, by omega, rfl⟩

theorem RestAt.length (h : RestAt s i rest) : i + rest.length = s.length := by
  have h0 := h.nonneg
  have hle := h.le
  rw [← h.drop, List.length_drop]
  omega

theorem RestAt.append (h : RestAt s i (t ++ rest)) : RestAt s (i + t.length) rest := by
  have h0 := h.nonneg
  have hlen := h.length
  rw [List.length_append] at hlen
  refine ⟨by omega, by omega, ?_⟩
  rw [show (i + t.length).toNat = i.toNat + t.length by omega, ← List.drop_drop, h.drop,
    List.drop_left]

theorem RestAt.cons (h : RestAt s i (c :: rest)) : RestAt s (i + 1) rest :=
  @RestAt.append s [c] rest i h

theorem RestAt.take (h : RestAt s i (t ++ rest)) : (s.drop i.toNat).take t.length = t := by
  rw [h.drop, List.take_left]

theorem RestAt.byteAt_eq (h : RestAt s i rest) : byteAt s i = rest.headD 0 := by
  rw [byteAt, ← h.drop, List.headD_eq_head?_getD, List.head?_drop, List.getD_eq_getElem?_getD]

theorem RestAt.readByte_eq (h : RestAt s i rest) : readByte s i = .ok (rest.headD 0) := by
  rw [readByte, if_pos ⟨h.nonneg, h.le⟩, ← h.byteAt_eq]
  rfl

theorem skipForwardedBlanks_at {b : Bytes} (hb : ∀ c ∈ b, c = SP ∨ c = HT)
    (hrest : ¬ (rest.headD 0 = SP ∨ rest.headD 0 = HT)) {fuel : ℕ} (h : RestAt s i (b ++ rest))
    (hfuel : b.length < fuel) : skipForwardedBlanks s fuel i = .ok (i + b.length) := by
  induction fuel generalizing b i with
  | zero => omega
  | succ fuel ih =>
    rw [skipForwardedBlanks, h.readByte_eq, ok_bind]
    cases b with
    | nil =>
      rw [List.nil_append, if_neg hrest]
      simp [pure, Except.pure]
    | cons c b =>
      rw [List.cons_append, List.headD_cons, if_pos (hb c List.mem_cons_self),
        ih (fun c hc => hb c (List.mem_cons_of_mem _ hc)) h.cons (by simpa using hfuel)]
      congr 1
      push_cast [List.length_cons]
      omega

theorem findEndQuotedString_at (ht : QuotedText t) {fuel : ℕ}
    (h : RestAt s (i + 1) (t ++ 34 :: rest)) (hfuel : t.length < fuel) :
    findEndQuotedString s fuel i = .ok (i + 1 + t.length) := by
  induction ht generalizing i fuel with
  | nil =>
    obtain ⟨fuel, rfl⟩ := Nat.exists_eq_succ_of_ne_zero (Nat.ne_of_gt hfuel)
    rw [findEndQuotedString, h.readByte_eq, ok_bind]
    simp [pure, Except.pure]
  | @plain c t h0 hquote hback _ ih =>
    obtain ⟨fuel, rfl⟩ := Nat.exists_eq_succ_of_ne_zero (Nat.ne_of_gt (Nat.zero_lt_of_lt hfuel))
    have hgo := @ih (i + 1) fuel h.cons (by simpa using hfuel)
    rw [findEndQuotedString, h.readByte_eq, ok_bind, List.cons_append, List.headD_cons,
      if_neg (by simp [h0, hquote]), if_neg hback, hgo]
    congr 1
    push_cast [List.length_cons]
    omega
  | @escaped c t h0 _ ih =>
    obtain ⟨fuel, rfl⟩ := Nat.exists_eq_succ_of_ne_zero (Nat.ne_of_gt (Nat.zero_lt_of_lt hfuel))
    rw [List.cons_append, List.cons_append] at h
    have hnext := h.cons
    rw [show i + 1 + 1 = i + 2 by omega] at hnext
    have hgo := @ih (i + 2) fuel hnext.cons
      (by simp only [List.length_cons] at hfuel; omega)
    rw [findEndQuotedString, h.readByte_eq, ok_bind, List.headD_cons, if_neg (by decide),
      if_pos rfl, hnext.readByte_eq, ok_bind, List.headD_cons, if_neg h0, hgo]
    congr 1
    push_cast [List.length_cons]
    omega

/-- `findNext` goes over the bytes. -/
inductive Passes (eq : Bool) : Bytes → Prop
  | nil : Passes eq []
  | plain {c : UInt8} {t : Bytes} : ¬ StopsAt eq c → c ≠ 34 → Passes eq t → Passes eq (c :: t)
  | quoted {q t : Bytes} : QuotedText q → Passes eq t → Passes eq (34 :: (q ++ 34 :: t))

theorem findNext_at {eq : Bool} (ht : Passes eq t) (hrest : StopsAt eq (rest.headD 0)) {fuel : ℕ}
    (h : RestAt s i (t ++ rest)) (hfuel : t.length < fuel) :
    findNext eq s fuel i = .ok (some (i + t.length)) := by
  rw [StopsAt] at hrest
  induction ht generalizing i fuel with
  | nil =>
    obtain ⟨fuel, rfl⟩ := Nat.exists_eq_succ_of_ne_zero (Nat.ne_of_gt hfuel)
    rw [List.nil_append] at h
    rw [findNext, h.readByte_eq, ok_bind, if_pos hrest]
    simp [pure, Except.pure]
  | @plain c t hstop hquote _ ih =>
    obtain ⟨fuel, rfl⟩ := Nat.exists_eq_succ_of_ne_zero (Nat.ne_of_gt (Nat.zero_lt_of_lt hfuel))
    have hgo := @ih (i + 1) fuel h.cons (by simpa using hfuel)
    rw [StopsAt] at hstop
    rw [findNext, h.readByte_eq, ok_bind, List.cons_append, List.headD_cons, if_neg hstop,
      if_neg hquote, hgo]
    congr 2
    push_cast [List.length_cons]
    omega
  | @quoted q t hq _ ih =>
    obtain ⟨fuel, rfl⟩ := Nat.exists_eq_succ_of_ne_zero (Nat.ne_of_gt (Nat.zero_lt_of_lt hfuel))
    rw [List.cons_append, List.append_assoc, List.cons_append] at h
    have hlen := h.cons.length
    have hend := @findEndQuotedString_at _ _ _ _ hq (s.length + 1) h.cons
      (by have := h.nonneg; simp only [List.length_append, List.length_cons] at hlen; omega)
    have hclose := h.cons.append
    have hgo := @ih (i + 1 + q.length + 1) fuel hclose.cons
      (by simp only [List.length_append, List.length_cons] at hfuel; omega)
    rw [findNext, h.readByte_eq, ok_bind, List.headD_cons, if_neg (by simp), if_pos rfl, hend, ok_bind,
      hclose.readByte_eq, ok_bind, List.headD_cons, if_neg (by decide), hgo]
    congr 2
    simp only [List.length_append, List.length_cons]
    omega

end Reading

/-! ## Parameters in the header -/

/-- A semicolon, a comma or the end. -/
def Separates (rest : Bytes) : Prop := rest = [] ∨ rest.head? = some 59 ∨ rest.head? = some 44

section Pairs

variable {s t rest : Bytes} {i : ℤ} {p : ForwardedPair}

theorem Separates.stopsAt (h : Separates rest) (eq : Bool) : StopsAt eq (rest.headD 0) := by
  rw [StopsAt, List.headD_eq_head?_getD]
  rcases h with rfl | h | h
  · simp
  · simp [h]
  · simp [h]

theorem Passes.append {eq : Bool} {u : Bytes} (ht : Passes eq t) (hu : Passes eq u) :
    Passes eq (t ++ u) := by
  induction ht with
  | nil => exact hu
  | plain hstop hquote _ ih => exact .plain hstop hquote ih
  | @quoted q t hq _ ih =>
    rw [List.cons_append, List.append_assoc, List.cons_append]
    exact .quoted hq ih

theorem passes_of_forall {eq : Bool} (h : ∀ c ∈ t, ¬ StopsAt eq c ∧ c ≠ 34) : Passes eq t := by
  induction t with
  | nil => exact .nil
  | cons c t ih =>
    obtain ⟨hstop, hquote⟩ := h c List.mem_cons_self
    exact .plain hstop hquote (ih fun c hc => h c (List.mem_cons_of_mem _ hc))

theorem passes_token (eq : Bool) (h : ∀ c ∈ t, IsForwardedTokenByte c) : Passes eq t := by
  refine passes_of_forall fun c hc => ?_
  obtain ⟨h0, -, -, hquote, hcomma, hsemi, heq⟩ := h c hc
  exact ⟨by simp [StopsAt, h0, hcomma, hsemi, heq], hquote⟩

theorem passes_blanks (eq : Bool) (h : ∀ c ∈ t, c = SP ∨ c = HT) : Passes eq t := by
  refine passes_of_forall fun c hc => ?_
  rcases h c hc with rfl | rfl
  · exact ⟨by simp [StopsAt, SP], by decide⟩
  · exact ⟨by simp [StopsAt, HT], by decide⟩

theorem ForwardedValue.last_not_blank (v : ForwardedValue) (h : v.text ≠ []) :
    ¬ decide (v.text.getLast h = SP ∨ v.text.getLast h = HT) := by
  cases v with
  | token t _ ht =>
    obtain ⟨-, hsp, hht, -⟩ := ht _ (List.getLast_mem h)
    simpa using ⟨hsp, hht⟩
  | quoted t _ => simp [text, SP, HT]

theorem ForwardedValue.passes (v : ForwardedValue) (eq : Bool) : Passes eq v.text := by
  cases v with
  | token t _ ht => exact passes_token eq ht
  | quoted t ht => exact .quoted ht .nil

/-- Where a pair is that is written from `i` on. -/
def ForwardedPair.paramAt (p : ForwardedPair) (i : ℤ) : ForwardedParam where
  k := i + p.before.length
  klen := p.name.length
  v := i + p.before.length + p.name.length + 1
  vlen := (p.value.text ++ p.after).length

theorem forwardedScan_pair (hrest : Separates rest) (h : RestAt s i (p.render ++ rest)) :
    forwardedScan s i = .ok (.param (p.paramAt i) (i + p.render.length)) := by
  have hlen := h.length
  have h0 := h.nonneg
  simp only [ForwardedPair.render, List.append_assoc, List.cons_append] at h hlen
  simp only [List.length_append, List.length_cons] at hlen
  have hname := h.append
  have heq := hname.append
  have hvalue := heq.cons
  rw [← List.append_assoc] at hvalue
  obtain ⟨c, n, hcn⟩ := List.exists_cons_of_ne_nil p.name_nonempty
  obtain ⟨hc0, hcsp, hcht, hcq, hccomma, hcsemi, hceq⟩ :=
    p.name_bytes c (hcn ▸ List.mem_cons_self)
  have hhead : (p.name ++ 61 :: (p.value.text ++ (p.after ++ rest))).headD 0 = c := by
    rw [hcn, List.cons_append, List.headD_cons]
  have hblanks := skipForwardedBlanks_at p.before_blank (by
    rw [hhead]
    exact not_or.mpr ⟨hcsp, hcht⟩) h
    (show p.before.length < s.length + 1 by omega)
  have hkey := findNext_at (passes_token true p.name_bytes)
    (show StopsAt true ((61 :: (p.value.text ++ (p.after ++ rest))).headD 0) by simp [StopsAt])
    hname (show p.name.length < s.length + 1 by omega)
  have hend := findNext_at ((p.value.passes false).append (passes_blanks false p.after_blank))
    (hrest.stopsAt false) hvalue
    (show (p.value.text ++ p.after).length < s.length + 1 by
      rw [List.length_append]
      omega)
  have hklen : i + p.before.length + p.name.length - (i + p.before.length) ≠ 0 := by
    have := List.length_pos_of_ne_nil p.name_nonempty
    omega
  rw [forwardedScan, hblanks, ok_bind, hname.readByte_eq, ok_bind, hhead, if_neg hcsemi,
    if_neg hccomma, if_neg hc0, hkey, ok_bind]
  dsimp only
  rw [heq.readByte_eq, ok_bind, List.headD_cons, if_neg (by decide), hend, ok_bind]
  dsimp only
  rw [if_neg hklen]
  simp only [pure, Except.pure, ForwardedPair.paramAt, ForwardedPair.render, List.length_append,
    List.length_cons, Except.ok.injEq, ForwardedScan.param.injEq, ForwardedParam.mk.injEq]
  exact ⟨⟨trivial, by omega, trivial, by omega⟩, by omega⟩

end Pairs

/-! ## Tokens -/

/-- A pair of the header, with the place where it is. -/
structure SitedPair (s : Bytes) where
  pair : ForwardedPair
  place : ℤ
  rest : Bytes
  at_place : RestAt s place (pair.render ++ rest)

/-- The pair as a parameter of the table. -/
def SitedPair.param {s : Bytes} (q : SitedPair s) : ForwardedParam := q.pair.paramAt q.place

/-- The parameters of an element. -/
def elementParams {s : Bytes} (qs : List (SitedPair s)) : List ForwardedToken :=
  qs.map fun q => .param q.param

/-- The tokens of elements. -/
def sitedTokens {s : Bytes} (es : List (List (SitedPair s))) : List ForwardedToken :=
  [.sep].intercalate (es.map elementParams)

/-- The first loop notes `ts` from `i` on. -/
def Tokenized (s : Bytes) (i : ℤ) (ts : List ForwardedToken) : Prop :=
  ∀ fuel : ℕ, s.length - i < fuel → forwardedTokens s fuel i = .ok (ts, true)

section Tokens

variable {s rest : Bytes} {i : ℤ} {ts : List ForwardedToken}

theorem Tokenized.of_scan {r : ForwardedScan} (hlt : i < s.length) (hscan : forwardedScan s i = .ok r)
    {j : ℤ} (hj : i < j) (hnext : Tokenized s j ts) {us : List ForwardedToken}
    (hr : r = .skip j ∧ us = ts ∨ r = .comma j ∧ us = .sep :: ts ∨
      ∃ p, r = .param p j ∧ us = .param p :: ts) : Tokenized s i us := by
  intro fuel hfuel
  obtain ⟨fuel, rfl⟩ := Nat.exists_eq_succ_of_ne_zero (show fuel ≠ 0 by omega)
  have hgo := hnext fuel (by push_cast at hfuel; omega)
  rw [forwardedTokens, if_pos hlt, hscan, ok_bind]
  rcases hr with ⟨rfl, rfl⟩ | ⟨rfl, rfl⟩ | ⟨p, rfl, rfl⟩
  · exact hgo
  · simp [hgo, ok_bind, pure, Except.pure]
  · simp [hgo, ok_bind, pure, Except.pure]

theorem tokenized_end (h : RestAt s i []) : Tokenized s i [] := by
  intro fuel hfuel
  have hlen := h.length
  obtain ⟨fuel, rfl⟩ := Nat.exists_eq_succ_of_ne_zero (show fuel ≠ 0 by omega)
  simp only [List.length_nil] at hlen
  rw [forwardedTokens, if_neg (by omega)]
  rfl

theorem forwardedScan_mark {c : UInt8} (hc : c = 59 ∨ c = 44) (h : RestAt s i (c :: rest)) :
    forwardedScan s i = .ok (if c = 59 then .skip (i + 1) else .comma (i + 1)) := by
  have hblanks := @skipForwardedBlanks_at s (c :: rest) i [] (by simp)
    (by rcases hc with rfl | rfl <;> simp [SP, HT]) (s.length + 1) h (by simp)
  rw [forwardedScan, hblanks, ok_bind, List.length_nil, Nat.cast_zero, add_zero, h.readByte_eq,
    ok_bind, List.headD_cons]
  rcases hc with rfl | rfl
  · rfl
  · rfl

theorem tokenized_semicolon (h : RestAt s i (59 :: rest)) (hnext : Tokenized s (i + 1) ts) :
    Tokenized s i ts := by
  have hlen := h.length
  rw [List.length_cons] at hlen
  exact .of_scan (by omega) (forwardedScan_mark (.inl rfl) h) (by omega) hnext (.inl ⟨rfl, rfl⟩)

theorem tokenized_comma (h : RestAt s i (44 :: rest)) (hnext : Tokenized s (i + 1) ts) :
    Tokenized s i (.sep :: ts) := by
  have hlen := h.length
  rw [List.length_cons] at hlen
  exact .of_scan (by omega) (forwardedScan_mark (.inr rfl) h) (by omega) hnext
    (.inr (.inl ⟨rfl, rfl⟩))

theorem tokenized_pair {p : ForwardedPair} (hrest : Separates rest)
    (h : RestAt s i (p.render ++ rest)) (hnext : Tokenized s (i + p.render.length) ts) :
    Tokenized s i (.param (p.paramAt i) :: ts) := by
  have hlen := h.length
  have hpos : 0 < p.render.length := by
    simp only [ForwardedPair.render, List.length_append, List.length_cons]
    omega
  rw [List.length_append] at hlen
  exact .of_scan (by omega) (forwardedScan_pair hrest h) (by omega) hnext
    (.inr (.inr ⟨_, rfl, rfl⟩))

theorem renderElement_cons_cons (p p' : ForwardedPair) (ps : List ForwardedPair) :
    renderElement (p :: p' :: ps) = p.render ++ 59 :: renderElement (p' :: ps) := by
  simp [renderElement]

theorem renderForwarded_cons_cons (e e' : List ForwardedPair) (es : List (List ForwardedPair)) :
    renderForwarded (e :: e' :: es) = renderElement e ++ 44 :: renderForwarded (e' :: es) := by
  simp [renderForwarded]

theorem tokenized_element {ps : List ForwardedPair} (h : RestAt s i (renderElement ps ++ rest))
    (hrest : rest = [] ∨ rest.head? = some 44)
    (hnext : Tokenized s (i + (renderElement ps).length) ts) :
    ∃ qs : List (SitedPair s), qs.map (·.pair) = ps ∧ Tokenized s i (elementParams qs ++ ts) := by
  induction ps generalizing i with
  | nil => exact ⟨[], rfl, by simpa [renderElement, elementParams] using hnext⟩
  | cons p ps ih =>
    cases ps with
    | nil =>
      have hp : renderElement [p] = p.render := by simp [renderElement]
      rw [hp] at h hnext
      exact ⟨[⟨p, i, rest, h⟩], rfl, tokenized_pair (hrest.imp id .inr) h hnext⟩
    | cons p' ps =>
      rw [renderElement_cons_cons, List.append_assoc, List.cons_append] at h
      rw [renderElement_cons_cons, List.length_append, List.length_cons] at hnext
      have hsemi := h.append
      obtain ⟨qs, hqs, htok⟩ := ih hsemi.cons (by
        convert hnext using 1
        push_cast
        omega)
      refine ⟨⟨p, i, _, h⟩ :: qs, by rw [List.map_cons, hqs], ?_⟩
      exact tokenized_pair (.inr (.inl rfl)) h (tokenized_semicolon hsemi htok)

theorem tokenized_forwarded {es : List (List ForwardedPair)} (h : RestAt s i (renderForwarded es)) :
    ∃ qss : List (List (SitedPair s)), qss.map (·.map (·.pair)) = es ∧
      Tokenized s i (sitedTokens qss) := by
  induction es generalizing i with
  | nil => exact ⟨[], rfl, tokenized_end h⟩
  | cons e es ih =>
    cases es with
    | nil =>
      have he : renderForwarded [e] = renderElement e := by simp [renderForwarded]
      rw [he, ← List.append_nil (renderElement e)] at h
      obtain ⟨qs, hqs, htok⟩ := tokenized_element h (.inl rfl) (tokenized_end h.append)
      refine ⟨[qs], by rw [List.map_singleton, hqs], ?_⟩
      simpa [sitedTokens] using htok
    | cons e' es =>
      rw [renderForwarded_cons_cons] at h
      have hcomma := h.append
      obtain ⟨qss, hqss, htoks⟩ := ih hcomma.cons
      obtain ⟨qs, hqs, htok⟩ := tokenized_element h (.inr rfl) (tokenized_comma hcomma htoks)
      refine ⟨qs :: qss, by rw [List.map_cons, hqs, hqss], ?_⟩
      obtain ⟨qs', qss, rfl⟩ := List.exists_cons_of_ne_nil (l := qss) (by
        rintro rfl
        simp at hqss)
      simpa [sitedTokens] using htok

theorem entries_elementParams (qs : List (SitedPair s)) :
    entries (elementParams qs) = 4 * qs.length := by
  induction qs with
  | nil => rfl
  | cons q qs ih =>
    change entries (elementParams qs) + 4 = _
    rw [ih]
    push_cast [List.length_cons]
    omega

theorem entries_sitedTokens (qss : List (List (SitedPair s))) :
    entries (sitedTokens qss) = elementEntries (qss.map (·.map (·.pair))) := by
  induction qss with
  | nil => rfl
  | cons qs qss ih =>
    cases qss with
    | nil => simp [sitedTokens, entries_elementParams, elementEntries]
    | cons qs' qss =>
      have hcons : sitedTokens (qs :: qs' :: qss) =
          elementParams qs ++ .sep :: sitedTokens (qs' :: qss) := by
        simp [sitedTokens]
      rw [hcons, entries_append, entries_elementParams, entries, ih]
      simp only [elementEntries, List.map_cons, List.length_cons, List.length_map, List.sum_cons]
      omega

end Tokens

/-! ## Addresses -/

section Addresses

variable {s t rest : Bytes} {i : ℤ}

theorem findPort_at {fuel : ℕ} (h : RestAt s i (t ++ rest)) (hfuel : t.length < fuel) :
    findPort s (i + t.length) fuel i = .ok (i + (t.takeWhile fun c => c ≠ 58).length) := by
  induction fuel generalizing t i with
  | zero => omega
  | succ fuel ih =>
    rw [findPort]
    cases t with
    | nil => simp [pure, Except.pure]
    | cons c t =>
      rw [List.cons_append] at h
      have hgo := ih h.cons (by simpa using hfuel)
      rw [if_pos (by push_cast [List.length_cons]; omega), h.readByte_eq, ok_bind, List.headD_cons]
      by_cases hc : c = 58
      · simp [hc, pure, Except.pure]
      · rw [if_pos hc, List.takeWhile_cons_of_pos (by simpa using hc), List.length_cons,
          show i + ((t.length + 1 : ℕ) : ℤ) = i + 1 + t.length by omega, hgo, List.length_cons]
        congr 1
        push_cast
        omega

/-- The loop back to the last `]` behind the first byte. -/
theorem findBracket_at {a : UInt8} {fuel : ℕ} (h : RestAt s i (a :: (t ++ rest)))
    (hfuel : t.length < fuel) :
    findBracket s i fuel (i + 1 + t.length) =
      .ok (if 93 ∈ t then i + (t.rdropWhile fun c => c ≠ 93).length else i) := by
  induction fuel generalizing t rest with
  | zero => omega
  | succ fuel ih =>
    rw [findBracket]
    rcases List.eq_nil_or_concat' t with rfl | ⟨t, c, rfl⟩
    · simp [pure, Except.pure]
    · rw [List.append_assoc, List.singleton_append] at h
      have hlast : RestAt s (i + 1 + t.length) (c :: rest) := h.cons.append
      have hgo := ih h (by simpa using hfuel)
      rw [show i + 1 + ((t ++ [c]).length : ℤ) - 1 = i + 1 + t.length by
        rw [List.length_append, List.length_singleton]
        omega]
      rw [if_pos (by omega), hlast.readByte_eq, ok_bind, List.headD_cons]
      by_cases hc : c = 93
      · rw [if_neg (not_not.mpr hc), if_pos (by simp [hc]),
          List.rdropWhile_concat_neg _ _ _ (by simp [hc]), List.length_append,
          List.length_singleton]
        simp only [pure, Except.pure]
        congr 1
        push_cast
        omega
      · rw [if_pos hc, hgo, List.rdropWhile_concat_pos _ _ _ (by simpa using hc)]
        simp [Ne.symm hc]

/-- The bytes from `v` to `e`. -/
def spanBytes (s : Bytes) (x : ℤ × ℤ) : Bytes := (s.drop x.1.toNat).take (x.2 - x.1).toNat

theorem spanBytes_at (h : RestAt s i (t ++ rest)) : spanBytes s (i, i + t.length) = t := by
  rw [spanBytes, add_sub_cancel_left, Int.toNat_natCast, h.take]

theorem rdropWhile_length_pos (h : 93 ∈ t) :
    0 < (t.rdropWhile fun c => decide (c ≠ 93)).length := by
  rw [List.length_pos_iff_ne_nil, ne_eq, List.rdropWhile_eq_nil_iff]
  exact fun hall => absurd (hall 93 h) (by decide)

theorem rdropWhile_cons_of_mem {α : Type*} {p : α → Bool} {l : List α} {x : α} (hx : x ∈ l)
    (hp : ¬ p x) (a : α) : (a :: l).rdropWhile p = a :: l.rdropWhile p := by
  induction l using List.reverseRecOn with
  | nil => simp at hx
  | append_singleton l c ih =>
    rw [← List.cons_append, List.rdropWhile_concat, List.rdropWhile_concat]
    split_ifs with hc
    · rcases List.mem_append.mp hx with hx | hx
      · exact ih hx
      · rw [List.mem_singleton.mp hx] at hp
        exact absurd hc hp
    · rfl

theorem bracketedAddr_cons (a : UInt8) (t : Bytes) : bracketedAddr (a :: t) =
    if 93 ∈ t then some ((a :: t).take (t.rdropWhile fun c => c ≠ 93).length) else none := by
  rw [bracketedAddr, List.tail_cons]
  split_ifs with hmem
  · have hcons := rdropWhile_cons_of_mem (p := fun c => decide (c ≠ 93)) hmem (by decide) a
    have hprefix := List.prefix_iff_eq_take.mp
      (List.rdropWhile_prefix (fun c => decide (c ≠ 93)) (a :: t))
    rw [hcons, List.length_cons] at hprefix
    rw [hcons, hprefix, List.dropLast_eq_take, List.length_take, List.take_take]
    have hle := (List.rdropWhile_prefix (fun c => decide (c ≠ 93)) t).length_le
    rw [List.length_cons, show min (min _ _ - 1) _ =
      (t.rdropWhile fun c => decide (c ≠ 93)).length by omega]
  · rfl

/-- The address between quotation marks, but for a bracket alone. -/
theorem quotedAddr_at (hne : t ≠ [91]) (h : RestAt s i (t ++ 34 :: rest)) :
    ∃ r, (do
      let c ← readByte s i
      if c = 91 then do
        let vlen ← findBracket s (i + 1) (s.length + 1) (i + t.length)
        if i + 1 = vlen then pure none else pure (some (i + 1, vlen))
      else if c ≠ 95 ∧ c ≠ 47 ∧ c ≠ 117 then do
        let vlen ← findPort s (i + t.length) (s.length + 1) i
        pure (some (i, vlen))
      else pure (some (i, i + t.length))) = (.ok r : ForwardedRun (Option (ℤ × ℤ))) ∧
      r.map (spanBytes s) = quotedAddr t := by
  have h0 := h.nonneg
  have hlen := h.length
  have hport := @findPort_at s t (34 :: rest) i (s.length + 1) h
    (by rw [List.length_append] at hlen; omega)
  cases t with
  | nil =>
    rw [List.nil_append] at h
    rw [h.readByte_eq, ok_bind, List.headD_cons, if_neg (by decide), if_pos (by decide), hport,
      ok_bind]
    refine ⟨_, rfl, ?_⟩
    simp [spanBytes, quotedAddr]
  | cons c t =>
    rw [List.cons_append] at h
    rw [h.readByte_eq, ok_bind, List.headD_cons, quotedAddr, List.head?_cons, List.tail_cons]
    simp only [Option.some.injEq]
    by_cases hc : c = 91
    · obtain ⟨a, t, rfl⟩ := List.exists_cons_of_ne_nil (l := t) (by rintro rfl; simp [hc] at hne)
      rw [List.cons_append] at h
      have hbracket := @findBracket_at s t (34 :: rest) (i + 1) a (s.length + 1) h.cons
        (by simp only [List.length_append, List.length_cons] at hlen; omega)
      rw [show i + ((c :: a :: t).length : ℤ) = i + 1 + 1 + t.length by
        simp only [List.length_cons]
        omega, if_pos hc, if_pos hc, hbracket, ok_bind, bracketedAddr_cons]
      by_cases hmem : 93 ∈ t
      · have hpos := rdropWhile_length_pos hmem
        have hle := (List.rdropWhile_prefix (fun c => decide (c ≠ 93)) t).length_le
        rw [if_pos hmem, if_pos hmem, if_neg (by omega)]
        refine ⟨_, rfl, ?_⟩
        have hsplit := h.cons
        rw [← List.cons_append, ← List.take_append_drop
          (t.rdropWhile fun c => decide (c ≠ 93)).length (a :: t), List.append_assoc] at hsplit
        have := spanBytes_at hsplit
        rw [List.length_take, List.length_cons, Nat.min_eq_left (by omega)] at this
        rw [Option.map_some, this]
      · rw [if_neg hmem, if_neg hmem, if_pos rfl]
        exact ⟨_, rfl, rfl⟩
    · rw [if_neg hc, if_neg hc]
      by_cases hkeep : c = 95 ∨ c = 47 ∨ c = 117
      · rw [if_neg (by grind), if_pos hkeep]
        refine ⟨_, rfl, ?_⟩
        rw [Option.map_some, @spanBytes_at s (c :: t) (34 :: rest) i h]
      · rw [if_pos (by grind), if_neg hkeep, hport, ok_bind]
        refine ⟨_, rfl, ?_⟩
        rw [← List.cons_append, ← List.takeWhile_append_dropWhile (l := c :: t)
          (p := fun c => decide (c ≠ 58)), List.append_assoc] at h
        rw [Option.map_some, spanBytes_at h]

namespace SitedPair

variable (q : SitedPair s)

theorem name_at : RestAt s q.param.k
    (q.pair.name ++ 61 :: (q.pair.value.text ++ (q.pair.after ++ q.rest))) := by
  have h := q.at_place
  simp only [ForwardedPair.render, List.append_assoc, List.cons_append] at h
  exact h.append

theorem value_at :
    RestAt s q.param.v (q.pair.value.text ++ (q.pair.after ++ q.rest)) :=
  q.name_at.append.cons

theorem vlen_eq : q.param.vlen = q.pair.value.text.length + q.pair.after.length := by
  change (((q.pair.value.text ++ q.pair.after).length : ℕ) : ℤ) = _
  rw [List.length_append]
  push_cast
  rfl

theorem valid : q.param.Valid s := by
  have hname := q.name_at.length
  have hvalue := q.value_at.length
  have hvlen := q.vlen_eq
  have hklen : q.param.klen = q.pair.name.length := rfl
  have hpos := List.length_pos_of_ne_nil q.pair.name_nonempty
  simp only [List.length_append, List.length_cons] at hname hvalue
  exact ⟨q.name_at.nonneg, by omega, by omega, q.value_at.nonneg, by omega, by omega⟩

theorem text_eq : q.param.text s = q.pair.value.text ++ q.pair.after := by
  have h := q.value_at
  rw [← List.append_assoc] at h
  exact h.take

theorem named_iff (name : Bytes) : q.param.Named s name ↔
    q.pair.name.length = name.length ∧ bufferCaselessCompare q.pair.name name = 0 := by
  have hklen : q.param.klen = q.pair.name.length := rfl
  rw [ForwardedParam.Named, hklen, Nat.cast_inj]
  refine and_congr_right fun h => ?_
  rw [← h, q.name_at.take]

theorem trimBlanks_eq : trimBlanks s q.param.v (s.length + 1) (q.param.v + q.param.vlen) =
    .ok (q.param.v + q.pair.value.text.length) := by
  have hv := q.valid
  obtain ⟨e, he, htrim⟩ := gives_iff.mp (gives_trimBlanks (s.length + 1) (q.param.v + q.param.vlen)
    hv.value (by have := hv.len; omega) hv.value_end (by have := hv.value; have := hv.value_end; omega))
  have htext := rdropWhile_text hv htrim
  rw [q.text_eq, rdropWhile_append_of_pos (fun c hc => by simpa using q.pair.after_blank c hc)
    q.pair.value.last_not_blank] at htext
  have hlen := congrArg List.length htext
  have hstart := htrim.start_le
  have hend := htrim.le_end
  have hvend := hv.value_end
  have hv0 := hv.value
  rw [List.length_take, List.length_drop] at hlen
  rw [he]
  congr 1
  omega

theorem isQuoted_eq : isQuoted s q.param.v (q.param.v + q.pair.value.text.length) =
    .ok (q.pair.value.isQuoted) := by
  have hvalue := q.value_at
  obtain ⟨b, hb, hiff⟩ := gives_iff.mp (gives_isQuoted hvalue.nonneg
    (show q.param.v + q.pair.value.text.length ≤ s.length by
      have := hvalue.append.le
      omega))
  rw [hb]
  congr 1
  rw [Bool.eq_iff_iff, hiff, hvalue.byteAt_eq]
  cases hq : q.pair.value with
  | token t hne ht =>
    obtain ⟨c, t, rfl⟩ := List.exists_cons_of_ne_nil hne
    have hc := (ht c List.mem_cons_self).2.2.2.1
    simp [ForwardedValue.text, ForwardedValue.isQuoted, hc]
  | quoted t ht =>
    rw [hq, ForwardedValue.text, List.cons_append, List.cons_append, List.append_assoc,
      List.singleton_append] at hvalue
    have hclose := hvalue.cons.append.byteAt_eq
    rw [List.headD_cons] at hclose
    refine iff_of_true ⟨?_, rfl, ?_⟩ rfl
    · simp only [ForwardedValue.text, List.length_append, List.length_cons, List.length_nil]
      omega
    · rw [← hclose]
      congr 1
      simp only [ForwardedValue.text, List.length_append, List.length_cons, List.length_nil]
      omega

theorem addr_eq (hno : q.pair.value.text ≠ str "\"[\"") :
    q.param.addr s = q.pair.value.addr := by
  have hvalue := q.value_at
  have hrun {r : Option (ℤ × ℤ)} (h : forwardedForAddr s q.param.v (q.param.v + q.param.vlen) =
      .ok r) : q.param.addr s = r.map (spanBytes s) := by
    rw [ForwardedParam.addr, h]
    cases r <;> rfl
  unfold forwardedForAddr at hrun
  rw [q.trimBlanks_eq, ok_bind, q.isQuoted_eq, ok_bind] at hrun
  cases hq : q.pair.value with
  | token t hne ht =>
    rw [hq] at hrun hvalue
    have htake := hvalue.take
    rw [hrun rfl, Option.map_some, spanBytes, add_sub_cancel_left, Int.toNat_natCast, htake]
    rfl
  | quoted t ht =>
    rw [hq] at hrun hvalue hno
    rw [ForwardedValue.text, List.cons_append, List.cons_append, List.append_assoc,
      List.singleton_append] at hvalue
    obtain ⟨r, hr, haddr⟩ := quotedAddr_at (show t ≠ [91] by rintro rfl; exact hno rfl) hvalue.cons
    rw [show q.param.v + ((ForwardedValue.quoted t ht).text.length : ℤ) - 1 =
        q.param.v + 1 + t.length by
      simp only [ForwardedValue.text, List.length_append, List.length_cons, List.length_nil]
      omega] at hrun
    rw [hrun hr, haddr]
    rfl

theorem isFor_iff : q.param.IsFor s ↔ q.pair.IsFor := q.named_iff (str "for")

end SitedPair

end Addresses

/-! ## The walk -/

section Walk

variable {conf : ExtforwardConf} {s : Bytes}

theorem elementParams_params (qs : List (SitedPair s)) :
    ∀ t ∈ elementParams qs, ∃ p, t = .param p := by
  intro t ht
  obtain ⟨q, -, rfl⟩ := List.mem_map.mp ht
  exact ⟨_, rfl⟩

/-- An element has no `for`, or there is none behind the one that counts. -/
theorem forValue_cases (qs : List (SitedPair s)) :
    forValue (qs.map (·.pair)) = none ∧ NoFor s (elementParams qs) ∨
      ∃ a q b, qs = a ++ q :: b ∧ q.param.IsFor s ∧ NoFor s (elementParams b) ∧
        forValue (qs.map (·.pair)) = some q.pair.value := by
  induction qs using List.reverseRecOn with
  | nil => exact .inl ⟨rfl, by simp [NoFor, elementParams]⟩
  | append_singleton qs q ih =>
    by_cases hfor : q.pair.IsFor
    · refine .inr ⟨qs, q, [], rfl, q.isFor_iff.mpr hfor, by simp [NoFor, elementParams], ?_⟩
      simp [forValue, hfor]
    · have hvalue : forValue ((qs ++ [q]).map (·.pair)) = forValue (qs.map (·.pair)) := by
        simp [forValue, hfor]
      have hnot : ¬ q.param.IsFor s := fun h => hfor (q.isFor_iff.mp h)
      have hconcat {b : List (SitedPair s)} (hb : NoFor s (elementParams b)) :
          NoFor s (elementParams (b ++ [q])) := by
        rw [elementParams, List.map_append]
        exact hb.concat hnot
      rw [hvalue]
      rcases ih with ⟨hnone, hno⟩ | ⟨a, q', b, rfl, hq', hno, hsome⟩
      · exact .inl ⟨hnone, hconcat hno⟩
      · exact .inr ⟨a, q', b ++ [q], by simp, hq', hconcat hno, hsome⟩

/-- The tokens in front of the last element, with the last one first. -/
def frontTokens (qss : List (List (SitedPair s))) : List ForwardedToken :=
  if qss = [] then [] else .sep :: (sitedTokens qss).reverse

theorem sitedTokens_concat (qss : List (List (SitedPair s))) (qs : List (SitedPair s)) :
    (sitedTokens (qss ++ [qs])).reverse = (elementParams qs).reverse ++ frontTokens qss := by
  induction qss with
  | nil => simp [sitedTokens, frontTokens]
  | cons e qss ih =>
    cases qss with
    | nil => simp [sitedTokens, frontTokens]
    | cons e' qss =>
      have hcons (l : List (List (SitedPair s))) : sitedTokens (e :: e' :: l) =
          elementParams e ++ .sep :: sitedTokens (e' :: l) := by simp [sitedTokens]
      rw [List.cons_append] at ih
      rw [List.cons_append, List.cons_append, hcons, List.reverse_append, List.reverse_cons, ih]
      simp [frontTokens, hcons]

theorem forwardedTaken_front (qss : List (List (SitedPair s))) (o : Option ForwardedTaken) :
    forwardedTaken conf s false (frontTokens qss) o =
      forwardedTaken conf s false (sitedTokens qss).reverse o := by
  rw [frontTokens]
  split_ifs with h
  · rw [h]
    rfl
  · rfl

theorem dropElement_front (qss : List (List (SitedPair s))) :
    dropElement (frontTokens qss) = (sitedTokens qss).reverse := by
  rw [frontTokens]
  split_ifs with h
  · rw [h]
    rfl
  · rfl

theorem bracketReached_front (qss : List (List (SitedPair s))) :
    BracketReached conf s (frontTokens qss) ↔ BracketReached conf s (sitedTokens qss).reverse := by
  rw [frontTokens]
  split_ifs with h
  · rw [h]
    rfl
  · exact bracketReached_sep

variable {qs a b : List (SitedPair s)} {q : SitedPair s} {qss : List (List (SitedPair s))}
  {es : List (List ForwardedPair)} {e : List ForwardedPair} {v : ForwardedValue}

/-- The last element, from its end to the `for` that counts and on to what is in front. -/
theorem sitedTokens_concat_for (hqs : qs = a ++ q :: b) :
    (sitedTokens (qss ++ [qs])).reverse = (elementParams b).reverse ++
      .param q.param :: ((elementParams a).reverse ++ frontTokens qss) := by
  rw [sitedTokens_concat, hqs]
  simp [elementParams]

theorem dropElement_params : dropElement ((elementParams a).reverse ++ frontTokens qss) =
    (sitedTokens qss).reverse := by
  rw [dropElement_reverse (elementParams_params a), dropElement_front]

theorem visitedValues_concat_none (h : forValue e = none) :
    visitedValues conf (es ++ [e]) = visitedValues conf es := by
  simp [visitedValues, forValues, h]

theorem visitedValues_concat_some (h : forValue e = some v) :
    visitedValues conf (es ++ [e]) =
      if stopsWalk conf v then [v] else v :: visitedValues conf es := by
  simp [visitedValues, forValues, h, visited]

theorem mem_visitedValues_concat (h : forValue e = some v) : v ∈ visitedValues conf (es ++ [e]) := by
  rw [visitedValues_concat_some h]
  split_ifs <;> exact List.mem_cons_self

/-- A parameter with the value `"["`. -/
theorem text_of_bracket (h : q.param.Bracket s) : q.pair.value.text = str "\"[\"" := by
  have hvalue := q.value_at
  have hopen := h.opening
  have hbracket := h.bracket
  have hclose := h.closing
  rw [hvalue.byteAt_eq] at hopen
  cases hv : q.pair.value with
  | token t hne ht =>
    rw [hv] at hopen
    obtain ⟨c, t, rfl⟩ := List.exists_cons_of_ne_nil hne
    exact absurd hopen (ht c List.mem_cons_self).2.2.2.1
  | quoted t ht =>
    rw [hv, ForwardedValue.text, List.cons_append, List.cons_append, List.append_assoc,
      List.singleton_append] at hvalue
    have hbody := hvalue.cons
    rw [hbody.byteAt_eq] at hbracket
    cases ht with
    | nil => exact absurd (show (34 : UInt8) = 91 from hbracket) (by decide)
    | @plain c t h0 hquote hback ht =>
      obtain rfl : c = 91 := hbracket
      have hbehind := hbody.cons
      rw [show q.param.v + 1 + 1 = q.param.v + 2 by omega] at hbehind
      rw [hbehind.byteAt_eq] at hclose
      cases ht with
      | nil => rfl
      | plain _ hquote => exact absurd hclose hquote
      | escaped => exact absurd (show (92 : UInt8) = 34 from hclose) (by decide)
    | escaped => exact absurd (show (92 : UInt8) = 91 from hbracket) (by decide)

theorem not_stopsWalk_of_passedOver (hno : q.pair.value.text ≠ str "\"[\"")
    (h : PassedOver conf s q.param) : stopsWalk conf q.pair.value = false := by
  obtain ⟨v, e, addr, hrun, haddr, hpass⟩ := h
  have hspan : q.pair.value.addr = some ((s.drop v.toNat).take (e - v).toNat) := by
    rw [← q.addr_eq hno, ForwardedParam.addr, hrun]
  rw [stopsWalk, hspan]
  rcases hpass with rfl | htrust
  · simp
  · rw [forwardedAddr] at haddr
    split_ifs at haddr with hne
    · rw [derived] at haddr
      split_ifs at haddr
      cases haddr
      simp [htrust]
    · obtain rfl := not_not.mp hne
      simp

theorem bracket_visited (h : BracketReached conf s (sitedTokens qss).reverse) :
    ∃ v ∈ visitedValues conf (qss.map (·.map (·.pair))), v.text = str "\"[\"" := by
  induction qss using List.reverseRecOn with
  | nil => exact absurd h not_bracketReached_nil
  | append_singleton qss qs ih =>
    rw [List.map_append, List.map_singleton]
    rcases forValue_cases qs with ⟨hnone, hno⟩ | ⟨a, q, b, hqs, hfor, hno, hsome⟩
    · rw [visitedValues_concat_none hnone]
      rw [sitedTokens_concat, bracketReached_noFor hno, bracketReached_front] at h
      exact ih h
    · by_cases htext : q.pair.value.text = str "\"[\""
      · exact ⟨_, mem_visitedValues_concat hsome, htext⟩
      · rw [sitedTokens_concat_for hqs, bracketReached_noFor hno,
          bracketReached_for hfor fun hb => htext (text_of_bracket hb), dropElement_params] at h
        obtain ⟨v, hv, hvtext⟩ := ih h.2
        rw [visitedValues_concat_some hsome, not_stopsWalk_of_passedOver htext h.1]
        exact ⟨v, List.mem_cons_of_mem _ hv, hvtext⟩

/-- The address of a `for` that has been found. -/
def foundAddr (s : Bytes) (o : Option ForwardedTaken) : Option Bytes := o.bind (·.param.addr s)

theorem getLast?_filterMap_cons {α β : Type*} (f : α → Option β) (v : α) (vs : List α) :
    ((v :: vs).filterMap f).getLast? = (vs.filterMap f).getLast?.or (f v) := by
  cases hv : f v with
  | none => rw [List.filterMap_cons_none hv, Option.or_none]
  | some b =>
    rw [List.filterMap_cons_some hv, List.getLast?_cons]
    cases (vs.filterMap f).getLast? <;> rfl

/-- The walk rejects the header with a visited value, or it finds the leftmost address. -/
theorem forwardedTaken_sited (o : Option ForwardedTaken)
    (hno : ∀ v ∈ visitedValues conf (qss.map (·.map (·.pair))), v.text ≠ str "\"[\"") :
    (forwardedTaken conf s false (sitedTokens qss).reverse o).map (foundAddr s) =
      (forwardedAddress conf (qss.map (·.map (·.pair)))).map (·.or (foundAddr s o)) := by
  induction qss using List.reverseRecOn generalizing o with
  | nil => rfl
  | append_singleton qss qs ih =>
    rw [List.map_append, List.map_singleton] at hno ⊢
    rw [forwardedAddress]
    rcases forValue_cases qs with ⟨hnone, hnoFor⟩ | ⟨a, q, b, hqs, hfor, hnoFor, hsome⟩
    · rw [visitedValues_concat_none hnone] at hno ⊢
      rw [sitedTokens_concat, forwardedTaken_noFor hnoFor, forwardedTaken_front]
      exact ih o hno
    · have haddr := q.addr_eq (hno _ (mem_visitedValues_concat hsome))
      rw [visitedValues_concat_some hsome] at hno ⊢
      rw [sitedTokens_concat_for hqs, forwardedTaken_noFor hnoFor, forwardedTaken, if_pos hfor,
        haddr]
      cases hv : q.pair.value.addr with
      | none =>
        have hstops : stopsWalk conf q.pair.value = true := by rw [stopsWalk, hv]
        simp [hstops, hv]
      | some addr =>
        have hfound : foundAddr s (if addr ≠ [] ∧ ¬ isObfuscated addr then
            some ⟨q.param, (elementParams a).reverse ++ frontTokens qss⟩ else o) =
              q.pair.value.clearAddr.or (foundAddr s o) := by
          rw [ForwardedValue.clearAddr, hv, Option.filter_some]
          by_cases h : addr ≠ [] ∧ ¬ isObfuscated addr
          · rw [if_pos h, if_pos (decide_eq_true h)]
            simp [foundAddr, haddr, hv]
          · rw [if_neg h, if_neg (by simpa using h)]
            rfl
        dsimp only
        by_cases huntrusted : addr ≠ [] ∧ ¬ conf.isProxyTrusted addr
        · have hstops : stopsWalk conf q.pair.value = true := by
            rw [stopsWalk, hv]
            simpa using huntrusted
          rw [if_pos huntrusted, if_pos hstops, Option.map_some, hfound]
          cases hclear : q.pair.value.clearAddr <;> simp [hv, hclear]
        · have hstops : stopsWalk conf q.pair.value = false := by
            rw [stopsWalk, hv]
            simpa using huntrusted
          rw [hstops, if_neg Bool.false_ne_true] at hno ⊢
          rw [if_neg huntrusted, forwardedTaken_over, dropElement_params,
            ih _ fun v hv => hno v (List.mem_cons_of_mem _ hv), hfound, List.any_cons, hv,
            Option.isNone_some, Bool.false_or, forwardedAddress]
          split_ifs
          · rfl
          · rw [Option.map_some, Option.map_some, getLast?_filterMap_cons, Option.or_assoc]

end Walk

/-! ## The header -/

/-- The connection behind the parser. -/
def ForwardedHandled.con : ForwardedHandled → ForwardedCon
  | .goOn con => con
  | .finished con => con

/-- What the header sets, given the address that is taken and what the parameters around it set. -/
def addressHandled (conf : ExtforwardConf) (con : ForwardedCon)
    (around : ForwardedCon → ForwardedHandled) : Option (Option Bytes) → ForwardedHandled
  | none => con.reject
  | some none => .goOn con
  | some (some addr) =>
    match modExtforwardSetAddr conf con addr with
    | none => .goOn con
    | some con => around con

section Header

variable {conf : ExtforwardConf}

theorem not_commaOverflows {n : ℤ} {ts : List ForwardedToken} (h : n + entries ts ≤ 256) :
    ¬ CommaOverflows n ts := by
  induction ts generalizing n with
  | nil => exact id
  | cons t ts ih =>
    have hts := entries_nonneg ts
    cases t with
    | sep =>
      simp only [entries] at h
      rintro (hn | hover)
      · omega
      · exact ih (by omega) hover
    | param p =>
      simp only [entries] at h
      exact fun hover => ih (by omega) hover.2

/-- The connection has the same addresses. -/
def SameAddr (con con' : ForwardedCon) : Prop :=
  con'.dstAddrBuf = con.dstAddrBuf ∧ con'.savedRemoteAddrBuf = con.savedRemoteAddrBuf

theorem sameAddr_takeProto (s : Bytes) (con : ForwardedCon) (p : Option ForwardedParam) :
    SameAddr con (takeProto conf s con p) := by
  cases p with
  | none => exact ⟨rfl, rfl⟩
  | some p =>
    rw [takeProto, modExtforwardSetProto]
    dsimp only
    split_ifs <;> exact ⟨rfl, rfl⟩

theorem sameAddr_takeHost (s : Bytes) (con : ForwardedCon) (p : Option ForwardedParam) :
    SameAddr con (takeHost conf s con p).con := by
  cases p with
  | none => exact ⟨rfl, rfl⟩
  | some p =>
    rw [takeHost, forwardedTakeHost]
    dsimp only
    repeat' split
    all_goals exact ⟨rfl, rfl⟩

theorem sameAddr_takeRemoteUser (s : Bytes) (con : ForwardedCon) (p : Option ForwardedParam) :
    SameAddr con (takeRemoteUser s con p).con := by
  cases p with
  | none => exact ⟨rfl, rfl⟩
  | some p =>
    rw [takeRemoteUser]
    split_ifs <;> exact ⟨rfl, rfl⟩

theorem SameAddr.trans {con con' con'' : ForwardedCon} (h : SameAddr con con')
    (h' : SameAddr con' con'') : SameAddr con con'' := ⟨h'.1.trans h.1, h'.2.trans h.2⟩

/-- The parameters around a `for` leave the address as it is. -/
theorem sameAddr_aroundMeaning (s : Bytes) (con : ForwardedCon)
    (front behind : List ForwardedToken) :
    SameAddr con (aroundMeaning conf s con front behind).con := by
  rw [aroundMeaning]
  have hhost := (@sameAddr_takeProto conf s con (protoParam s front behind)).trans
    (@sameAddr_takeHost conf s _ (optionParam conf.forwardedHost (hostParam s front behind)))
  split
  · rename_i hfinished
    rwa [hfinished] at hhost
  · rename_i hgoOn
    rw [hgoOn] at hhost
    exact hhost.trans (sameAddr_takeRemoteUser s _ _)

theorem modExtforwardForwarded_sited {s : Bytes} {qss : List (List (SitedPair s))}
    (htok : Tokenized s 0 (sitedTokens qss)) (offsets : Offsets) (con : ForwardedCon)
    (hfits : entries (sitedTokens qss) ≤ 252)
    (hno : ∀ v ∈ visitedValues conf (qss.map (·.map (·.pair))), v.text ≠ str "\"[\"") :
    ∃ around, (∀ con, SameAddr con (around con).con) ∧
      modExtforwardForwarded conf s offsets con = .ok (addressHandled conf con around
        (forwardedAddress conf (qss.map (·.map (·.pair))))) := by
  have htokens := htok (s.length + 1) (by push_cast; omega)
  have hfit : ¬ ForwardedMisfit conf s := by
    rintro ⟨ts, atEnd, hts, h⟩
    obtain ⟨rfl, rfl⟩ := Prod.mk.inj (Except.ok.inj (htokens.symm.trans hts))
    rcases h with h | ⟨-, -, h⟩
    · exact not_commaOverflows (by omega) h
    · obtain ⟨v, hv, htext⟩ := bracket_visited h
      exact hno v hv htext
  have hmeaning : forwardedMeaning conf s con = tokensMeaning conf s con (sitedTokens qss) := by
    rw [forwardedMeaning, htokens]
    exact if_pos hfits
  have htaken := forwardedTaken_sited none hno
  simp only [modExtforwardForwarded_eq_ok_iff, hmeaning]
  rw [tokensMeaning]
  cases ho : forwardedTaken conf s false (sitedTokens qss).reverse none with
  | none =>
    rw [ho, Option.map_none, eq_comm, Option.map_eq_none_iff] at htaken
    exact ⟨.goOn, fun con => ⟨rfl, rfl⟩, hfit, by rw [htaken]; rfl⟩
  | some o =>
    rw [ho, Option.map_some, eq_comm, Option.map_eq_some_iff] at htaken
    obtain ⟨addr, haddr, hor⟩ := htaken
    rw [haddr]
    rw [show addr.or (foundAddr s none) = addr from Option.or_none] at hor
    subst hor
    cases o with
    | none => exact ⟨.goOn, fun con => ⟨rfl, rfl⟩, hfit, rfl⟩
    | some t =>
      refine ⟨fun con => aroundMeaning conf s con t.front (t.behind (sitedTokens qss)),
        fun con => sameAddr_aroundMeaning s con _ _, hfit, ?_⟩
      change _ = takenMeaning conf s con (sitedTokens qss) (some t)
      rw [takenMeaning, foundAddr, Option.bind_some]
      cases t.param.addr s with
      | none => rfl
      | some addr => rfl

/-- A header of elements sets the address that the walk over its values finds. -/
theorem modExtforwardForwarded_render {es : List (List ForwardedPair)} (offsets : Offsets)
    (con : ForwardedCon) (hfits : elementEntries es ≤ 252)
    (hno : ∀ v ∈ visitedValues conf es, v.text ≠ str "\"[\"") :
    ∃ around, (∀ con, SameAddr con (around con).con) ∧
      modExtforwardForwarded conf (renderForwarded es) offsets con =
        .ok (addressHandled conf con around (forwardedAddress conf es)) := by
  obtain ⟨qss, hqss, htok⟩ := tokenized_forwarded (.zero (renderForwarded es))
  have hentries := entries_sitedTokens qss
  rw [hqss] at hentries
  have hrun := modExtforwardForwarded_sited htok offsets con (by omega) (by rwa [hqss])
  rwa [hqss] at hrun

theorem visited_append {stops : ForwardedValue → Bool} {vs : List ForwardedValue}
    (hstop : ∃ v ∈ visited stops vs, stops v = true) (front : List ForwardedValue) :
    visited stops (vs ++ front) = visited stops vs := by
  induction vs with
  | nil => simp [visited] at hstop
  | cons v vs ih =>
    rw [List.cons_append, visited, visited]
    by_cases hv : stops v = true
    · rw [if_pos hv, if_pos hv]
    · rw [visited, if_neg hv] at hstop
      obtain ⟨w, hw, hstops⟩ := hstop
      rcases List.mem_cons.mp hw with rfl | hw
      · exact absurd hstops hv
      · rw [if_neg hv, if_neg hv, ih ⟨w, hw, hstops⟩]

/-- If the walk over `es` stops, then it visits no element in front. -/
theorem visitedValues_append (front : List (List ForwardedPair)) {es : List (List ForwardedPair)}
    (hstop : ∃ v ∈ visitedValues conf es, stopsWalk conf v = true) :
    visitedValues conf (front ++ es) = visitedValues conf es := by
  rw [visitedValues, forValues, List.filterMap_append, List.reverse_append]
  exact visited_append hstop _

end Header

theorem tokenBytes_of_all {t : Bytes} (h : t.all (fun c => IsForwardedTokenByte c) = true) :
    ∀ c ∈ t, IsForwardedTokenByte c :=
  fun c hc => of_decide_eq_true (List.all_eq_true.mp h c hc)

theorem quotedText_of_all {t : Bytes} (h : t.all (fun c => c ≠ 0 ∧ c ≠ 34 ∧ c ≠ 92) = true) :
    QuotedText t := by
  induction t with
  | nil => exact .nil
  | cons c t ih =>
    rw [List.all_cons, Bool.and_eq_true] at h
    obtain ⟨h0, hquote, hback⟩ := of_decide_eq_true h.1
    exact .plain h0 hquote hback (ih h.2)

theorem forName_bytes : ∀ c ∈ str "for", IsForwardedTokenByte c := tokenBytes_of_all (by decide)

/-- `for=value`. -/
def forPair (value : ForwardedValue) : ForwardedPair where
  before := []
  name := str "for"
  value := value
  after := []
  before_blank := nofun
  name_nonempty := nofun
  name_bytes := forName_bytes
  after_blank := nofun

theorem frontAddr_bytes : ∀ c ∈ str "6.6.6.6", IsForwardedTokenByte c :=
  tokenBytes_of_all (by decide)

theorem proxyName_bytes : ∀ c ∈ str "_proxy", IsForwardedTokenByte c :=
  tokenBytes_of_all (by decide)

theorem clientAddr_text : QuotedText (str "1.2.3.4:80") := quotedText_of_all (by decide)

/-- `for=6.6.6.6,for="1.2.3.4:80",for=_proxy`. -/
def proxyElements : List (List ForwardedPair) :=
  [[forPair (.token (str "6.6.6.6") nofun frontAddr_bytes)],
    [forPair (.quoted (str "1.2.3.4:80") clientAddr_text)],
    [forPair (.token (str "_proxy") nofun proxyName_bytes)]]

/-- The proxy `_proxy` is trusted. -/
def proxyExtforward : ExtforwardConf where
  isProxyTrusted addr := addr = str "_proxy"
  isNumericAddr addr := addr = str "6.6.6.6" || addr = str "1.2.3.4"
  hostPolicy host _ := some host
  forwardedHost := false
  forwardedRemoteUser := false
  checkProxy := false

/-- A connection from the proxy. -/
def proxyCon : ForwardedCon where
  dstAddrBuf := str "10.0.0.1"
  savedRemoteAddrBuf := none
  uriScheme := str "http"
  httpHost := str "www.example.org"
  environment _ := none
  httpStatus := 0
  direct := false

/-- The address of the claim that an empty value is one that is not trusted. -/
def strictAddress (conf : ExtforwardConf) (es : List (List ForwardedPair)) : Option Bytes :=
  ((visited (fun v => ! v.addr.any conf.isProxyTrusted) (forValues es).reverse).filterMap
    fun v => v.addr.filter fun addr => ! isObfuscated addr).getLast?

/-- `for=6.6.6.6,for=""`. -/
def emptyLast : List (List ForwardedPair) :=
  [[forPair (.token (str "6.6.6.6") nofun frontAddr_bytes)], [forPair (.quoted [] .nil)]]

end Lighttpd
