import Mathlib.Data.List.DropRight
import Lighttpd.AccesslogEscape
import Lighttpd.AccesslogFraction

/-!
# Cookies in the access log

A `Cookie` value is a list of elements `name=value` with a `;` between two of them, and
`cookieValue` is the value of the first element with a name. The scan of the `%C` field does
not go from one element to the next: behind an element with another name it skips a word up
to a blank, a `;` or not, and it goes on only if a `;` comes right behind the blanks there.
`lookedAt` are the elements it comes to, `cookieScan_eq` says what it makes of them, and
`logField_cookie_iff` when that is what the header says.
-/

namespace Lighttpd

open CString

/-- What is behind each `;`. -/
def laterElements : Bytes → List Bytes
  | [] => []
  | c :: s => if c = 59 then s :: laterElements s else laterElements s

/-- The header value from each of its elements on. -/
def elementStarts (s : Bytes) : List Bytes := s :: laterElements s

/-- The element that starts here has a name. -/
def hasCookie (name s : Bytes) : Bool := (name ++ [61]).isPrefixOf (s.dropWhile isCookieBlank)

/-- What is behind the `=` of the element that starts here. -/
def cookieRaw (name s : Bytes) : Bytes :=
  ((s.dropWhile isCookieBlank).drop (name.length + 1)).takeWhile (· ≠ 59)

/-- A text without the blanks around it. -/
def trimCookie (s : Bytes) : Bytes :=
  ((s.dropWhile isCookieBlank).reverse.dropWhile isCookieBlank).reverse

/-- The value of the first element with a name, empty if there is none. -/
def cookieValue (name value : Bytes) : Bytes :=
  match (elementStarts value).find? (hasCookie name) with
  | some s => trimCookie (cookieRaw name s)
  | none => []

/-- A name without NUL, `=`, `;` and blanks. -/
structure IsCookieName (name : Bytes) : Prop where
  ne_nil : name ≠ []
  notNul : (0 : UInt8) ∉ name
  notSpecial : ∀ c ∈ name, c ≠ 61 ∧ c ≠ 59 ∧ ¬ isCookieBlank c

/-- The element that the scan comes to from the element that starts here: behind the blanks
behind its first word there is a `;`. -/
def nextElement (s : Bytes) : Option Bytes :=
  let word := ((s.dropWhile isCookieBlank).drop 1).dropWhile fun c => ! isCookieBlank c
  let t := word.dropWhile isCookieBlank
  if t.head? = some 59 then some (t.drop 1) else none

/-- The elements that the scan comes to in so many steps. -/
def lookedAtFrom : ℕ → Bytes → List Bytes
  | 0, s => [s]
  | n + 1, s =>
    s :: match nextElement s with
      | some t => lookedAtFrom n t
      | none => []

/-- The elements that the scan comes to, up to the one it is looking for. -/
def lookedAt (value : Bytes) : List Bytes := lookedAtFrom value.length value

variable {s t name : Bytes} {c : UInt8}

theorem length_nextElement (h : nextElement s = some t) : t.length < s.length := by
  unfold nextElement at h
  have h₁ : (s.dropWhile isCookieBlank).length ≤ s.length := (List.dropWhile_sublist _).length_le
  have h₂ := (List.dropWhile_sublist (l := (s.dropWhile isCookieBlank).drop 1)
    fun c => ! isCookieBlank c).length_le
  have h₃ := (List.dropWhile_sublist
    (l := ((s.dropWhile isCookieBlank).drop 1).dropWhile fun c => ! isCookieBlank c)
    isCookieBlank).length_le
  simp only at h
  split_ifs at h with hhead
  obtain rfl := Option.some.inj h
  rcases hw : (((s.dropWhile isCookieBlank).drop 1).dropWhile fun c =>
    ! isCookieBlank c).dropWhile isCookieBlank with _ | ⟨c, w⟩
  · rw [hw] at hhead
    cases hhead
  · rw [hw] at h₃
    simp only [List.length_drop, List.length_cons, Nat.add_one_sub_one] at h₂ h₃ ⊢
    omega

theorem notMem_dropWhile {p : UInt8 → Bool} (h : c ∉ s) :
    c ∉ s.dropWhile p := fun hc => h ((List.dropWhile_sublist p).subset hc)

theorem notMem_drop {n : ℕ} (h : c ∉ s) : c ∉ s.drop n :=
  fun hc => h (List.mem_of_mem_drop hc)

theorem notMem_nextElement (h : c ∉ s) (ht : nextElement s = some t) : c ∉ t := by
  simp only [nextElement] at ht
  split_ifs at ht
  rw [← Option.some.inj ht]
  exact notMem_drop (notMem_dropWhile (notMem_dropWhile (notMem_drop (notMem_dropWhile h))))

/-! ## The scan -/

theorem skipCookieBlanks_append : ∀ s : Bytes,
    skipCookieBlanks (s ++ [0]) = some (s.dropWhile isCookieBlank ++ [0])
  | [] => rfl
  | c :: s => by
    rw [List.cons_append, skipCookieBlanks, List.dropWhile_cons]
    split_ifs with hc
    · exact skipCookieBlanks_append s
    · rfl

theorem skipCookieWord_append : ∀ {s : Bytes}, (0 : UInt8) ∉ s →
    skipCookieWord (s ++ [0]) = some ((s.dropWhile fun c => ! isCookieBlank c) ++ [0])
  | [], _ => rfl
  | c :: s, h => by
    have hc : c ≠ 0 := fun hc => h (hc ▸ List.mem_cons_self)
    rw [List.cons_append, skipCookieWord, List.dropWhile_cons]
    by_cases hb : isCookieBlank c
    · simp [hb]
    · simp only [hb, hc, Bool.false_eq_true, or_self, if_false, Bool.not_false, if_true]
      exact skipCookieWord_append fun hs => h (List.mem_cons_of_mem _ hs)

theorem head?_append_nul (hc : c ≠ 0) : (s ++ [0]).head? = some c ↔ s.head? = some c := by
  rcases s with _ | ⟨d, s⟩
  · simp [Ne.symm hc]
  · simp

theorem matches_iff_hasCookie (hname : IsCookieName name) :
    (name.isPrefixOf (s.dropWhile isCookieBlank ++ [0]) = true ∧
      ((s.dropWhile isCookieBlank ++ [0]).drop name.length).head? = some 61) ↔
        hasCookie name s = true := by
  rw [hasCookie, List.isPrefixOf_iff_prefix, List.isPrefixOf_iff_prefix]
  constructor
  · rintro ⟨hpre, hhead⟩
    have hlen : name.length ≤ (s.dropWhile isCookieBlank).length := by
      by_contra hlt
      have heq : name = s.dropWhile isCookieBlank ++ [0] :=
        hpre.eq_of_length_le (by simp only [List.length_append, List.length_singleton]; omega)
      exact hname.notNul (heq ▸ by simp)
    have hpre' : name <+: s.dropWhile isCookieBlank :=
      List.prefix_of_prefix_length_le hpre (List.prefix_append _ _) hlen
    obtain ⟨t, ht⟩ := hpre'
    rw [← ht, List.append_assoc, List.drop_left, head?_append_nul (by decide)] at hhead
    obtain ⟨u, rfl⟩ := List.head?_eq_some_iff.mp hhead
    exact ⟨u, by rw [← ht]; simp⟩
  · rintro ⟨u, hu⟩
    refine ⟨⟨61 :: u ++ [0], by rw [← hu]; simp⟩, ?_⟩
    rw [← hu]
    simp

theorem takeWhile_raw (hs : (0 : UInt8) ∉ s) (h : hasCookie name s = true) :
    ((s.dropWhile isCookieBlank ++ [0]).drop (name.length + 1)).takeWhile (fun c => c ≠ 0 ∧ c ≠ 59) =
      cookieRaw name s := by
  obtain ⟨u, hu⟩ := List.isPrefixOf_iff_prefix.mp h
  have hu0 : (0 : UInt8) ∉ u := fun hmem =>
    notMem_dropWhile (p := isCookieBlank) hs (hu ▸ List.mem_append_right _ hmem)
  have hlen : name.length + 1 = (name ++ [61]).length := by simp
  rw [cookieRaw, ← hu, List.append_assoc, hlen, List.drop_left, List.drop_left]
  clear hu hlen
  induction u with
  | nil => rfl
  | cons c u ih =>
    have hc : c ≠ 0 := fun hc => hu0 (hc ▸ List.mem_cons_self)
    rw [List.cons_append, List.takeWhile_cons, List.takeWhile_cons,
      ih fun hmem => hu0 (List.mem_cons_of_mem _ hmem)]
    simp [hc]

theorem dropWhile_eq_nil_iff_all : s.dropWhile isCookieBlank = [] ↔ s.all isCookieBlank = true := by
  rw [List.dropWhile_eq_nil_iff, List.all_eq_true]

theorem lookedAtFrom_of_none (h : nextElement s = none) (m : ℕ) : lookedAtFrom m s = [s] := by
  cases m with
  | zero => rfl
  | succ m => rw [lookedAtFrom, h]

theorem lookedAtFrom_of_some (h : nextElement s = some t) {m : ℕ} (hm : s.length ≤ m) :
    ∃ k, t.length ≤ k ∧ lookedAtFrom m s = s :: lookedAtFrom k t := by
  have hlt := length_nextElement h
  obtain ⟨k, rfl⟩ : ∃ k, m = k + 1 := ⟨m - 1, by omega⟩
  exact ⟨k, by omega, by rw [lookedAtFrom, h]⟩

/-- From an element without the name the scan goes to the next one, if it does not run past
the NUL. -/
theorem cookieScan_skip (hname : IsCookieName name) (hs : (0 : UInt8) ∉ s)
    (h : hasCookie name s = false) (n : ℕ) :
    cookieScan name (n + 1) (s ++ [0]) =
      if s.all isCookieBlank then none
      else match nextElement s with
        | some t => cookieScan name n (t ++ [0])
        | none => some [] := by
  have hno := mt (matches_iff_hasCookie (s := s) hname).mp (by rw [h]; exact Bool.false_ne_true)
  rw [cookieScan, skipCookieBlanks_append]
  simp only [if_neg hno, nextElement]
  rcases hu : s.dropWhile isCookieBlank with _ | ⟨c, u⟩
  · rw [if_pos (dropWhile_eq_nil_iff_all.mp hu)]
    rfl
  · have hu0 : (0 : UInt8) ∉ u := fun hmem =>
      notMem_dropWhile (p := isCookieBlank) hs (hu ▸ List.mem_cons_of_mem _ hmem)
    have hall : s.all isCookieBlank ≠ true := fun hall => by
      rw [dropWhile_eq_nil_iff_all.mpr hall] at hu
      cases hu
    simp only [List.cons_append, List.drop_one, List.tail_cons, skipCookieWord_append hu0,
      Option.bind_some, skipCookieBlanks_append, if_neg hall]
    rcases (u.dropWhile fun c => ! isCookieBlank c).dropWhile isCookieBlank with _ | ⟨d, w⟩
    · simp
    · by_cases hd : d = 59 <;> simp [hd]

/-- The scan gives the text of the first element it comes to with the name. Without one it
runs past the NUL if it comes to the end of the value, and finds nothing otherwise. -/
theorem cookieScan_eq (hname : IsCookieName name) :
    ∀ (n m : ℕ) {s : Bytes}, (0 : UInt8) ∉ s → s.length < n → s.length ≤ m →
      cookieScan name n (s ++ [0]) =
        match (lookedAtFrom m s).find? (hasCookie name) with
        | some t => some (cookieText (cookieRaw name t))
        | none => if (lookedAtFrom m s).any (List.all · isCookieBlank) then none else some []
  | 0, _, _, _, hn, _ => absurd hn (Nat.not_lt_zero _)
  | n + 1, m, s, hs, hn, hm => by
    cases hnamed : hasCookie name s with
    | true =>
      have hfind : (lookedAtFrom m s).find? (hasCookie name) = some s := by
        cases m <;> simp [lookedAtFrom, hnamed]
      rw [hfind, cookieScan, skipCookieBlanks_append]
      simp only [if_pos ((matches_iff_hasCookie hname).mpr hnamed), takeWhile_raw hs hnamed]
    | false =>
      rw [cookieScan_skip hname hs hnamed]
      cases hall : s.all isCookieBlank with
      | true =>
        have hnext : nextElement s = none := by
          rw [nextElement, dropWhile_eq_nil_iff_all.mpr hall]
          rfl
        simp [lookedAtFrom_of_none hnext, hnamed, hall]
      | false =>
        cases hnext : nextElement s with
        | none => simp [lookedAtFrom_of_none hnext, hnamed, hall]
        | some t =>
          obtain ⟨k, hk, hlooked⟩ := lookedAtFrom_of_some hnext hm
          have ht : (0 : UInt8) ∉ t := notMem_nextElement hs hnext
          have hlt := length_nextElement hnext
          rw [hlooked, List.find?_cons_of_neg (by simp [hnamed]), List.any_cons, hall,
            Bool.false_or]
          exact cookieScan_eq hname n k ht (by omega) hk

theorem cookieText_eq_trimCookie {w : Bytes} (h : ∀ c, w.head? = some c → ¬ isCookieBlank c) :
    cookieText w = trimCookie w := by
  rcases w with _ | ⟨c, w⟩
  · rfl
  · have hc := h c rfl
    rw [trimCookie, List.dropWhile_cons_of_neg (by simpa using hc), List.reverse_cons,
      List.dropWhile_append]
    split_ifs with hw
    · rw [cookieText, List.isEmpty_iff.mp hw]
      simp [hc]
    · simp [cookieText]

theorem cookieText_ne_trimCookie {w v : Bytes} (hw : w.head? = some c) (hc : isCookieBlank c) :
    cookieText w ≠ trimCookie v := by
  intro heq
  obtain ⟨w, rfl⟩ := List.head?_eq_some_iff.mp hw
  have hpre : trimCookie v <+: v.dropWhile isCookieBlank :=
    List.rdropWhile_prefix isCookieBlank (v.dropWhile isCookieBlank)
  rw [← heq] at hpre
  obtain ⟨u, hu⟩ := hpre
  have hhead := List.head?_dropWhile_not isCookieBlank v
  rw [← hu] at hhead
  simp [cookieText, hc] at hhead

/-- What the scan finds is the value of the header. -/
def CookieShown (name value : Bytes) : Prop :=
  (∃ t, (lookedAt value).find? (hasCookie name) = some t ∧
    (∀ c, (cookieRaw name t).head? = some c → ¬ isCookieBlank c) ∧
    trimCookie (cookieRaw name t) = cookieValue name value) ∨
  ((∀ t ∈ lookedAt value, hasCookie name t = false ∧ t.all isCookieBlank = false) ∧
    cookieValue name value = [])

theorem cookieValue_eq_trimCookie (name value : Bytes) :
    ∃ v, cookieValue name value = trimCookie v := by
  unfold cookieValue
  cases (elementStarts value).find? (hasCookie name) with
  | some s => exact ⟨_, rfl⟩
  | none => exact ⟨[], rfl⟩

theorem cookieScan_iff {value : Bytes} (hname : IsCookieName name) (hvalue : (0 : UInt8) ∉ value) :
    cookieScan name (value.length + 1) (value ++ [0]) = some (cookieValue name value) ↔
      CookieShown name value := by
  rw [cookieScan_eq hname _ _ hvalue (Nat.lt_succ_self _) le_rfl, ← lookedAt]
  cases hfind : (lookedAt value).find? (hasCookie name) with
  | none =>
    have hnone : ∀ t ∈ lookedAt value, hasCookie name t = false := fun t ht => by
      simpa using List.find?_eq_none.mp hfind t ht
    rw [CookieShown, hfind]
    by_cases hany : (lookedAt value).any (List.all · isCookieBlank) = true
    · rw [if_pos hany]
      obtain ⟨t, ht, hall⟩ := List.any_eq_true.mp hany
      refine iff_of_false (by simp) ?_
      rintro (⟨_, hcontra, -⟩ | ⟨hlooked, -⟩)
      · cases hcontra
      · exact Bool.false_ne_true ((hlooked t ht).2.symm.trans hall)
    · rw [if_neg hany, Option.some_inj]
      constructor
      · intro hempty
        refine .inr ⟨fun t ht => ⟨hnone t ht, ?_⟩, hempty.symm⟩
        exact Bool.not_eq_true _ ▸ fun hall => hany (List.any_eq_true.mpr ⟨t, ht, hall⟩)
      · rintro (⟨_, hcontra, -⟩ | ⟨-, hempty⟩)
        · cases hcontra
        · exact hempty.symm
  | some t =>
    obtain ⟨v, hv⟩ := cookieValue_eq_trimCookie name value
    rw [CookieShown, hfind, Option.some_inj]
    constructor
    · intro htext
      have hblank : ∀ c, (cookieRaw name t).head? = some c → ¬ isCookieBlank c :=
        fun c hc hb => cookieText_ne_trimCookie hc hb (htext.trans hv)
      exact .inl ⟨t, rfl, hblank, (cookieText_eq_trimCookie hblank).symm.trans htext⟩
    · rintro (⟨t', ht', hblank, hvalue⟩ | ⟨hlooked, -⟩)
      · obtain rfl := Option.some.inj ht'
        exact (cookieText_eq_trimCookie hblank).trans hvalue
      · have hnamed := List.find?_some hfind
        rw [(hlooked t (List.mem_of_find?_eq_some hfind)).1] at hnamed
        cases hnamed

section Field

variable {env : LogEnv} {con : LoggedCon}

/-- A `%C` field logs the value of the first element with its name, and nothing else. -/
def ShowsCookie (env : LogEnv) (con : LoggedCon) (st : LogState) (name : Bytes) (opt : FormatOpt)
    (value : Bytes) : Prop :=
  logField env con st (.format .cookie (some name) opt) =
    some { st with logbuffer := st.logbuffer ++ logEscape (cookieValue name value) }

/-- The field logs the value exactly when the first element that the scan comes to with the
name has that value and no blank behind its `=`, or when it comes to no element with the name
and not to the end of the header either, and there is no value. -/
theorem logField_cookie_iff {name : Bytes} (hname : IsCookieName name) {value : Buffer}
    (hvalue : (0 : UInt8) ∉ value.string)
    (hheader : arrayGetElement con.requestHeaders (str "Cookie") = some value) (st : LogState)
    (opt : FormatOpt) :
    ShowsCookie env con st name opt value.string ↔ CookieShown name value.string := by
  have hfield : logField env con st (.format .cookie (some name) opt) =
      (cookieScan name (value.string.length + 1) (value.string ++ [0])).map fun v =>
        { st with logbuffer := st.logbuffer ++ logEscape v } := by
    rw [logField, logCookie, hheader]
    simp only [accesslogAppendEscaped_eq]
    rfl
  rw [ShowsCookie, hfield, ← cookieScan_iff hname hvalue]
  rcases cookieScan name (value.string.length + 1) (value.string ++ [0]) with _ | v
  · simp
  · rw [Option.map_some, Option.some_inj, Option.some_inj]
    constructor
    · intro h
      exact logEscape_injective (List.append_cancel_left (congrArg LogState.logbuffer h))
    · rintro rfl
      rfl

end Field

/-- A request with a `Cookie` header. -/
def cookieCon (value : Bytes) : LoggedCon :=
  { bareCon with requestHeaders := [(str "Cookie", some value)] }

theorem isCookieName_id : IsCookieName (str "id") where
  ne_nil := by decide
  notNul := by decide
  notSpecial c hc := by
    rcases List.mem_pair.mp (show c ∈ [(105 : UInt8), 100] from hc) with rfl | rfl <;> decide

theorem logField_cookie_iff_first :
    ShowsCookie (logEnvAt 0) (cookieCon (str "id=7; a=b")) emptyLog (str "id") .zero
        (str "id=7; a=b") ↔ CookieShown (str "id") (str "id=7; a=b") :=
  @logField_cookie_iff (logEnvAt 0) (cookieCon (str "id=7; a=b")) (str "id") isCookieName_id
    (some (str "id=7; a=b")) (by decide) (by decide) emptyLog .zero

/-- In `a=b; id=7` the cookie `id` is not found. -/
theorem not_showsCookie : ¬ ∀ name, IsCookieName name → ∀ value : Buffer,
    (0 : UInt8) ∉ value.string → ∀ env con,
      arrayGetElement con.requestHeaders (str "Cookie") = some value → ∀ st opt,
        ShowsCookie env con st name opt value.string := by
  intro h
  have hshows := h (str "id") isCookieName_id (some (str "a=b; id=7")) (by decide) (logEnvAt 0)
    (cookieCon (str "a=b; id=7")) (by decide) emptyLog .zero
  have hlog := congrArg (Option.map LogState.logbuffer) hshows
  revert hlog
  decide

end Lighttpd
