import Lighttpd.CgiEnvironment
import Lighttpd.Alias

/-!
# Expiry rules

`mod_expire_get_offset` reads `<base> [plus] <num> <unit> ...`. A number goes through `strtol`
into an `int` and is multiplied as an `int`, and the products are added up in a `time_t`.
`ExpireRule` is what the parser accepts, which are more numbers than decimal ones, and
`modExpire_iff` says for which rules the offset is the sum that the rule spells.
-/

namespace Lighttpd

open CString

/-- The units with their seconds. -/
def expireUnits : List (Bytes × ℕ) :=
  [(str "years", 60 * 60 * 24 * 30 * 12), (str "months", 60 * 60 * 24 * 30),
    (str "weeks", 60 * 60 * 24 * 7), (str "days", 60 * 60 * 24), (str "hours", 60 * 60),
    (str "minutes", 60), (str "seconds", 1)]

/-- The seconds of a unit. -/
def expireUnit (word : Bytes) : Option ℕ := (expireUnits.find? fun u => u.1 = word).map Prod.snd

/-- A sum in a `time_t`. -/
def toTime (z : ℤ) : ℤ := z.bmod (2 ^ 64)

/-- `num *= seconds; retts += num`. -/
def addSeconds (retts num : ℤ) (seconds : ℕ) : ℤ := toTime (retts + toInt32 (num * seconds))

/-- The loop over the numbers and units. -/
def expireLoop : ℕ → ℤ → Bytes → Option ℤ
  | 0, _, _ => none
  | n + 1, retts, ts =>
    match strchr ts 32 with
    | none => none
    | some space =>
      let num := toInt32 (strtol 10 ts).1
      if (ts.drop (strtol 10 ts).2).head? ≠ some 32 then none
      else
        let ts := ts.drop (space + 1)
        match strchr ts 32 with
        | some space =>
          match expireUnit (ts.take space) with
          | none => none
          | some seconds => expireLoop n (addSeconds retts num seconds) (ts.drop (space + 1))
        | none => (expireUnit ts).map fun seconds => addSeconds retts num seconds

/-- The bases with their types. -/
def expireBases : List (Bytes × ℕ) :=
  [(str "access ", 0), (str "now ", 0), (str "modification ", 1)]

/-- `mod_expire_get_offset`: the type and the offset, or `none` for -1. -/
def modExpireGetOffset (expire : Buffer) : Option (ℕ × ℤ) :=
  if bufferStringIsEmpty expire then none
  else
    let ts := cstr expire.string
    match expireBases.find? fun b => b.1.isPrefixOf ts with
    | none => none
    | some base =>
      let ts := ts.drop base.1.length
      let ts := if (str "plus ").isPrefixOf ts then ts.drop 5 else ts
      (expireLoop ts.length 0 ts).map fun retts => (base.2, retts)

/-- What `mod_expire_handler` reads of a connection, with the time and the modification time
that the stat cache gives for the file. -/
structure ExpireCon where
  httpStatus : ℤ
  httpMethod : HttpMethod
  cacheControl : Buffer
  contentType : Buffer
  uriPath : Buffer
  curTs : ℤ
  mtime : Option ℤ

/-- `expire.url` and `expire.mimetypes`. -/
structure ExpireConf where
  expireUrl : List (Buffer × Buffer)
  expireMimetypes : List (Buffer × Buffer)

/-- What the handler does: nothing, an error, or an `Expires` header with the date of `expires`
and `max-age=` with `maxAge` in `Cache-Control`. -/
inductive ExpireAnswer
  | goOn
  | error
  | headers (expires maxAge : ℤ)
  deriving DecidableEq, Repr

/-- An entry of `expire.url` applies to a path. -/
def expireUrlMatches (path : Bytes) (key : Buffer) : Bool :=
  key.string.length ≤ path.length && key.isSome &&
    strncmpEq false path key.string key.string.length

/-- An entry of `expire.mimetypes` applies to a type; a `*` at its end is left out. -/
def expireMimetypeMatches (mimetype : Bytes) (key : Buffer) : Bool :=
  key.string.length ≤ mimetype.length && key.isSome &&
    strncmpEq false mimetype key.string
      (if key.string.getLast? = some 42 then key.string.length - 1 else key.string.length)

/-- The rule for a response. -/
def expireRule (conf : ExpireConf) (con : ExpireCon) : Option Buffer :=
  match conf.expireUrl.find? fun e => expireUrlMatches con.uriPath.string e.1 with
  | some e => some e.2
  | none =>
    (conf.expireMimetypes.find? fun e =>
      expireMimetypeMatches con.contentType.string e.1).map Prod.snd

/-- The headers for a time. -/
def expireHeaders (curTs expires : ℤ) : ExpireAnswer :=
  let expires := if expires < curTs then curTs else expires
  .headers expires (toTime (expires - curTs))

/-- `mod_expire_handler`. -/
def modExpireHandler (conf : ExpireConf) (con : ExpireCon) : ExpireAnswer :=
  if con.httpStatus ≠ 200 ∧ con.httpStatus ≠ 206 then .goOn
  else if con.httpMethod ≠ .get ∧ con.httpMethod ≠ .head then .goOn
  else if ¬ bufferStringIsEmpty con.cacheControl then .goOn
  else if con.uriPath = none then .goOn
  else
    match expireRule conf con with
    | none => .goOn
    | some rule =>
      match modExpireGetOffset rule with
      | some (0, ts) => expireHeaders con.curTs (toTime (ts + con.curTs))
      | some (1, ts) =>
        match con.mtime with
        | none => .goOn
        | some mtime => expireHeaders con.curTs (toTime (ts + mtime))
      | _ => .error

/-! ## Rules -/

/-- A text that the parser takes for a number: nothing, or a number as `strtol` reads it, with
no blank in it. -/
def ReadAsNumber (number : Bytes) : Prop :=
  (number = [] ∨ ∃ z, Spells number z) ∧ 32 ∉ number

/-- A number and its unit. -/
structure ExpireTerm where
  number : Bytes
  unit : Bytes
  seconds : ℕ
  readable : ReadAsNumber number
  known : (unit, seconds) ∈ expireUnits

/-- A term as it is written. -/
def ExpireTerm.text (t : ExpireTerm) : Bytes := t.number ++ 32 :: t.unit

/-- A decimal number that fits in an `int`. -/
def ExpireTerm.Plain (t : ExpireTerm) : Prop :=
  IsDecimal t.number ∧ ofDigits 10 t.number < 2 ^ 31

/-- The seconds that a term with a decimal number spells. -/
def ExpireTerm.value (t : ExpireTerm) : ℕ := ofDigits 10 t.number * t.seconds

/-- The seconds that the parser adds for a term. -/
def ExpireTerm.added (t : ExpireTerm) : ℤ :=
  toInt32 (toInt32 (strtol 10 t.number).1 * t.seconds)

/-- Terms as they are written. -/
def termsText : List ExpireTerm → Bytes
  | [] => []
  | [t] => t.text
  | t :: ts => t.text ++ 32 :: termsText ts

/-- A rule: a base with its type, `plus` or not, and terms. -/
structure ExpireRule where
  base : Bytes
  type : ℕ
  plus : Bool
  first : ExpireTerm
  rest : List ExpireTerm
  known : (base, type) ∈ expireBases

/-- A rule as it is written. -/
def ExpireRule.text (r : ExpireRule) : Bytes :=
  r.base ++ ((if r.plus then str "plus " else []) ++ termsText (r.first :: r.rest))

/-- The terms of a rule. -/
def ExpireRule.terms (r : ExpireRule) : List ExpireTerm := r.first :: r.rest

/-- All numbers of a rule are decimal and fit in an `int`. -/
def ExpireRule.Plain (r : ExpireRule) : Prop := ∀ t ∈ r.terms, t.Plain

/-- The seconds that a rule spells. -/
def ExpireRule.total (r : ExpireRule) : ℕ := (r.terms.map ExpireTerm.value).sum

/-- The seconds that the parser adds up. -/
def sumAdded (retts : ℤ) (ts : List ExpireTerm) : ℤ :=
  ts.foldl (fun retts t => toTime (retts + t.added)) retts

/-! ## What the parser accepts -/

variable {unit number : Bytes} {seconds : ℕ} {r : ExpireRule} {t t' : ExpireTerm} {expire : Buffer}

theorem expireUnit_of_mem (h : (unit, seconds) ∈ expireUnits) : expireUnit unit = some seconds := by
  have hall : ∀ u ∈ expireUnits, expireUnit u.1 = some u.2 := by decide
  exact hall _ h

theorem mem_of_expireUnit {word : Bytes} (h : expireUnit word = some seconds) :
    (word, seconds) ∈ expireUnits := by
  obtain ⟨u, hu, rfl⟩ := Option.map_eq_some_iff.mp h
  have hword : u.1 = word := by simpa using List.find?_some hu
  rw [← hword]
  exact List.mem_of_find?_eq_some hu

theorem unit_letters (h : (unit, seconds) ∈ expireUnits) : unit ≠ [] ∧ ∀ c ∈ unit, 97 ≤ c := by
  have hall : ∀ u ∈ expireUnits, u.1 ≠ [] ∧ (u.1.all fun c => 97 ≤ c) = true := by decide +kernel
  obtain ⟨hne, hletters⟩ := hall _ h
  exact ⟨hne, fun c hc => of_decide_eq_true (List.all_eq_true.mp hletters c hc)⟩

theorem notMem_unit (h : (unit, seconds) ∈ expireUnits) {c : UInt8} (hc : c < 97) :
    c ∉ unit := fun hmem =>
  absurd ((unit_letters h).2 c hmem) (UInt8.not_le.mpr hc)

theorem lt_letters_of_spells {w : Bytes} {z : ℤ} (h : Spells w z) : ∀ c ∈ w, c < 97 ∧ c ≠ 0 := by
  have h256 : ∀ n < 256, (isSpace (UInt8.ofNat n) ∨ UInt8.ofNat n = 43 ∨ UInt8.ofNat n = 45 ∨
      isDigit (UInt8.ofNat n)) → UInt8.ofNat n < 97 ∧ UInt8.ofNat n ≠ 0 := by decide +kernel
  obtain ⟨ws, sign, ds, rfl, hws, hsign, ⟨-, hds⟩, -⟩ := h.parts
  intro c hc
  have hcase : isSpace c ∨ c = 43 ∨ c = 45 ∨ isDigit c := by
    rcases List.mem_append.mp hc with hc | hc
    · exact .inl (hws c hc)
    · rcases List.mem_append.mp hc with hc | hc
      · rcases hsign with rfl | rfl | rfl
        · cases hc
        · exact .inr (.inl (List.mem_singleton.mp hc))
        · exact .inr (.inr (.inl (List.mem_singleton.mp hc)))
      · exact .inr (.inr (.inr (hds c hc)))
  have := h256 c.toNat c.toNat_lt
  rw [UInt8.ofNat_toNat] at this
  exact this hcase

theorem strtol_readable {u : Bytes} (h : ReadAsNumber number) (hu : ∀ c, u.head? = some c → 97 ≤ c) :
    strtol 10 (number ++ 32 :: u) = ((strtol 10 number).1, number.length) := by
  rcases h.1 with rfl | ⟨z, hz⟩
  · have hzero : (strtol 10 (32 :: u)).2 = 0 := by
      by_contra hne
      obtain ⟨w, t, z, hs, hz, -⟩ := exists_spells_of_strtol hne
      rcases w with _ | ⟨c, _ | ⟨d, w⟩⟩
      · exact hz.ne_nil rfl
      · obtain ⟨rfl, -⟩ := List.cons.inj hs
        obtain ⟨ws, sign, ds, hw, -, -, ⟨hne, hds⟩, -⟩ := hz.parts
        have hmem : ds.getLast hne ∈ ([32] : Bytes) := by
          rw [hw]
          simp
        have hlast := hds _ (List.getLast_mem hne)
        rw [List.mem_singleton.mp hmem] at hlast
        exact absurd hlast (by decide)
      · obtain ⟨-, rfl⟩ := List.cons.inj hs
        exact absurd (hu d rfl) (UInt8.not_le.mpr (lt_letters_of_spells hz d (by simp)).1)
    have hvalue := strtol_eq_zero hzero
    exact Prod.ext hvalue hzero
  · have hstop : StopsNumber (32 :: u) := fun c hc => by
      obtain rfl := Option.some.inj hc
      decide
    have hself := hz.strtol_eq (show StopsNumber [] from fun c hc => by cases hc)
    rw [List.append_nil] at hself
    rw [hz.strtol_eq hstop, hself]

theorem notMem_number (h : ReadAsNumber number) : (0 : UInt8) ∉ number := by
  rcases h.1 with rfl | ⟨z, hz⟩
  · simp
  · exact fun h0 => (lt_letters_of_spells hz 0 h0).2 rfl

theorem unit_head (h : (unit, seconds) ∈ expireUnits) (v : Bytes) :
    ∀ c, (unit ++ v).head? = some c → 97 ≤ c := by
  intro c hc
  obtain ⟨d, w, rfl⟩ := List.exists_cons_of_ne_nil (unit_letters h).1
  obtain rfl : d = c := by simpa using hc
  exact (unit_letters h).2 d List.mem_cons_self

theorem expireLoop_last (t : ExpireTerm) (n : ℕ) (retts : ℤ) :
    expireLoop (n + 1) retts t.text = some (toTime (retts + t.added)) := by
  have hu := unit_head t.known []
  rw [List.append_nil] at hu
  have hchr : strchr (t.number ++ 32 :: t.unit) 32 = some t.number.length :=
    strchr_append_cons t.readable.2 (notMem_number t.readable) (by decide) _
  have hdrop : (t.number ++ 32 :: t.unit).drop (t.number.length + 1) = t.unit := by simp
  have hend : strchr t.unit 32 = none := strchr_of_notMem (notMem_unit t.known (by decide))
  rw [expireLoop, ExpireTerm.text, hchr]
  simp only [strtol_readable t.readable hu, List.drop_left, List.head?_cons, ne_eq,
    not_true_eq_false, if_false, hdrop, hend, expireUnit_of_mem t.known, Option.map_some]
  rfl

/-- After a term that is not the last the loop goes on behind the blank. -/
theorem expireLoop_cons (t : ExpireTerm) (n : ℕ) (retts : ℤ) (rest : Bytes) :
    expireLoop (n + 1) retts (t.text ++ 32 :: rest) =
      expireLoop n (toTime (retts + t.added)) rest := by
  have hu := unit_head t.known (32 :: rest)
  have htext : t.text ++ 32 :: rest = t.number ++ 32 :: (t.unit ++ 32 :: rest) := by
    simp [ExpireTerm.text]
  have hchr : strchr (t.number ++ 32 :: (t.unit ++ 32 :: rest)) 32 = some t.number.length :=
    strchr_append_cons t.readable.2 (notMem_number t.readable) (by decide) _
  have hdrop : (t.number ++ 32 :: (t.unit ++ 32 :: rest)).drop (t.number.length + 1) =
      t.unit ++ 32 :: rest := by simp
  have hunit : strchr (t.unit ++ 32 :: rest) 32 = some t.unit.length :=
    strchr_append_cons (notMem_unit t.known (by decide)) (notMem_unit t.known (by decide))
      (by decide) _
  have hdrop' : (t.unit ++ 32 :: rest).drop (t.unit.length + 1) = rest := by simp
  rw [expireLoop, htext, hchr]
  simp only [strtol_readable t.readable hu, List.drop_left, List.head?_cons, ne_eq,
    not_true_eq_false, if_false, hdrop, hunit, List.take_left, expireUnit_of_mem t.known, hdrop']
  rfl

theorem expireLoop_termsText : ∀ (ts : List ExpireTerm) (n : ℕ) (retts : ℤ), ts ≠ [] →
    ts.length ≤ n → expireLoop n retts (termsText ts) = some (sumAdded retts ts)
  | [t], n, retts, _, hn => by
    obtain ⟨n, rfl⟩ : ∃ m, n = m + 1 := ⟨n - 1, by simp at hn; omega⟩
    exact expireLoop_last t n retts
  | t :: t' :: ts, n, retts, _, hn => by
    obtain ⟨n, rfl⟩ : ∃ m, n = m + 1 := ⟨n - 1, by simp at hn; omega⟩
    rw [termsText, expireLoop_cons, expireLoop_termsText (t' :: ts) n _ (by simp)
      (by simpa using hn)]
    · rfl
    · simp

/-- What stands before the blank is read as a number, if a letter is behind it. -/
theorem readable_of_strtol {u : Bytes} (h32 : 32 ∉ number) (hu : ∃ c, u.head? = some c ∧ 97 ≤ c)
    (hstop : ((number ++ 32 :: u).drop (strtol 10 (number ++ 32 :: u)).2).head? = some 32) :
    ReadAsNumber number := by
  refine ⟨?_, h32⟩
  by_cases hzero : (strtol 10 (number ++ 32 :: u)).2 = 0
  · rw [hzero, List.drop_zero] at hstop
    rcases number with _ | ⟨c, number⟩
    · exact .inl rfl
    · obtain rfl : c = 32 := by simpa using hstop
      exact absurd List.mem_cons_self h32
  · obtain ⟨w, t, z, hs, hz, -, hread⟩ := exists_spells_of_strtol hzero
    rw [hread, hs, List.drop_left] at hstop
    obtain ⟨t, rfl⟩ := List.head?_eq_some_iff.mp hstop
    by_cases hw : 32 ∈ w
    · exfalso
      obtain ⟨w₁, w₂, rfl, hw₁⟩ := List.eq_append_cons_of_mem hw
      rw [List.append_assoc, List.cons_append] at hs
      obtain ⟨rfl, rfl⟩ := append_cons_inj h32 hw₁ hs
      obtain ⟨c, hc, hletter⟩ := hu
      rcases w₂ with _ | ⟨d, w₂⟩
      · obtain ⟨ws, sign, ds, hparts, -, -, ⟨hne, hds⟩, -⟩ := hz.parts
        have hlast := congrArg List.getLast? hparts
        rw [List.getLast?_concat, List.getLast?_append_of_ne_nil _ (by simp [hne]),
          List.getLast?_append_of_ne_nil _ hne, List.getLast?_eq_getLast_of_ne_nil hne] at hlast
        have hdigit := hds _ (List.getLast_mem hne)
        rw [← Option.some.inj hlast] at hdigit
        exact absurd hdigit (by decide)
      · obtain rfl : d = c := by simpa using hc
        exact absurd hletter (UInt8.not_le.mpr (lt_letters_of_spells hz d (by simp)).1)
    · obtain ⟨rfl, -⟩ := append_cons_inj h32 hw hs
      exact .inr ⟨z, hz⟩

theorem exists_terms_of_expireLoop : ∀ {n : ℕ} {retts v : ℤ} {ts : Bytes},
    expireLoop n retts ts = some v → ∃ t rest, termsText (t :: rest) = ts
  | 0, _, _, _, h => by cases h
  | n + 1, retts, v, ts, h => by
    rw [expireLoop] at h
    rcases hchr : strchr ts 32 with _ | space
    · rw [hchr] at h
      cases h
    · obtain ⟨number, u, rfl, rfl, h32, -⟩ := strchr_eq_some hchr
      have hdrop : (number ++ 32 :: u).drop (number.length + 1) = u := by simp
      simp only [hchr, hdrop] at h
      split_ifs at h with hstop
      have hstop := not_not.mp hstop
      rcases hunit : strchr u 32 with _ | space
      · simp only [hunit] at h
        obtain ⟨seconds, hseconds, -⟩ := Option.map_eq_some_iff.mp h
        have hknown := mem_of_expireUnit hseconds
        obtain ⟨c, w, rfl⟩ := List.exists_cons_of_ne_nil (unit_letters hknown).1
        have hread := readable_of_strtol h32
          ⟨c, rfl, (unit_letters hknown).2 c List.mem_cons_self⟩ hstop
        exact ⟨⟨number, c :: w, seconds, hread, hknown⟩, [], rfl⟩
      · obtain ⟨unit, rest, rfl, rfl, -, -⟩ := strchr_eq_some hunit
        have hdrop' : (unit ++ 32 :: rest).drop (unit.length + 1) = rest := by simp
        simp only [hunit, List.take_left, hdrop'] at h
        rcases hseconds : expireUnit unit with _ | seconds
        · rw [hseconds] at h
          cases h
        · rw [hseconds] at h
          have hknown := mem_of_expireUnit hseconds
          obtain ⟨t, ts, rfl⟩ := exists_terms_of_expireLoop h
          obtain ⟨c, w, rfl⟩ := List.exists_cons_of_ne_nil (unit_letters hknown).1
          have hread := readable_of_strtol h32
            ⟨c, rfl, (unit_letters hknown).2 c List.mem_cons_self⟩ hstop
          exact ⟨⟨number, c :: w, seconds, hread, hknown⟩, t :: ts,
            by simp [termsText, ExpireTerm.text]⟩

theorem length_termsText : ∀ ts : List ExpireTerm, ts.length ≤ (termsText ts).length
  | [] => le_rfl
  | [t] => by
    simp only [termsText, ExpireTerm.text, List.length_append, List.length_cons, List.length_nil]
    omega
  | t :: t' :: ts => by
    have := length_termsText (t' :: ts)
    simp only [termsText, List.length_append, List.length_cons] at this ⊢
    omega

/-- Terms do not start with `plus`. -/
theorem not_plus_termsText (t : ExpireTerm) (ts : List ExpireTerm) :
    (str "plus ").isPrefixOf (termsText (t :: ts)) = false := by
  have hhead : ∃ c v, termsText (t :: ts) = c :: v ∧ c < 97 := by
    obtain ⟨v, hv⟩ : ∃ v, termsText (t :: ts) = t.number ++ 32 :: v := by
      cases ts with
      | nil => exact ⟨_, rfl⟩
      | cons t' ts =>
        exact ⟨t.unit ++ 32 :: termsText (t' :: ts), by simp [termsText, ExpireTerm.text]⟩
    rcases t.readable.1 with hnil | ⟨z, hz⟩
    · exact ⟨32, v, by rw [hv, hnil]; rfl, by decide⟩
    · obtain ⟨c, w, hw⟩ := List.exists_cons_of_ne_nil hz.ne_nil
      exact ⟨c, w ++ 32 :: v, by rw [hv, hw]; rfl,
        (lt_letters_of_spells hz c (by rw [hw]; exact List.mem_cons_self)).1⟩
  obtain ⟨c, v, hcv, hc⟩ := hhead
  have hp : (112 : UInt8) ≠ c := by
    rintro rfl
    exact absurd hc (by decide)
  have hstr : str "plus " = 112 :: str "lus " := rfl
  rw [hcv, hstr]
  simp [List.isPrefixOf, hp]

/-- A rule is read as its type and the sum of what its terms add. -/
theorem modExpireGetOffset_text (h : cstr expire.string = r.text) :
    modExpireGetOffset expire = some (r.type, sumAdded 0 r.terms) := by
  have hne : bufferStringIsEmpty expire = false := by
    rw [bufferStringIsEmpty, List.isEmpty_eq_false_iff]
    intro hnil
    rw [hnil] at h
    have hbase : r.base ≠ [] := by
      have hall : ∀ b ∈ expireBases, b.1 ≠ [] := by decide
      exact hall _ r.known
    exact hbase (List.append_eq_nil_iff.mp h.symm).1
  have hfind : ∀ v, (expireBases.find? fun b => b.1.isPrefixOf (r.base ++ v)) =
      some (r.base, r.type) := by
    intro v
    have hknown := r.known
    simp only [expireBases, List.mem_cons, Prod.mk.injEq, List.not_mem_nil, or_false] at hknown
    rcases hknown with ⟨hb, ht⟩ | ⟨hb, ht⟩ | ⟨hb, ht⟩ <;> rw [hb, ht] <;> rfl
  have hplus : (if (str "plus ").isPrefixOf ((if r.plus then str "plus " else []) ++
      termsText (r.first :: r.rest)) then
        ((if r.plus then str "plus " else []) ++ termsText (r.first :: r.rest)).drop 5
      else (if r.plus then str "plus " else []) ++ termsText (r.first :: r.rest)) =
        termsText (r.first :: r.rest) := by
    cases r.plus with
    | true => simp [str, List.isPrefixOf]
    | false => simp [not_plus_termsText]
  rw [modExpireGetOffset, hne, if_neg Bool.false_ne_true, h, ExpireRule.text]
  simp only [hfind, List.drop_left, hplus]
  rw [expireLoop_termsText _ _ _ (List.cons_ne_nil _ _) (length_termsText _)]
  rfl

theorem exists_rule_of_modExpireGetOffset {x : ℕ × ℤ} (h : modExpireGetOffset expire = some x) :
    ∃ r : ExpireRule, r.text = cstr expire.string := by
  rw [modExpireGetOffset] at h
  split_ifs at h
  rcases hbase : expireBases.find? fun b => b.1.isPrefixOf (cstr expire.string) with _ | base
  · simp only [hbase] at h
    cases h
  · simp only [hbase] at h
    have hknown := List.mem_of_find?_eq_some hbase
    have hpre : base.1.isPrefixOf (cstr expire.string) = true := by
      simpa using List.find?_some hbase
    obtain ⟨v, hv⟩ := List.isPrefixOf_iff_prefix.mp hpre
    rw [← hv, List.drop_left] at h
    obtain ⟨retts, hloop, -⟩ := Option.map_eq_some_iff.mp h
    obtain ⟨t, ts, hts⟩ := exists_terms_of_expireLoop hloop
    by_cases hplus : (str "plus ").isPrefixOf v = true
    · rw [if_pos hplus] at hts
      refine ⟨⟨base.1, base.2, true, t, ts, hknown⟩, ?_⟩
      rw [ExpireRule.text, ← hv, hts]
      obtain ⟨w, rfl⟩ := List.isPrefixOf_iff_prefix.mp hplus
      rfl
    · rw [if_neg hplus] at hts
      refine ⟨⟨base.1, base.2, false, t, ts, hknown⟩, ?_⟩
      rw [ExpireRule.text, ← hv, hts]
      rfl

/-! ## Sums -/

/-- No product of a rule leaves the `int` and its sum stays in the `time_t`. -/
def ExpireRule.NoOverflow (r : ExpireRule) : Prop :=
  (∀ t ∈ r.terms, t.value < 2 ^ 31) ∧ r.total < 2 ^ 63

theorem sumAdded_eq (ts : List ExpireTerm) (z : ℤ) :
    sumAdded (toTime z) ts = toTime (z + (ts.map ExpireTerm.added).sum) := by
  induction ts generalizing z with
  | nil => simp [sumAdded]
  | cons t ts ih =>
    have hstep : sumAdded (toTime z) (t :: ts) = sumAdded (toTime (z + t.added)) ts := by
      simp only [sumAdded, List.foldl_cons, toTime, Int.bmod_add_bmod]
    rw [hstep, ih, List.map_cons, List.sum_cons, add_assoc]

/-- A product that is stored in an `int` loses a multiple of `2 ^ 32`, and none only if it
fits. -/
theorem exists_wraps (v : ℕ) :
    ∃ m : ℕ, toInt32 v + 2 ^ 32 * m = v ∧ 2 ^ 31 * m ≤ v ∧ (m = 0 ↔ v < 2 ^ 31) := by
  refine ⟨(v + 2 ^ 31) / 2 ^ 32, ?_, ?_, ?_⟩
  · rw [toInt32, Int.bmod_def]
    split_ifs <;> omega
  · omega
  · omega

/-- For a decimal number that fits in an `int` only the product wraps. -/
theorem ExpireTerm.Plain.added_eq (h : t.Plain) : t.added = toInt32 t.value := by
  obtain ⟨hdecimal, hlt⟩ := h
  have hnumber : toInt32 (strtol 10 t.number).1 = ofDigits 10 t.number := by
    rw [strtol_of_isDecimal hdecimal, saturate64_of_lt (hlt.trans (by decide)), toInt32]
    exact Int.bmod_eq_of_le (by omega) (by omega)
  rw [ExpireTerm.added, hnumber, ExpireTerm.value, Nat.cast_mul]

/-- What the sum loses are the multiples that its products lose. -/
theorem exists_sum_wraps (ts : List ExpireTerm) (h : ∀ t ∈ ts, t.Plain) :
    ∃ m : ℕ, (ts.map ExpireTerm.added).sum + 2 ^ 32 * m = ((ts.map ExpireTerm.value).sum : ℕ) ∧
      2 ^ 31 * m ≤ (ts.map ExpireTerm.value).sum ∧ (m = 0 ↔ ∀ t ∈ ts, t.value < 2 ^ 31) := by
  induction ts with
  | nil => exact ⟨0, by simp⟩
  | cons t ts ih =>
    obtain ⟨m, hsum, hle, hzero⟩ := ih fun t ht => h t (List.mem_cons_of_mem _ ht)
    obtain ⟨n, hvalue, hle', hzero'⟩ := exists_wraps t.value
    rw [← (h t List.mem_cons_self).added_eq] at hvalue
    refine ⟨n + m, ?_, ?_, ?_⟩
    · simp only [List.map_cons, List.sum_cons, Nat.cast_add]
      omega
    · simp only [List.map_cons, List.sum_cons]
      omega
    · rw [List.forall_mem_cons, ← hzero, ← hzero']
      omega

/-- Exactly without overflow the parser finds the sum that a rule spells. -/
theorem sumAdded_eq_total_iff (h : r.Plain) : sumAdded 0 r.terms = r.total ↔ r.NoOverflow := by
  obtain ⟨m, hsum, hle, hzero⟩ := exists_sum_wraps r.terms h
  have hrun : sumAdded 0 r.terms = toTime (r.terms.map ExpireTerm.added).sum := by
    have := sumAdded_eq r.terms 0
    rwa [zero_add] at this
  change 2 ^ 31 * m ≤ r.total at hle
  change _ = (r.total : ℤ) at hsum
  rw [hrun, ExpireRule.NoOverflow, ← hzero, toTime]
  generalize r.total = total at hle hsum ⊢
  generalize (r.terms.map ExpireTerm.added).sum = added at hsum ⊢
  constructor
  · intro heq
    rw [Int.bmod_def] at heq
    split_ifs at heq <;> omega
  · rintro ⟨rfl, hlt⟩
    rw [Int.bmod_eq_of_le (by omega) (by omega)]
    omega

theorem ExpireTerm.eq_of_words (hnumber : t.number = t'.number) (hunit : t.unit = t'.unit) :
    t = t' := by
  obtain ⟨number, unit, seconds, readable, known⟩ := t
  obtain ⟨number', unit', seconds', readable', known'⟩ := t'
  subst hnumber hunit
  obtain rfl : seconds = seconds' := Option.some.inj
    ((expireUnit_of_mem known).symm.trans (expireUnit_of_mem known'))
  rfl

theorem termsText_injective : ∀ {ts ts' : List ExpireTerm}, ts ≠ [] → ts' ≠ [] →
    termsText ts = termsText ts' → ts = ts'
  | [t], [t'], _, _, h => by
    obtain ⟨hnumber, hunit⟩ := append_cons_inj t.readable.2 t'.readable.2 h
    rw [ExpireTerm.eq_of_words hnumber hunit]
  | [t], t' :: t'' :: ts', _, _, h => by
    simp only [termsText, ExpireTerm.text, List.append_assoc, List.cons_append] at h
    obtain ⟨-, hunit⟩ := append_cons_inj t.readable.2 t'.readable.2 h
    refine absurd ?_ (notMem_unit t.known (c := 32) (by decide))
    rw [hunit]
    simp
  | t :: t'' :: ts, [t'], _, _, h => by
    simp only [termsText, ExpireTerm.text, List.append_assoc, List.cons_append] at h
    obtain ⟨-, hunit⟩ := append_cons_inj t.readable.2 t'.readable.2 h
    refine absurd ?_ (notMem_unit t'.known (c := 32) (by decide))
    rw [← hunit]
    simp
  | t :: u :: ts, t' :: u' :: ts', _, _, h => by
    simp only [termsText, ExpireTerm.text, List.append_assoc, List.cons_append] at h
    obtain ⟨hnumber, hrest⟩ := append_cons_inj t.readable.2 t'.readable.2 h
    obtain ⟨hunit, hrest⟩ := append_cons_inj (notMem_unit t.known (by decide))
      (notMem_unit t'.known (by decide)) hrest
    rw [ExpireTerm.eq_of_words hnumber hunit,
      termsText_injective (List.cons_ne_nil u ts) (List.cons_ne_nil u' ts') hrest]

/-- `plus` is told apart from terms. -/
theorem plus_injective {p p' : Bool} {ts ts' : List ExpireTerm}
    (h : (if p then str "plus " else []) ++ termsText (t :: ts) =
      (if p' then str "plus " else []) ++ termsText (t' :: ts')) :
    p = p' ∧ termsText (t :: ts) = termsText (t' :: ts') := by
  have hplus : ∀ v, (str "plus ").isPrefixOf (str "plus " ++ v) = true := fun v => by
    rw [List.isPrefixOf_iff_prefix]
    exact List.prefix_append _ _
  cases p <;> cases p'
  · exact ⟨rfl, h⟩
  · have hno := not_plus_termsText t ts
    rw [show termsText (t :: ts) = str "plus " ++ termsText (t' :: ts') from h, hplus] at hno
    exact absurd hno (by decide)
  · have hno := not_plus_termsText t' ts'
    rw [show termsText (t' :: ts') = str "plus " ++ termsText (t :: ts) from h.symm, hplus] at hno
    exact absurd hno (by decide)
  · exact ⟨rfl, List.append_cancel_left h⟩

theorem base_injective {b b' : Bytes × ℕ} (hb : b ∈ expireBases) (hb' : b' ∈ expireBases)
    {v v' : Bytes} (h : b.1 ++ v = b'.1 ++ v') : b = b' ∧ v = v' := by
  have hall : ∀ b ∈ expireBases, ∀ b' ∈ expireBases, b.1.head? = b'.1.head? → b = b' := by decide
  have hne : ∀ b ∈ expireBases, b.1 ≠ [] := by decide
  have hhead : ∀ b ∈ expireBases, ∀ v : Bytes, (b.1 ++ v).head? = b.1.head? := fun b hb v =>
    List.head?_append_of_ne_nil _ (hne b hb)
  obtain rfl := hall b hb b' hb' (by rw [← hhead b hb v, h, hhead b' hb' v'])
  exact ⟨rfl, List.append_cancel_left h⟩

theorem ExpireRule.text_injective {r' : ExpireRule} (h : r.text = r'.text) : r = r' := by
  obtain ⟨base, type, plus, first, rest, known⟩ := r
  obtain ⟨base', type', plus', first', rest', known'⟩ := r'
  obtain ⟨hbase, h⟩ := base_injective known known' h
  obtain ⟨hplus, h⟩ := plus_injective h
  obtain rfl : plus = plus' := hplus
  obtain ⟨rfl, rfl⟩ := Prod.mk.inj hbase
  obtain ⟨rfl, rfl⟩ := List.cons.inj
    (termsText_injective (List.cons_ne_nil first rest) (List.cons_ne_nil first' rest') h)
  rfl

/-- A rule with decimal numbers is rejected or read as its sum, and any other text is
rejected. -/
def ReadsExactly (expire : Buffer) : Prop :=
  (∀ r : ExpireRule, r.text = cstr expire.string → r.Plain →
    modExpireGetOffset expire = none ∨ modExpireGetOffset expire = some (r.type, (r.total : ℤ))) ∧
  ((∀ r : ExpireRule, r.text = cstr expire.string → ¬ r.Plain) → modExpireGetOffset expire = none)

/-- `max-age` is the time to `Expires`, and not negative. -/
def MaxAgeFits (conf : ExpireConf) (con : ExpireCon) : Prop :=
  ∀ expires maxAge, modExpireHandler conf con = .headers expires maxAge →
    maxAge = expires - con.curTs ∧ 0 ≤ maxAge

theorem expireHeaders_fits {curTs ts expires maxAge : ℤ} (h0 : 0 ≤ curTs) (hcur : curTs < 2 ^ 63)
    (h : expireHeaders curTs (toTime ts) = .headers expires maxAge) :
    maxAge = expires - curTs ∧ 0 ≤ maxAge := by
  have hlt : toTime ts < 2 ^ 63 := Int.bmod_lt (by decide)
  rw [expireHeaders] at h
  obtain ⟨rfl, rfl⟩ := ExpireAnswer.headers.inj h
  have hrange : 0 ≤ (if toTime ts < curTs then curTs else toTime ts) - curTs ∧
      (if toTime ts < curTs then curTs else toTime ts) - curTs < 2 ^ 63 := by
    split_ifs <;> omega
  have hfit : toTime ((if toTime ts < curTs then curTs else toTime ts) - curTs) =
      (if toTime ts < curTs then curTs else toTime ts) - curTs :=
    Int.bmod_eq_of_le (by omega) (by omega)
  rw [hfit]
  exact ⟨rfl, hrange.1⟩

/-- The headers of a response fit for every rule, overflown or not. -/
theorem modExpireHandler_fits (conf : ExpireConf) {con : ExpireCon} (h0 : 0 ≤ con.curTs)
    (hcur : con.curTs < 2 ^ 63) : MaxAgeFits conf con := by
  intro expires maxAge h
  rw [modExpireHandler] at h
  split_ifs at h
  split at h
  · cases h
  · split at h
    · exact expireHeaders_fits h0 hcur h
    · split at h
      · cases h
      · exact expireHeaders_fits h0 hcur h
    · cases h

/-- A rule is read exactly if and only if the parser does not take it at all, or its numbers
are decimal and fit in an `int`, each product fits in an `int` and the sum in a `time_t`. The
headers fit always. -/
theorem modExpire_iff (expire : Buffer) : (ReadsExactly expire ∧ ∀ conf con, 0 ≤ con.curTs →
    con.curTs < 2 ^ 63 → MaxAgeFits conf con) ↔
      ∀ r : ExpireRule, r.text = cstr expire.string → r.Plain ∧ r.NoOverflow := by
  constructor
  · rintro ⟨⟨hexact, hother⟩, -⟩ r hr
    have hread := modExpireGetOffset_text hr.symm
    have hplain : r.Plain := by
      by_contra hno
      have hnone := hother fun r' hr' => by
        rw [ExpireRule.text_injective (hr'.trans hr.symm)]
        exact hno
      rw [hread] at hnone
      cases hnone
    refine ⟨hplain, (sumAdded_eq_total_iff hplain).mp ?_⟩
    rcases hexact r hr hplain with h | h
    · rw [hread] at h
      cases h
    · rw [hread] at h
      exact (Prod.mk.inj (Option.some.inj h)).2
  · intro hcond
    refine ⟨⟨fun r hr hplain => .inr ?_, fun hno => ?_⟩, fun conf con h0 hcur =>
      modExpireHandler_fits conf h0 hcur⟩
    · rw [modExpireGetOffset_text hr.symm, (sumAdded_eq_total_iff hplain).mpr (hcond r hr).2]
    · cases hread : modExpireGetOffset expire with
      | none => rfl
      | some x =>
        obtain ⟨r, hr⟩ := exists_rule_of_modExpireGetOffset hread
        exact absurd (hcond r hr).1 (hno r hr)

/-- Seventy years are a time in the past. -/
theorem not_readsExactly : modExpireGetOffset (some (str "access 70 years")) =
    some (0, 2177280000 - 2 ^ 32) ∧ ¬ ReadsExactly (some (str "access 70 years")) := by
  have hread : modExpireGetOffset (some (str "access 70 years")) =
      some (0, 2177280000 - 2 ^ 32) := by decide +kernel
  refine ⟨hread, fun h => ?_⟩
  have hknown : (str "years", 31104000) ∈ expireUnits := by decide
  have hdecimal : IsDecimal (str "70") :=
    ⟨by decide, List.all_eq_true.mp (by decide)⟩
  have hint : ofDigits 10 (str "70") < 2 ^ 31 := by decide
  have htotal : (2177280000 - 2 ^ 32 : ℤ) ≠ ((ofDigits 10 (str "70") * 31104000 + 0 : ℕ) : ℤ) := by
    decide
  have hterm : ReadAsNumber (str "70") :=
    ⟨.inr ⟨70, ⟨[], [], str "70", rfl, by simp, .inl rfl, hdecimal, by decide⟩⟩, by decide⟩
  have hbase : (str "access ", 0) ∈ expireBases := by decide
  rcases h.1 ⟨str "access ", 0, false, ⟨str "70", str "years", 31104000, hterm, hknown⟩, [], hbase⟩
    rfl (fun t ht => by
      rw [List.mem_singleton.mp ht]
      exact ⟨hdecimal, hint⟩) with h | h
  · rw [hread] at h
    cases h
  · rw [hread] at h
    exact htotal (Prod.mk.inj (Option.some.inj h)).2

end Lighttpd
