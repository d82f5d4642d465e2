import Lighttpd.HeaderScan

/-!
# What storing a header line does

For every header line that does not end the request: what it leaves of the request line, of the
header array and of the length of the body.
-/

namespace Lighttpd

open CString

theorem bind_eq_ok_iff {ε α β : Type} {r : Except ε α} {f : α → Except ε β} {b : β} :
    (r >>= f) = .ok b ↔ ∃ a, r = .ok a ∧ f a = .ok b := by
  cases r with
  | error e => exact ⟨fun h => (by cases h), fun ⟨_, h, _⟩ => by cases h⟩
  | ok a => exact ⟨fun h => ⟨a, rfl, h⟩, fun ⟨_, h, h'⟩ => Except.ok.inj h ▸ h'⟩

/-- Nothing behind the request line changes the method, the version and the URI. -/
structure SameRequestLine (con con' : RequestCon) : Prop where
  method_eq : con'.httpMethod = con.httpMethod
  version_eq : con'.httpVersion = con.httpVersion
  uri_eq : con'.uri = con.uri

theorem SameRequestLine.refl (con : RequestCon) : SameRequestLine con con := ⟨rfl, rfl, rfl⟩

theorem SameRequestLine.trans {con₁ con₂ con₃ : RequestCon} (h : SameRequestLine con₁ con₂)
    (h' : SameRequestLine con₂ con₃) : SameRequestLine con₁ con₃ :=
  ⟨h'.method_eq.trans h.method_eq, h'.version_eq.trans h.version_eq, h'.uri_eq.trans h.uri_eq⟩

/-- The names under which every field with a value is stored. -/
def AlwaysStored (name : Bytes) : Prop :=
  ¬ CaseEq (str "Host") name ∧ ¬ CaseEq (str "If-Modified-Since") name ∧
    ¬ CaseEq (str "If-None-Match") name

/-- What storing a field leaves of the state. -/
structure StoredField (st st' : ParseState) (key value : Bytes) : Prop where
  key_eq : st'.key = st.key
  line_eq : SameRequestLine st.con st'.con
  headers_eq : ∀ name, AlwaysStored name → arrayGetElement st'.con.headers name =
    arrayGetElement (arrayInsertUnique st.con.headers key value) name
  length_eq : CaseEq key (str "Content-Length") ∧ st.conLengthSet = false ∧
      st'.conLengthSet = true ∧ st'.con.contentLength = (strtol 10 value).1 ∨
    ¬ CaseEq key (str "Content-Length") ∧ st'.conLengthSet = st.conLengthSet ∧
      st'.con.contentLength = st.con.contentLength

variable {st st' : ParseState} {key value : Bytes}

theorem StoredField.insert {st₁ : ParseState} (hk : st₁.key = st.key)
    (hv : SameRequestLine st.con st₁.con) (hh : st₁.con.headers = st.con.headers)
    (hl : CaseEq key (str "Content-Length") ∧ st.conLengthSet = false ∧
      st₁.conLengthSet = true ∧ st₁.con.contentLength = (strtol 10 value).1 ∨
      ¬ CaseEq key (str "Content-Length") ∧ st₁.conLengthSet = st.conLengthSet ∧
        st₁.con.contentLength = st.con.contentLength) :
    StoredField st (st₁.insert key value) key value where
  key_eq := hk
  line_eq := ⟨hv.method_eq, hv.version_eq, hv.uri_eq⟩
  headers_eq name _ := by
    rw [← hh]
    rfl
  length_eq := hl

theorem StoredField.ignore (hl : ¬ CaseEq key (str "Content-Length"))
    (hkey : ∀ name, AlwaysStored name → ¬ CaseEq key name) : StoredField st st key value where
  key_eq := rfl
  line_eq := .refl _
  headers_eq name hn := by
    rw [arrayGetElement_arrayInsertUnique, if_neg (hkey name hn)]
  length_eq := .inr ⟨hl, rfl, rfl⟩

theorem storeHeader_eq_ok (h : storeHeader st key value = .ok st') :
    StoredField st st' key value := by
  unfold storeHeader rejectHeader at h
  dsimp only at h
  by_cases hconn : CaseEq key (str "Connection")
  · have hl : ¬ CaseEq key (str "Content-Length") := fun h =>
      absurd (hconn.symm.trans h) (by decide)
    rw [if_pos hconn] at h
    obtain rfl := Except.ok.inj h
    exact .insert rfl ⟨rfl, rfl, rfl⟩ rfl (.inr ⟨hl, rfl, rfl⟩)
  rw [if_neg hconn] at h
  by_cases hl : CaseEq key (str "Content-Length")
  · rw [if_pos hl] at h
    split_ifs at h with hset hr
    obtain rfl := Except.ok.inj h
    exact .insert rfl ⟨rfl, rfl, rfl⟩ rfl (.inl ⟨hl, by simpa using hset, rfl, rfl⟩)
  rw [if_neg hl] at h
  split_ifs at h
  all_goals obtain rfl := Except.ok.inj h
  all_goals first
    | exact .insert rfl ⟨rfl, rfl, rfl⟩ rfl (.inr ⟨hl, rfl, rfl⟩)
    | exact .ignore hl fun name hn h => hn.1 (CaseEq.trans (CaseEq.symm ‹_›) h)
    | exact .ignore hl fun name hn h => hn.2.1 (CaseEq.trans (CaseEq.symm ‹_›) h)
    | exact .ignore hl fun name hn h => hn.2.2 (CaseEq.trans (CaseEq.symm ‹_›) h)

theorem endOfHeaderLine_field {raw : Bytes} (h : endOfHeaderLine st (.field key raw) = .ok st') :
    trimValue raw = [] ∧ st' = { st with key := some key } ∨
      trimValue raw ≠ [] ∧ StoredField { st with key := some key } st' key (trimValue raw) := by
  unfold endOfHeaderLine at h
  dsimp only at h
  split_ifs at h with hv
  · exact .inl ⟨hv, (Except.ok.inj h).symm⟩
  · exact .inr ⟨hv, storeHeader_eq_ok h⟩

theorem endOfHeaderLine_continuation (h : endOfHeaderLine st (.continuation value) = .ok st') :
    ∃ key, st.key = some key ∧ st' = { st with con := { st.con with
      headers := arrayModify st.con.headers key fun old => some (old.string ++ value) } } := by
  unfold endOfHeaderLine at h
  cases hk : st.key with
  | none => simp [hk] at h
  | some key =>
    simp only [hk] at h
    split_ifs at h
    exact ⟨key, rfl, (Except.ok.inj h).symm⟩

theorem endOfHeaderLine_sameRequestLine {line : HeaderLine} (h : endOfHeaderLine st line = .ok st') :
    SameRequestLine st.con st'.con := by
  cases line with
  | field key raw =>
    rcases endOfHeaderLine_field h with ⟨-, rfl⟩ | ⟨-, hs⟩
    · exact .refl st.con
    · exact hs.line_eq
  | continuation value =>
    obtain ⟨key, -, rfl⟩ := endOfHeaderLine_continuation h
    exact ⟨rfl, rfl, rfl⟩

theorem foldlM_sameRequestLine :
    ∀ {lines : List HeaderLine} {st : ParseState},
      lines.foldlM endOfHeaderLine st = .ok st' → SameRequestLine st.con st'.con
  | [], st, h => Except.ok.inj h ▸ SameRequestLine.refl st.con
  | line :: lines, st, h => by
    rw [List.foldlM_cons] at h
    obtain ⟨st₁, h₁, h⟩ := bind_eq_ok_iff.mp h
    exact (endOfHeaderLine_sameRequestLine h₁).trans (foldlM_sameRequestLine h)

end Lighttpd
