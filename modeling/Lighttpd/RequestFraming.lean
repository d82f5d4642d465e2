import Lighttpd.RequestAccept

/-!
# How the length of a body is announced

`content_length` is set when the line of Content-Length is read, and the stored value may
change behind it: a continuation line is appended to it. `fieldValue` is the value that the
header lines of a request give a field. An accepted request frames its body the way a backend
reads the headers if and only if it has a Transfer-Encoding, or no Content-Length, or one whose
value, with its continuation lines, is a decimal number below 2^63
(`httpRequestParse_framing_iff`).
-/

namespace Lighttpd

open CString

/-- The field that a continuation line refers to, and the value of one field so far. -/
structure FieldState where
  key : Option Bytes
  value : Option Bytes
  deriving DecidableEq, Repr

/-- A value is joined with the values of the same field before it. -/
def joinValue (old : Option Bytes) (value : Bytes) : Bytes :=
  match old with
  | none => value
  | some old => old ++ str ", " ++ value

/-- One header line. A field without a value says nothing about its value, but continuation
lines may refer to it. -/
def fieldStep (name : Bytes) (s : FieldState) : HeaderLine → FieldState
  | .field key raw =>
    ⟨some key,
      if CaseEq key name ∧ trimValue raw ≠ [] then some (joinValue s.value (trimValue raw))
      else s.value⟩
  | .continuation value =>
    { s with value :=
        if CaseEq (s.key.getD []) name then s.value.map fun old => old ++ value else s.value }

/-- The value of a field in header lines. -/
def fieldValue (name : Bytes) (lines : List HeaderLine) : Option Bytes :=
  (lines.foldl (fieldStep name) ⟨none, none⟩).value

/-- The header lines of a request. -/
def requestHeaderLines (opts : ParseOpts) (requestCount : ℕ) (request : Bytes) :
    List HeaderLine :=
  match leadingSkip opts requestCount request with
  | none => []
  | some skip =>
    match requestLineLoop opts.headerStrict [] [] (request.drop skip) with
    | .line _ _ rest => ((scanHeader opts.headerStrict (.key []) rest).map Prod.fst).getD []
    | _ => []

/-- The stored value of a field is the one that the lines so far give it. -/
structure FieldInv (name : Bytes) (st : ParseState) (s : FieldState) : Prop where
  key_eq : st.key = s.key
  value_eq : arrayGetElement st.con.headers name = s.value.map some

variable {name : Bytes} {st st' : ParseState} {s : FieldState} {line : HeaderLine}

theorem FieldInv.step (hn : AlwaysStored name) (hi : FieldInv name st s)
    (h : endOfHeaderLine st line = .ok st') : FieldInv name st' (fieldStep name s line) := by
  cases line with
  | field key raw =>
    rcases endOfHeaderLine_field h with ⟨hv, rfl⟩ | ⟨hv, hs⟩
    · exact ⟨rfl, by simpa [fieldStep, hv] using hi.value_eq⟩
    · refine ⟨hs.key_eq, ?_⟩
      rw [hs.headers_eq name hn, arrayGetElement_arrayInsertUnique, hi.value_eq]
      by_cases hk : CaseEq key name
      · rw [if_pos hk, fieldStep, if_pos ⟨hk, hv⟩]
        cases s.value <;> rfl
      · rw [if_neg hk, fieldStep, if_neg fun h => hk h.1]
  | continuation value =>
    obtain ⟨key, hk, rfl⟩ := endOfHeaderLine_continuation h
    refine ⟨hi.key_eq, ?_⟩
    have hkey : s.key.getD [] = key := by rw [← hi.key_eq, hk, Option.getD_some]
    rw [arrayGetElement_arrayModify, hi.value_eq, fieldStep, hkey]
    split_ifs
    · cases s.value <;> rfl
    · rfl

/-- `content_length` is what `strtoll` read of Content-Length; what is appended to the value
after that begins with white space. -/
def LengthInv (st : ParseState) (value : Option Bytes) : Prop :=
  st.conLengthSet = false ∧ value = none ∧ st.con.contentLength = 0 ∨
    st.conLengthSet = true ∧ ∃ v w, value = some (v ++ w) ∧ v ≠ [] ∧
      st.con.contentLength = (strtol 10 v).1 ∧ ∀ c ∈ w.head?, isWs c

theorem LengthInv.step (hi : LengthInv st s.value) (hc : line.Clean)
    (h : endOfHeaderLine st line = .ok st') :
    LengthInv st' (fieldStep (str "Content-Length") s line).value := by
  cases line with
  | field key raw =>
    rcases endOfHeaderLine_field h with ⟨hv, rfl⟩ | ⟨hv, hs⟩
    · rw [fieldStep, if_neg fun h => h.2 hv]
      exact hi
    · rcases hs.length_eq with ⟨hk, hset, hset', hlen⟩ | ⟨hk, hset, hlen⟩
      · -- it is the first one, since a second one is refused
        have hnone : s.value = none := by
          rcases hi with ⟨-, hnone, -⟩ | ⟨hset₁, -⟩
          · exact hnone
          · exact absurd (hset₁.symm.trans hset) (by decide)
        rw [fieldStep, if_pos ⟨hk, hv⟩, hnone]
        exact .inr ⟨hset', trimValue raw, [], by rw [List.append_nil]; rfl, hv, hlen, by simp⟩
      · rw [fieldStep, if_neg fun h => hk h.1, LengthInv, hset, hlen]
        exact hi
  | continuation value =>
    obtain ⟨key, hk, rfl⟩ := endOfHeaderLine_continuation h
    obtain ⟨-, c, v', rfl, hws⟩ := hc
    rw [fieldStep]
    split_ifs
    · rcases hi with ⟨hset, hnone, hlen⟩ | ⟨hset, v, w, hvw, hne, hlen, hw⟩
      · exact .inl ⟨hset, by rw [hnone]; rfl, hlen⟩
      · refine .inr ⟨hset, v, w ++ c :: v', by rw [hvw]; simp, hne, hlen, ?_⟩
        cases w with
        | nil => simpa using hws
        | cons d w => simpa using hw
    · exact hi

/-! ## Over all lines -/

/-- What holds between the lines and the state behind them. -/
structure FramingInv (st : ParseState) (te cl : FieldState) : Prop where
  te_inv : FieldInv (str "Transfer-Encoding") st te
  cl_inv : FieldInv (str "Content-Length") st cl
  length_inv : LengthInv st cl.value

theorem alwaysStored_transferEncoding : AlwaysStored (str "Transfer-Encoding") := by
  unfold AlwaysStored
  decide

theorem alwaysStored_contentLength : AlwaysStored (str "Content-Length") := by
  unfold AlwaysStored
  decide

theorem FramingInv.step {te cl : FieldState} (hi : FramingInv st te cl) (hc : line.Clean)
    (h : endOfHeaderLine st line = .ok st') :
    FramingInv st' (fieldStep (str "Transfer-Encoding") te line)
      (fieldStep (str "Content-Length") cl line) where
  te_inv := hi.te_inv.step alwaysStored_transferEncoding h
  cl_inv := hi.cl_inv.step alwaysStored_contentLength h
  length_inv := hi.length_inv.step hc h

theorem FramingInv.run :
    ∀ {lines : List HeaderLine} {st : ParseState} {te cl : FieldState},
      FramingInv st te cl → (∀ line ∈ lines, line.Clean) →
      lines.foldlM endOfHeaderLine st = .ok st' →
      FramingInv st' (lines.foldl (fieldStep (str "Transfer-Encoding")) te)
        (lines.foldl (fieldStep (str "Content-Length")) cl)
  | [], _, _, _, hi, _, h => Except.ok.inj h ▸ hi
  | line :: lines, st, te, cl, hi, hc, h => by
    rw [List.foldlM_cons] at h
    obtain ⟨st₁, h₁, h⟩ := bind_eq_ok_iff.mp h
    obtain ⟨hl, hls⟩ := List.forall_mem_cons.mp hc
    exact (hi.step hl h₁).run hls h

theorem FramingInv.start {opts : ParseOpts} {keepAlive responseKeepAlive : Bool}
    {s rest : Bytes} {st : ParseState}
    (h : parseRequestLine opts (.reset keepAlive responseKeepAlive) s = .ok (st, rest)) :
    FramingInv st ⟨none, none⟩ ⟨none, none⟩ := by
  obtain ⟨method, target, proto, con', host, -, hend, -, hst⟩ := parseRequestLine_eq_ok h
  obtain ⟨version, uri, -, -, -, -, rfl⟩ := endOfRequestLine_eq_ok hend
  rcases hst with ⟨-, rfl⟩ | ⟨name, -, rfl⟩
  · exact ⟨⟨rfl, rfl⟩, ⟨rfl, rfl⟩, .inl ⟨rfl, rfl, rfl⟩⟩
  · exact ⟨⟨rfl, rfl⟩, ⟨rfl, rfl⟩, .inl ⟨rfl, rfl, rfl⟩⟩

theorem mem_of_mem_trimValue {raw : Bytes} {c : UInt8} (h : c ∈ trimValue raw) : c ∈ raw := by
  unfold trimValue at h
  have h₁ := (List.dropWhile_sublist _).subset (List.mem_reverse.mp h)
  exact (List.dropWhile_sublist _).subset (List.mem_reverse.mp h₁)

theorem notMem_fieldStep (hc : line.Clean) (hs : ∀ v ∈ s.value, (0 : UInt8) ∉ v) :
    ∀ v ∈ (fieldStep name s line).value, (0 : UInt8) ∉ v := by
  cases line with
  | field key raw =>
    have htrim : (0 : UInt8) ∉ trimValue raw := fun h => hc (mem_of_mem_trimValue h)
    rw [fieldStep]
    split_ifs
    · cases hv : s.value with
      | none => simpa [joinValue] using htrim
      | some old =>
        have hold := hs old hv
        have hsep : (0 : UInt8) ∉ str ", " := by decide
        simpa [joinValue, hold, htrim] using hsep
    · exact hs
  | continuation value =>
    rw [fieldStep]
    split_ifs
    · cases hv : s.value with
      | none => simp
      | some old =>
        have hold := hs old hv
        simpa [hold] using hc.1
    · exact hs

theorem notMem_fieldValue :
    ∀ {lines : List HeaderLine} {s : FieldState}, (∀ line ∈ lines, line.Clean) →
      (∀ v ∈ s.value, (0 : UInt8) ∉ v) →
      ∀ v ∈ (lines.foldl (fieldStep name) s).value, (0 : UInt8) ∉ v
  | [], _, _, hs => hs
  | line :: lines, s, hc, hs => by
    obtain ⟨hl, hls⟩ := List.forall_mem_cons.mp hc
    rw [List.foldl_cons]
    exact notMem_fieldValue hls (notMem_fieldStep hl hs)

/-! ## The framing of an accepted request -/

/-- The stored value of a header, empty when there is none. -/
def headerValue (con : RequestCon) (name : Bytes) : Bytes :=
  ((arrayGetElement con.headers name).getD none).string

/-- The connection frames the body as the headers that are passed on say: Transfer-Encoding was
`chunked` and is not passed on, or the length is the one in Content-Length, or there is none. -/
def FramingAgrees (lines : List HeaderLine) (con : RequestCon) : Prop :=
  if (arrayGetElement con.headers (str "Transfer-Encoding")).isSome then
    con.httpVersion = .http11 ∧
      CaseEq ((fieldValue (str "Transfer-Encoding") lines).getD []) (str "chunked") ∧
      con.contentLength = -1 ∧ headerValue con (str "Transfer-Encoding") = [] ∧
      headerValue con (str "Content-Length") = []
  else if headerValue con (str "Content-Length") ≠ [] then
    IsDecimal (headerValue con (str "Content-Length")) ∧
      (ofDigits 10 (headerValue con (str "Content-Length")) : ℤ) = con.contentLength
  else con.contentLength = 0

instance (lines : List HeaderLine) (con : RequestCon) : Decidable (FramingAgrees lines con) :=
  inferInstanceAs (Decidable (ite _ _ (ite _ _ _)))

/-- The header lines announce the body in one way: by Transfer-Encoding, or not at all, or by a
Content-Length that is a decimal number of type `off_t`, continuation lines included. -/
def PlainLength (lines : List HeaderLine) : Prop :=
  (fieldValue (str "Transfer-Encoding") lines).isSome ∨
    ∀ value ∈ fieldValue (str "Content-Length") lines,
      IsDecimal value ∧ ofDigits 10 value < 2 ^ 63

theorem parseHeader_framing {opts : ParseOpts} {requestCount skip : ℕ}
    {keepAlive responseKeepAlive : Bool} {request : Bytes}
    (hs : leadingSkip opts requestCount request = some skip)
    (hp : parseHeader opts (.reset keepAlive responseKeepAlive) (request.drop skip) = .ok st) :
    (∀ line ∈ requestHeaderLines opts requestCount request, line.Clean) ∧
      ∃ te cl, FramingInv st te cl ∧
        te.value = fieldValue (str "Transfer-Encoding")
          (requestHeaderLines opts requestCount request) ∧
        cl.value = fieldValue (str "Content-Length")
          (requestHeaderLines opts requestCount request) := by
  obtain ⟨st₀, st₁, rest, lines, rest', hline, hscan, hfold, rfl⟩ := parseHeader_eq_ok hp
  have hstart := FramingInv.start hline
  obtain ⟨method, target, proto, con', host, hloop, -⟩ := parseRequestLine_eq_ok hline
  have hlines : requestHeaderLines opts requestCount request = lines := by
    simp only [requestHeaderLines, hs, hloop, hscan]
    rfl
  have hclean : ∀ line ∈ lines, line.Clean := (scanHeader_sound hscan).clean trivial
  obtain ⟨hte, hcl, hlen⟩ := hstart.run hclean hfold
  rw [hlines]
  exact ⟨hclean, _, _, ⟨⟨hte.key_eq, hte.value_eq⟩, ⟨hcl.key_eq, hcl.value_eq⟩, hlen⟩, rfl, rfl⟩

theorem finishRequest_framing {lib : AddrLib} {opts : ParseOpts} {proto : Buffer}
    {r : RequestCon × ℕ} (h : finishRequest lib opts proto st = .ok r) :
    arrayGetElement st.con.headers (str "Transfer-Encoding") = none ∧
        arrayGetElement r.1.headers (str "Transfer-Encoding") = none ∧
        arrayGetElement r.1.headers (str "Content-Length") =
          arrayGetElement st.con.headers (str "Content-Length") ∧
        r.1.contentLength = st.con.contentLength ∨
      ∃ value, arrayGetElement st.con.headers (str "Transfer-Encoding") = some value ∧
        arrayGetElement r.1.headers (str "Transfer-Encoding") = some none ∧
        (arrayGetElement r.1.headers (str "Content-Length")).getD none = none ∧
        r.1.httpVersion ≠ .http10 ∧ strcaseeq value.string (str "chunked") ∧
        r.1.contentLength = -1 := by
  obtain ⟨con₁, con₂, set, h₁, h₂, h₃⟩ := finishRequest_eq_ok h
  obtain ⟨k, rfl⟩ := checkKeepAlive_eq_ok h₁
  have hhost : con₂.contentLength = st.con.contentLength ∧ ∀ name, AlwaysStored name →
      arrayGetElement con₂.headers name = arrayGetElement st.con.headers name := by
    rcases checkHost_eq_ok h₂ with rfl | ⟨host, rfl⟩
    · exact ⟨rfl, fun _ _ => rfl⟩
    · exact ⟨rfl, fun name hn => by rw [arrayGetElement_arrayModify, if_neg hn.1]⟩
  obtain ⟨hlen, hget⟩ := hhost
  have hte := hget _ alwaysStored_transferEncoding
  have hcl := hget _ alwaysStored_contentLength
  rcases checkTransferEncoding_eq_ok h₃ with ⟨hnone, hr⟩ | ⟨value, hvalue, h10, hchunked, hr⟩
  · rw [(Prod.mk.inj hr).1]
    exact .inl ⟨hte ▸ hnone, hnone, hcl, hlen⟩
  · rw [(Prod.mk.inj hr).1]
    refine .inr ⟨value, hte ▸ hvalue, ?_, ?_, h10, hchunked, rfl⟩
    · rw [arrayGetElement_arrayModify, if_neg (by decide), arrayGetElement_arrayModify,
        if_pos (by decide), hvalue]
      rfl
    · rw [arrayGetElement_arrayModify, if_pos (by decide)]
      cases arrayGetElement _ _ <;> rfl

/-- A number with nothing behind it is the one that `strtoll` read, when it fits. -/
theorem ofDigits_eq_strtol_iff {v w : Bytes} (hd : IsDecimal (v ++ w))
    (hw : ∀ c ∈ w.head?, isWs c) :
    (ofDigits 10 (v ++ w) : ℤ) = (strtol 10 v).1 ↔ ofDigits 10 (v ++ w) < 2 ^ 63 := by
  obtain rfl : w = [] := by
    cases w with
    | nil => rfl
    | cons c w =>
      have hdigit : isDigit c := hd.2 c (by simp)
      rcases isWs_iff.mp (hw c rfl) with rfl | rfl <;> exact absurd hdigit (by decide)
  rw [List.append_nil] at hd ⊢
  rw [strtol_of_isDecimal hd]
  constructor
  · intro h
    have hlt : (ofDigits 10 v : ℤ) < 2 ^ 63 := h ▸ saturate64_lt _
    exact_mod_cast hlt
  · intro h
    exact (saturate64_of_lt h).symm

/-- For an accepted request, the framing agrees with the headers that are passed on if and only
if the length is plain. -/
theorem httpRequestParse_framing_iff {lib : AddrLib} {opts : ParseOpts} {requestCount : ℕ}
    {proto : Buffer} {keepAlive responseKeepAlive : Bool} {request : Bytes}
    (hacc : Accepted (httpRequestParse lib opts requestCount proto
      (.reset keepAlive responseKeepAlive) request)) :
    FramingAgrees (requestHeaderLines opts requestCount request)
        (httpRequestParse lib opts requestCount proto
          (.reset keepAlive responseKeepAlive) request).1 ↔
      PlainLength (requestHeaderLines opts requestCount request) := by
  obtain ⟨skip, st, hskip, hparse, hfin⟩ := httpRequestParse_accepted hacc
  obtain ⟨hclean, te, cl, hinv, hte, hcl⟩ := parseHeader_framing hskip hparse
  unfold FramingAgrees PlainLength headerValue
  rw [← hte, ← hcl]
  rcases finishRequest_framing hfin with ⟨hnone, hnone', hget, hlen⟩ |
    ⟨value, hvalue, hte', hcl', h10, hchunked, hlen⟩
  · have htnone : te.value = none := by simpa [hinv.te_inv.value_eq] using hnone
    rw [hnone', hget, hlen, hinv.cl_inv.value_eq, htnone]
    rcases hinv.length_inv with ⟨-, hnone, h0⟩ | ⟨-, v, w, hvw, hne, hl, hw⟩
    · simp [hnone, h0, Buffer.string]
    · have hne' : v ++ w ≠ [] := fun h => hne (List.append_eq_nil_iff.mp h).1
      simpa [hvw, hl, Buffer.string, hne] using
        fun hd : IsDecimal (v ++ w) => ofDigits_eq_strtol_iff hd hw
  · obtain ⟨tv, htv, rfl⟩ := Option.map_eq_some_iff.mp (hinv.te_inv.value_eq ▸ hvalue)
    have hnul : (0 : UInt8) ∉ tv := notMem_fieldValue hclean (by simp) tv (hte ▸ htv)
    have hcase : CaseEq tv (str "chunked") := by
      have := of_decide_eq_true hchunked
      rwa [show Buffer.string (some tv) = tv from rfl, cstr_of_notMem hnul,
        cstr_of_notMem (by decide)] at this
    have h11 := (httpRequestParse_httpVersion hacc).resolve_left h10
    rw [hte', hcl', htv]
    simp [h11, hcase, hlen, Buffer.string]

/-- A request with a chunked body. -/
def chunkedRequest : Bytes :=
  str "POST /a HTTP/1.1\r\nHost: b\r\nTransfer-Encoding: chunked\r\n\r\n"

/-- On a request with a chunked body. -/
theorem httpRequestParse_framing_chunked :
    FramingAgrees (requestHeaderLines strictOpts 1 chunkedRequest)
        (httpRequestParse .noAddress strictOpts 1 none (.reset true true) chunkedRequest).1 ↔
      PlainLength (requestHeaderLines strictOpts 1 chunkedRequest) :=
  httpRequestParse_framing_iff (by decide +kernel)

/-- A request whose length has a continuation line. -/
def foldedLengthRequest : Bytes :=
  str "POST /a HTTP/1.1\r\nHost: b\r\nContent-Length: 10\r\n 20\r\n\r\n"

/-- Ten bytes are read, and the Content-Length that is passed on is `10 20`. -/
theorem httpRequestParse_not_framing :
    Accepted (httpRequestParse .noAddress strictOpts 1 none (.reset true true)
        foldedLengthRequest) ∧
      ¬ FramingAgrees (requestHeaderLines strictOpts 1 foldedLengthRequest)
        (httpRequestParse .noAddress strictOpts 1 none (.reset true true)
          foldedLengthRequest).1 := by
  decide +kernel

end Lighttpd
