import Lighttpd.Etag
import Lighttpd.RequestHeaders

/-!
# Conditional requests

`http_response_handle_cachable` answers a request whose `If-None-Match` or `If-Modified-Since` says
that the client has the file. The date of `If-Modified-Since` is compared with that of the file up to
its own length first; where it is shorter, the function says that it is finished without having set a
status (`httpResponseHandleCachable_answers_iff`).
-/

namespace Lighttpd

open CString

/-- What the C library knows of times: a `struct tm` is filled from a date in the format of the
headers, which may fail, is taken not to be in daylight saving time, and made a `time_t`. -/
structure TimeLib (Tm : Type) where
  strptime : Bytes → Tm → Bool × Tm
  clearDst : Tm → Tm
  mktime : Tm → ℤ × Tm

/-- What the function reads of a request, and the tag of the file. -/
structure CachableRequest where
  httpMethod : HttpMethod
  etag : Buffer
  ifNoneMatch : Option Bytes
  ifModifiedSince : Option Bytes

/-- What it may set; `direct` is `mode == DIRECT`. -/
structure CachableCon where
  httpStatus : ℕ
  direct : Bool
  deriving DecidableEq, Repr

/-- `handler_t`, as far as the function returns it. -/
inductive CachableRc
  | goOn
  | finished
  deriving DecidableEq, Repr

/-- `head_or_get` -/
def CachableRequest.headOrGet (req : CachableRequest) : Bool :=
  req.httpMethod = .get ∨ req.httpMethod = .head

/-- `sizeof("Sat, 23 Jul 2005 21:20:01 GMT")` -/
def dateSize : ℕ := 30

/-- The length of `If-Modified-Since` without its parameters. -/
def usedLen (ims : Bytes) : ℕ := (strchr ims 59).getD (cstr ims).length

/-- `http_response_handle_cachable`; `tm` is what the variable of that name holds before. -/
def httpResponseHandleCachable {Tm : Type} (lib : TimeLib Tm) (tm : Tm) (req : CachableRequest)
    (mtime : Bytes) (con : CachableCon) : CachableRc × CachableCon :=
  match req.ifNoneMatch with
  | some noneMatch =>
    -- strong comparison, as weak tags are not for ranges
    if etagIsEqual req.etag noneMatch false then
      if req.headOrGet then (.finished, { con with httpStatus := 304 })
      else (.finished, { con with httpStatus := 412, direct := true })
    else (.goOn, con)
  | none =>
    match req.ifModifiedSince with
    | none => (.goOn, con)
    | some ims =>
      if ¬ req.headOrGet then (.goOn, con)
      else if (cstr ims).take (usedLen ims) = (cstr mtime).take (usedLen ims) then
        (.finished,
          if (cstr mtime).length = usedLen ims then { con with httpStatus := 304 } else con)
      else if usedLen ims ≥ dateSize then (.goOn, con)
      else
        let t := lib.strptime ((cstr ims).take (usedLen ims)) tm
        if ¬ t.1 then (.goOn, con)
        else
          let header := lib.mktime (lib.clearDst t.2)
          let file := lib.mktime (lib.clearDst (lib.strptime (cstr mtime) header.2).2)
          if file.1 > header.1 then (.goOn, con)
          else (.finished, { con with httpStatus := 304 })

/-! ## When the answer has a status -/

/-- The date of `If-Modified-Since`, without parameters. -/
def imsDate (ims : Bytes) : Bytes := (cstr ims).take (usedLen ims)

theorem length_imsDate (ims : Bytes) : (imsDate ims).length = usedLen ims := by
  rw [imsDate, List.length_take, min_eq_left]
  unfold usedLen
  cases h : strchr ims 59 with
  | none => exact le_rfl
  | some i => exact (Nat.le_add_right i _).trans (search_add_length_le h)

theorem imsDate_isPrefix_iff {ims mtime : Bytes} :
    (cstr ims).take (usedLen ims) = (cstr mtime).take (usedLen ims) ↔
      imsDate ims <+: cstr mtime := by
  rw [List.prefix_iff_eq_take, length_imsDate]
  rfl

/-- A request that is finished has a status that says why, one that goes on has the status it had, and
`If-Modified-Since` is for requests without `If-None-Match`. -/
structure AnswersConditional {Tm : Type} (lib : TimeLib Tm) (tm : Tm) (req : CachableRequest)
    (mtime : Bytes) : Prop where
  finished : ∀ con, (httpResponseHandleCachable lib tm req mtime con).1 = .finished →
    (httpResponseHandleCachable lib tm req mtime con).2.httpStatus = 304 ∧ req.headOrGet = true ∨
      (httpResponseHandleCachable lib tm req mtime con).2.httpStatus = 412 ∧
        req.headOrGet = false ∧
        ∃ noneMatch, req.ifNoneMatch = some noneMatch ∧ etagIsEqual req.etag noneMatch false = true
  goOn : ∀ con, (httpResponseHandleCachable lib tm req mtime con).1 = .goOn →
    (httpResponseHandleCachable lib tm req mtime con).2 = con
  noneMatch : ∀ noneMatch, req.ifNoneMatch = some noneMatch →
    etagIsEqual req.etag noneMatch false = false → ∀ ims con,
      httpResponseHandleCachable lib tm { req with ifModifiedSince := ims } mtime con =
        httpResponseHandleCachable lib tm req mtime con

/-- Only the date of `If-Modified-Since` decides, and it is the beginning of that of the file. -/
def CachableRequest.DatePrefix (req : CachableRequest) (mtime : Bytes) : Prop :=
  req.ifNoneMatch = none ∧ req.headOrGet = true ∧
    ∃ ims, req.ifModifiedSince = some ims ∧ imsDate ims <+: cstr mtime ∧
      imsDate ims ≠ cstr mtime

variable {Tm : Type} {lib : TimeLib Tm} {tm : Tm} {req : CachableRequest} {mtime : Bytes}

theorem answersConditional_of_noneMatch {noneMatch : Bytes}
    (h : req.ifNoneMatch = some noneMatch) : AnswersConditional lib tm req mtime := by
  have hstep : ∀ ims con, httpResponseHandleCachable lib tm { req with ifModifiedSince := ims }
      mtime con =
        if etagIsEqual req.etag noneMatch false then
          if req.headOrGet then (.finished, { con with httpStatus := 304 })
          else (.finished, { con with httpStatus := 412, direct := true })
        else (.goOn, con) := by
    intro ims con
    rw [httpResponseHandleCachable, h]
    rfl
  have hself : ∀ con, httpResponseHandleCachable lib tm req mtime con = _ :=
    hstep req.ifModifiedSince
  refine ⟨?_, ?_, ?_⟩
  · intro con
    rw [hself]
    split_ifs with hmatch hmethod
    · exact fun _ => .inl ⟨rfl, hmethod⟩
    · exact fun _ => .inr ⟨rfl, by simpa using hmethod, noneMatch, h, hmatch⟩
    · exact fun h => nomatch h
  · intro con
    rw [hself]
    split_ifs
    · exact fun h => nomatch h
    · exact fun h => nomatch h
    · exact fun _ => rfl
  · intro _ _ _ ims con
    rw [hstep, hself]

/-- Without a status the function is finished where a date is compared by its beginning alone. -/
theorem httpResponseHandleCachable_date (h : req.ifNoneMatch = none) (con : CachableCon) :
    httpResponseHandleCachable lib tm req mtime con = (.goOn, con) ∨
      httpResponseHandleCachable lib tm req mtime con =
          (.finished, { con with httpStatus := 304 }) ∧ req.headOrGet = true ∨
        httpResponseHandleCachable lib tm req mtime con = (.finished, con) ∧
          req.DatePrefix mtime := by
  rw [httpResponseHandleCachable, h]
  dsimp only
  cases hims : req.ifModifiedSince with
  | none => exact .inl rfl
  | some ims =>
    dsimp only
    by_cases hmethod : req.headOrGet = true
    · rw [if_neg (not_not.mpr hmethod)]
      by_cases hprefix : (cstr ims).take (usedLen ims) = (cstr mtime).take (usedLen ims)
      · rw [if_pos hprefix]
        by_cases hlen : (cstr mtime).length = usedLen ims
        · rw [if_pos hlen]
          exact .inr (.inl ⟨rfl, hmethod⟩)
        · rw [if_neg hlen]
          refine .inr (.inr ⟨rfl, h, hmethod, ims, hims, imsDate_isPrefix_iff.mp hprefix, ?_⟩)
          intro heq
          exact hlen (by rw [← heq, length_imsDate])
      · rw [if_neg hprefix]
        split_ifs
        all_goals first
          | exact .inl rfl
          | exact .inr (.inl ⟨rfl, hmethod⟩)
    · rw [if_pos hmethod]
      exact .inl rfl

/-- Where the date is only the beginning of that of the file, the function is finished and the status
is what it was. -/
theorem httpResponseHandleCachable_datePrefix (h : req.DatePrefix mtime) (con : CachableCon) :
    httpResponseHandleCachable lib tm req mtime con = (.finished, con) := by
  obtain ⟨hnone, hmethod, ims, hims, hstarts, hne⟩ := h
  rw [httpResponseHandleCachable, hnone, hims]
  dsimp only
  rw [if_neg (not_not.mpr hmethod), if_pos (imsDate_isPrefix_iff.mpr hstarts), if_neg]
  intro hlen
  rw [← length_imsDate] at hlen
  exact hne (hstarts.eq_of_length hlen.symm)

/-- The function meets its contract except where the date decides and is a proper beginning of that
of the file. -/
theorem httpResponseHandleCachable_answers_iff (lib : TimeLib Tm) (tm : Tm)
    (req : CachableRequest) (mtime : Bytes) :
    AnswersConditional lib tm req mtime ↔ ¬ req.DatePrefix mtime := by
  constructor
  · intro hanswers hprefix
    have hfinished := hanswers.finished ⟨0, true⟩
    rw [httpResponseHandleCachable_datePrefix hprefix] at hfinished
    rcases hfinished rfl with ⟨hstatus, -⟩ | ⟨hstatus, -⟩ <;> cases hstatus
  · intro hprefix
    cases hnone : req.ifNoneMatch with
    | some noneMatch => exact answersConditional_of_noneMatch hnone
    | none =>
      refine ⟨?_, ?_, ?_⟩
      · intro con hfinished
        rcases @httpResponseHandleCachable_date _ lib tm _ mtime hnone con
          with heq | ⟨heq, hmethod⟩ | ⟨-, hdate⟩
        · rw [heq] at hfinished
          cases hfinished
        · rw [heq]
          exact .inl ⟨rfl, hmethod⟩
        · exact absurd hdate hprefix
      · intro con hgoOn
        rcases @httpResponseHandleCachable_date _ lib tm _ mtime hnone con
          with heq | ⟨heq, -⟩ | ⟨heq, -⟩
        · rw [heq]
        · rw [heq] at hgoOn
          cases hgoOn
        · rw [heq]
      · intro noneMatch hsome
        rw [hnone] at hsome
        cases hsome

/-- `If-Modified-Since: ;` -/
theorem httpResponseHandleCachable_semicolon :
    ¬ ∀ (lib : TimeLib Unit) (tm : Unit) (req : CachableRequest) (mtime : Bytes),
      AnswersConditional lib tm req mtime := by
  intro h
  let lib : TimeLib Unit := ⟨fun _ _ => (false, ()), fun _ => (), fun _ => (-1, ())⟩
  have hanswers := (h lib () ⟨.get, none, none, some [59]⟩
    (str "Sat, 23 Jul 2005 21:20:01 GMT")).finished ⟨0, true⟩
  exact absurd hanswers (by decide)

end Lighttpd
