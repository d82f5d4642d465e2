import Lighttpd.Lib.ByteRanges
import Lighttpd.Buffer

/-!
# Range requests

`http_response_parse_range` goes through the ranges of a request and puts the parts of the file into
the write queue, as a multipart body when there is a comma behind a range.
-/

namespace Lighttpd

open CString ByteRanges

/-- What `http_request_parse` takes of the value of `Range`. -/
def httpRange (value : Bytes) : Option Bytes :=
  if strncaseeq value (str "bytes=") ∧ (strchr (value.drop 6) 45).isSome then some (value.drop 6)
  else none

/-- The value of a computation in an `off_t`. -/
def offT (z : ℤ) : ℤ := z.bmod (2 ^ 64)

/-- A computation that stays in the range of an `off_t`. -/
def FitsOffT (z : ℤ) : Prop := -2 ^ 63 ≤ z ∧ z < 2 ^ 63

/-- One turn of the loop: it fails, with the status 416 or without one, or finds a range, whether a
comma follows, and the rest of the text. -/
inductive RangeTurn
  | unsatisfiable
  | malformed
  | range (start stop : ℤ) (multi : Bool) (rest : Bytes)
  deriving DecidableEq, Repr

/-- The end of a range at `err`: the end of the text or a comma. -/
def rangeEnd (start stop : ℤ) (s : Bytes) (err : ℕ) : RangeTurn :=
  match s[err]? with
  | none => .range start stop false (s.drop err)
  | some c => if c = 44 then .range start stop true (s.drop (err + 1)) else .malformed

/-- How a turn reads a range in a file of `size` bytes; `minus` is where the first `-` is. -/
def rangeRead (size : ℤ) (s : Bytes) (minus : ℕ) : RangeTurn :=
  if minus = 0 then
    let le := strtol 10 s
    if le.1 = 0 then .unsatisfiable
    else rangeEnd (offT (size + le.1)) (size - 1) s le.2
  else if s[minus + 1]? = none ∨ s[minus + 1]? = some 44 then
    let la := strtol 10 s
    if la.2 = minus then rangeEnd la.1 (size - 1) s (la.2 + 1) else .malformed
  else
    let la := strtol 10 s
    if la.2 = minus then
      let le := strtol 10 (s.drop (minus + 1))
      if la.1 > le.1 then .malformed else rangeEnd la.1 le.1 s (minus + 1 + le.2)
    else .malformed

/-- A turn: the range is cut to the file. -/
def rangeTurn (size : ℤ) (s : Bytes) (minus : ℕ) : RangeTurn :=
  match rangeRead size s minus with
  | .range start stop multi rest =>
    let start := max start 0
    if start > size - 1 then .unsatisfiable
    else .range start (min stop (size - 1)) multi rest
  | r => r

/-- What a turn computes of the size and the number behind the first `-`. -/
def turnComputed (size : ℤ) (s : Bytes) (minus : ℕ) : List ℤ :=
  if minus = 0 then [size - 1, size + (strtol 10 s).1] else [size - 1]

/-! ## The queue -/

/-- What is appended to the queue: bytes, or a part of the file. -/
inductive RangeChunk
  | mem (s : Bytes)
  | file (start length : ℤ)
  deriving DecidableEq, Repr

/-- The bytes of a chunk. -/
def RangeChunk.length : RangeChunk → ℤ
  | .mem s => s.length
  | .file _ length => length

/-- `chunkqueue_append_buffer` -/
def appendMem (cq : List RangeChunk) (s : Bytes) : List RangeChunk :=
  if s = [] then cq else cq ++ [.mem s]

/-- `chunkqueue_append_file` -/
def appendFile (cq : List RangeChunk) (start length : ℤ) : List RangeChunk :=
  if length = 0 then cq else cq ++ [.file start length]

/-- The calls that set a header of the response. -/
inductive RangeHeader
  | overwrite (key value : Bytes)
  | insert (key value : Bytes)
  deriving DecidableEq, Repr

/-- What the function sets of a connection. -/
structure RangeCon where
  httpStatus : ℕ
  writeQueue : List RangeChunk
  contentLength : ℤ
  headers : List RangeHeader
  deriving DecidableEq, Repr

/-- The variables of the loop, and the values that were computed as an `off_t`. -/
structure RangeLoop where
  multipart : Bool
  start : ℤ
  stop : ℤ
  con : RangeCon
  computed : List ℤ
  deriving DecidableEq, Repr

/-- `boundary` -/
def boundary : Bytes := str "fkj49sn38dcn3"

/-- `buffer_append_int` -/
def bufferAppendInt (b : Bytes) (z : ℤ) : Bytes :=
  b ++ if z < 0 then 45 :: itostr z.natAbs else itostr z.natAbs

/-- `<start>-<end>/<size>` behind `b`. -/
def appendContentRange (b : Bytes) (start stop size : ℤ) : Bytes :=
  bufferAppendInt (bufferAppendInt (bufferAppendInt b start ++ str "-") stop ++ str "/") size

/-- The header of a part. -/
def partHeader (contentType : Bytes) (start stop size : ℤ) : Bytes :=
  appendContentRange (str "\r\n--" ++ boundary ++ str "\r\nContent-Range: bytes ") start stop
      size ++
    str "\r\nContent-Type: " ++ contentType ++ str "\r\n\r\n"

/-- What stands behind the last part. -/
def partEnd : Bytes := str "\r\n--" ++ boundary ++ str "--\r\n"

/-- `con->response.content_length += n` -/
def RangeLoop.addLength (v : RangeLoop) (n : ℤ) : RangeLoop :=
  { v with
    con := { v.con with contentLength := offT (v.con.contentLength + n) }
    computed := v.computed ++ [v.con.contentLength + n] }

/-- Bytes are appended to the queue and counted. -/
def RangeLoop.appendBuffer (v : RangeLoop) (b : Bytes) : RangeLoop :=
  let v := v.addLength b.length
  { v with con := { v.con with writeQueue := appendMem v.con.writeQueue b } }

/-- A part of the file is appended and counted. -/
def RangeLoop.appendPart (v : RangeLoop) : RangeLoop :=
  let length := offT (v.stop - v.start + 1)
  let v := { v with
    con := { v.con with writeQueue := appendFile v.con.writeQueue v.start length }
    computed := v.computed ++ [v.stop - v.start, v.stop - v.start + 1] }
  v.addLength length

/-- What a turn does with a range. -/
def RangeLoop.append (v : RangeLoop) (size : ℤ) (contentType : Bytes) (start stop : ℤ)
    (multi : Bool) : RangeLoop :=
  let v := { v with multipart := v.multipart || multi, start := start, stop := stop }
  let v := if v.multipart then v.appendBuffer (partHeader contentType start stop size) else v
  v.appendPart

/-- The loop: whether it ended without an error. -/
def rangeLoop (size : ℤ) (contentType : Bytes) : ℕ → RangeLoop → Bytes → Bool × RangeLoop
  | 0, v, _ => (true, v)
  | fuel + 1, v, s =>
    match strchr s 45 with
    | none => (true, v)
    | some minus =>
      let v := { v with computed := v.computed ++ turnComputed size s minus }
      match rangeTurn size s minus with
      | .unsatisfiable => (false, { v with con := { v.con with httpStatus := 416 } })
      | .malformed => (false, v)
      | .range start stop multi rest =>
        rangeLoop size contentType fuel (v.append size contentType start stop multi) rest

/-- `http_response_parse_range`: whether it returned zero, and the connection; `contentType` is the
value of the header of that name. -/
def httpResponseParseRange (size : ℤ) (range : Bytes) (contentType : Buffer) (con : RangeCon) :
    Bool × RangeLoop :=
  let v : RangeLoop := ⟨false, 0, size - 1, { con with contentLength := 0 }, [size - 1]⟩
  let r := rangeLoop size contentType.string (cstr range).length v (cstr range)
  if ¬ r.1 then (false, r.2)
  else if r.2.multipart then
    let v := r.2.appendBuffer partEnd
    let header := RangeHeader.overwrite (str "Content-Type")
      (str "multipart/byteranges; boundary=" ++ boundary)
    (true, { v with con := { v.con with headers := v.con.headers ++ [header] } })
  else
    let header := RangeHeader.insert (str "Content-Range")
      (appendContentRange (str "bytes ") r.2.start r.2.stop size)
    (true, { r.2 with con := { r.2.con with headers := r.2.con.headers ++ [header] } })

/-! ## A turn -/

theorem offT_of_fits {z : ℤ} (h : FitsOffT z) : offT z = z := by
  obtain ⟨hlo, hhi⟩ := h
  unfold offT
  rw [Int.bmod_eq_of_le] <;> omega

theorem rangeEnd_append (start stop : ℤ) (w : Bytes) :
    rangeEnd start stop w w.length = .range start stop false [] ∧
      ∀ rest, rangeEnd start stop (w ++ 44 :: rest) w.length = .range start stop true rest := by
  unfold rangeEnd
  constructor
  · simp
  · intro rest
    simp

/-- The text of a range and what follows it. -/
def EndsRange (s w : Bytes) (multi : Bool) (rest : Bytes) : Prop :=
  multi = false ∧ s = w ∧ rest = [] ∨ multi = true ∧ s = w ++ 44 :: rest

variable {s w rest range : Bytes} {multi : Bool} {start stop : ℤ} {n minus : ℕ} {r : RangeSpec}
  {v : RangeLoop} {rs : List RangeSpec}

theorem rangeEnd_of_endsRange (h : EndsRange s w multi rest) (start stop : ℤ) :
    rangeEnd start stop s w.length = .range start stop multi rest := by
  rcases h with ⟨rfl, rfl, rfl⟩ | ⟨rfl, rfl⟩
  · exact (rangeEnd_append start stop s).1
  · exact (rangeEnd_append start stop w).2 rest

theorem endsRange_of_rangeEnd {start' stop' : ℤ} {t : Bytes}
    (h : rangeEnd start stop (w ++ t) w.length = .range start' stop' multi rest) :
    start' = start ∧ stop' = stop ∧ EndsRange (w ++ t) w multi rest := by
  unfold rangeEnd at h
  rw [List.getElem?_append_right le_rfl, Nat.sub_self] at h
  cases t with
  | nil =>
    cases h
    exact ⟨rfl, rfl, .inl ⟨rfl, List.append_nil w, by simp⟩⟩
  | cons c t =>
    dsimp only [List.getElem?_cons_zero] at h
    split_ifs at h with hc
    cases h
    exact ⟨rfl, rfl, .inr ⟨rfl, by simp [hc]⟩⟩

theorem EndsRange.exists_append (h : EndsRange s w multi rest) : ∃ t, s = w ++ t ∧ StopsNumber t ∧
      (t = [] ∨ ∃ u, t = 44 :: u) := by
  rcases h with ⟨-, rfl, -⟩ | ⟨-, rfl⟩
  · exact ⟨[], by simp, by simp [StopsNumber], .inl rfl⟩
  · refine ⟨44 :: rest, rfl, ?_, .inr ⟨rest, rfl⟩⟩
    rintro c ⟨⟩
    decide

/-- Where a range starts and stops, before it is cut to the file. -/
def readBounds (n : ℕ) : RangeSpec → ℤ × ℤ
  | .suffix k => (n + saturate64 (-k), n - 1)
  | .start a => (saturate64 a, n - 1)
  | .span a b => (saturate64 a, saturate64 b)

/-- The range is read without an error. -/
def Readable : RangeSpec → Prop
  | .suffix k => k ≠ 0
  | .start _ => True
  | .span a b => saturate64 a ≤ saturate64 b

theorem satisfiable_iff_readable (hn : n < 2 ^ 63) :
    r.Satisfiable n ↔ Readable r ∧ max (readBounds n r).1 0 ≤ (n : ℤ) - 1 := by
  cases r <;> simp only [RangeSpec.Satisfiable, Readable, readBounds, saturate64, true_and] <;>
    omega

theorem clamp_eq_readBounds (hn : n < 2 ^ 63) (h : r.Satisfiable n) :
    max (readBounds n r).1 0 = (r.clamp n).1 ∧
      min (readBounds n r).2 ((n : ℤ) - 1) = (r.clamp n).2 := by
  cases r <;> simp only [RangeSpec.Satisfiable] at h <;>
    simp only [readBounds, RangeSpec.clamp, saturate64] <;> omega

theorem rangeRead_of_specText (hn : n < 2 ^ 63) (hspec : SpecText w r) (hr : Readable r)
    (hend : EndsRange s w multi rest) (h0 : 0 ∉ s) :
    ∃ minus, strchr s 45 = some minus ∧
      rangeRead n s minus = .range (readBounds n r).1 (readBounds n r).2 multi rest := by
  obtain ⟨t, rfl, hstop, hcomma⟩ := hend.exists_append
  cases hspec with
  | @suffix ds hds =>
    have hread := (Spells.minus hds).strtol_eq hstop
    have hk : ofDigits 10 ds ≠ 0 := hr
    have hne : saturate64 (-(ofDigits 10 ds : ℤ)) ≠ 0 := by
      unfold saturate64
      omega
    have hfits : offT (n + saturate64 (-(ofDigits 10 ds : ℤ))) =
        n + saturate64 (-(ofDigits 10 ds : ℤ)) := by
      refine offT_of_fits ⟨?_, ?_⟩ <;> unfold saturate64 <;> omega
    refine ⟨0, strchr_append_cons (u := []) (by simp) (by simp) (by decide) _, ?_⟩
    rw [rangeRead, if_pos rfl, hread]
    dsimp only
    rw [if_neg hne, hfits]
    exact rangeEnd_of_endsRange hend _ _
  | @start w a hw h45 =>
    have h0w : 0 ∉ w := fun h => h0 (by simp [h])
    have hstop' : StopsNumber (45 :: t) := by
      rintro c ⟨⟩
      decide
    have hread := hw.strtol_eq hstop'
    have hwpos := List.length_pos_iff.mpr hw.ne_nil
    have hshape : w ++ [45] ++ t = w ++ 45 :: t := by simp
    have hnext : (w ++ [45] ++ t)[w.length + 1]? = none ∨
        (w ++ [45] ++ t)[w.length + 1]? = some 44 := by
      rw [List.getElem?_append_right (by simp)]
      rcases hcomma with rfl | ⟨u, rfl⟩ <;> simp
    refine ⟨w.length, ?_, ?_⟩
    · rw [hshape]
      exact strchr_append_cons h45 h0w (by decide) t
    · rw [rangeRead, if_neg (by omega), if_pos hnext, hshape, hread]
      dsimp only
      rw [if_pos rfl, ← hshape]
      have hendAt := rangeEnd_of_endsRange hend (saturate64 a) (n - 1)
      rwa [List.length_append] at hendAt
  | @span w v a b hw h45 hv =>
    have h0w : 0 ∉ w := fun h => h0 (by simp [h])
    have hstop' : StopsNumber (45 :: (v ++ t)) := by
      rintro c ⟨⟩
      decide
    have hread := hw.strtol_eq hstop'
    have hreadv := hv.strtol_eq hstop
    have hwpos := List.length_pos_iff.mpr hw.ne_nil
    have hshape : w ++ 45 :: v ++ t = w ++ 45 :: (v ++ t) := by simp
    obtain ⟨c, u, rfl⟩ := List.exists_cons_of_ne_nil hv.ne_nil
    have hc : c ≠ 44 := fun h => notMem_comma_of_spells hv (h ▸ List.mem_cons_self)
    have hnext : ¬ ((w ++ 45 :: c :: u ++ t)[w.length + 1]? = none ∨
        (w ++ 45 :: c :: u ++ t)[w.length + 1]? = some 44) := by
      rw [hshape, List.getElem?_append_right (by omega)]
      simpa using hc
    have hdrop : (w ++ 45 :: c :: u ++ t).drop (w.length + 1) = c :: u ++ t := by
      rw [hshape, List.drop_append]
      simp
    refine ⟨w.length, ?_, ?_⟩
    · rw [hshape]
      exact strchr_append_cons h45 h0w (by decide) _
    · rw [rangeRead, if_neg (by omega), if_neg hnext, hdrop, hreadv, hshape, hread]
      dsimp only
      rw [if_pos rfl, if_neg (not_lt.mpr hr), ← hshape]
      have hendAt := rangeEnd_of_endsRange hend (saturate64 a) (saturate64 b)
      have hlen : (w ++ 45 :: c :: u).length = w.length + 1 + (c :: u).length := by
        simp only [List.length_append, List.length_cons]
        omega
      rwa [hlen] at hendAt

theorem exists_specText_of_rangeRead (hn : n < 2 ^ 63) (hminus : strchr s 45 = some minus)
    (h : rangeRead n s minus = .range start stop multi rest) :
    ∃ w r, SpecText w r ∧ Readable r ∧ EndsRange s w multi rest ∧
      start = (readBounds n r).1 ∧ stop = (readBounds n r).2 := by
  obtain ⟨u, v, rfl, rfl, hu45, hu0⟩ := strchr_eq_some hminus
  unfold rangeRead at h
  by_cases hnil : u.length = 0
  · -- the last bytes
    obtain rfl := List.length_eq_zero_iff.mp hnil
    rw [if_pos List.length_nil, List.nil_append] at h
    dsimp only at h
    split_ifs at h with hzero
    obtain ⟨w, t, z, hs, hw, -, hnum⟩ := exists_spells_of_strtol (s := 45 :: v)
      fun h => hzero (strtol_eq_zero h)
    rw [hnum] at h hzero
    rw [List.nil_append]
    have hhead : w.head? = some 45 := by
      obtain ⟨c, w', rfl⟩ := List.exists_cons_of_ne_nil hw.ne_nil
      rw [(List.cons.inj hs).1]
      rfl
    obtain ⟨ds, rfl, hds, rfl⟩ := hw.exists_digits hhead
    have hk : ofDigits 10 ds ≠ 0 := by
      unfold saturate64 at hzero
      omega
    have hfits : offT (n + saturate64 (-(ofDigits 10 ds : ℤ))) =
        n + saturate64 (-(ofDigits 10 ds : ℤ)) := by
      refine offT_of_fits ⟨?_, ?_⟩ <;> unfold saturate64 <;> omega
    rw [hs] at h ⊢
    obtain ⟨hstart, hstop, hend⟩ := endsRange_of_rangeEnd h
    exact ⟨_, _, .suffix hds, hk, hend, hstart.trans hfits, hstop⟩
  · rw [if_neg hnil] at h
    by_cases hnext : (u ++ 45 :: v)[u.length + 1]? = none ∨ (u ++ 45 :: v)[u.length + 1]? = some 44
    · -- the bytes from one on
      rw [if_pos hnext] at h
      dsimp only at h
      split_ifs at h with hstop
      obtain ⟨w, t, z, hs, hw, -, hnum⟩ := exists_spells_of_strtol (s := u ++ 45 :: v)
        (by rw [hstop]; exact hnil)
      have hlen : w.length = u.length := by rw [← hstop, hnum]
      obtain ⟨rfl, rfl⟩ := List.append_inj hs.symm hlen
      obtain ⟨a, rfl⟩ := hw.exists_nat hu45
      rw [hnum] at h
      have hshape : w ++ 45 :: v = w ++ [45] ++ v := by simp
      have hlen' : w.length + 1 = (w ++ [45]).length := by simp
      rw [hshape, hlen'] at h
      rw [hshape]
      obtain ⟨hstart, hstop, hend⟩ := endsRange_of_rangeEnd h
      exact ⟨_, _, .start hw hu45, trivial, hend, hstart, hstop⟩
    · -- the bytes from one to another
      rw [if_neg hnext] at h
      dsimp only at h
      split_ifs at h with hstop hlt
      obtain ⟨w, t, z, hs, hw, -, hnum⟩ := exists_spells_of_strtol (s := u ++ 45 :: v)
        (by rw [hstop]; exact hnil)
      have hlen : w.length = u.length := by rw [← hstop, hnum]
      obtain ⟨rfl, rfl⟩ := List.append_inj hs.symm hlen
      obtain ⟨a, rfl⟩ := hw.exists_nat hu45
      have hdrop : (w ++ 45 :: v).drop (w.length + 1) = v := by
        rw [List.drop_append]
        simp
      simp only [hnum, hdrop] at h hlt
      have hread : (strtol 10 v).2 ≠ 0 := by
        intro hzero
        rw [hzero, Nat.add_zero] at h
        cases hend : (w ++ 45 :: v)[w.length + 1]? with
        | none => exact hnext (.inl hend)
        | some c =>
          rw [rangeEnd, hend] at h
          dsimp only at h
          split_ifs at h with hc
          exact hnext (.inr (by rw [hend, hc]))
      obtain ⟨x, t', y, hv, hx, -, hnum'⟩ := exists_spells_of_strtol hread
      rw [hnum'] at h hlt
      have hshape : w ++ 45 :: v = w ++ 45 :: x ++ t' := by rw [hv]; simp
      have hlen' : w.length + 1 + x.length = (w ++ 45 :: x).length := by
        simp only [List.length_append, List.length_cons]
        omega
      dsimp only at h hlt
      rw [hshape, hlen'] at h
      rw [hshape]
      obtain ⟨hstart, hstop, hend⟩ := endsRange_of_rangeEnd h
      obtain ⟨b, rfl⟩ : ∃ b : ℕ, y = b := by
        refine Int.eq_ofNat_of_zero_le ?_
        unfold saturate64 at hlt
        omega
      exact ⟨_, _, .span hw hu45 hx, not_lt.mp hlt, hend, hstart, hstop⟩

/-- A range that is satisfiable is found, and cut to the file. -/
theorem rangeTurn_of_specText (hn : n < 2 ^ 63) (hspec : SpecText w r) (hsat : r.Satisfiable n)
    (hend : EndsRange s w multi rest) (h0 : 0 ∉ s) :
    ∃ minus, strchr s 45 = some minus ∧
      rangeTurn n s minus = .range (r.clamp n).1 (r.clamp n).2 multi rest := by
  obtain ⟨hr, hlt⟩ := (satisfiable_iff_readable hn).mp hsat
  obtain ⟨minus, hminus, hread⟩ := rangeRead_of_specText hn hspec hr hend h0
  obtain ⟨hstart, hstop⟩ := clamp_eq_readBounds hn hsat
  refine ⟨minus, hminus, ?_⟩
  rw [rangeTurn, hread]
  dsimp only
  rw [if_neg (not_lt.mpr hlt), hstart, hstop]

theorem exists_specText_of_rangeTurn (hn : n < 2 ^ 63) (hminus : strchr s 45 = some minus)
    (h : rangeTurn n s minus = .range start stop multi rest) :
    ∃ w r, SpecText w r ∧ r.Satisfiable n ∧ EndsRange s w multi rest := by
  unfold rangeTurn at h
  cases hread : rangeRead n s minus with
  | unsatisfiable =>
    rw [hread] at h
    cases h
  | malformed =>
    rw [hread] at h
    cases h
  | range start' stop' multi' rest' =>
    rw [hread] at h
    dsimp only at h
    split_ifs at h with hlt
    cases h
    obtain ⟨w, r, hspec, hr, hend, hstart, -⟩ := exists_specText_of_rangeRead hn hminus hread
    rw [hstart] at hlt
    exact ⟨w, r, hspec, (satisfiable_iff_readable hn).mpr ⟨hr, not_lt.mp hlt⟩, hend⟩

/-! ## What is appended -/

/-- No computation left the range of an `off_t`. -/
def RangeLoop.Fits (v : RangeLoop) : Prop := ∀ z ∈ v.computed, FitsOffT z

/-- `content_length` is the number of bytes `c`, as long as it fits. -/
structure Counts (v : RangeLoop) (c : ℤ) : Prop where
  nonneg : 0 ≤ c
  fits : v.Fits ↔ c < 2 ^ 63
  eq : c < 2 ^ 63 → v.con.contentLength = c

/-- What was appended on the way from one state to another. -/
structure RangesAppended (v v' : RangeLoop) (chunks : List RangeChunk) : Prop where
  queue : v'.con.writeQueue = v.con.writeQueue ++ chunks
  status : v'.con.httpStatus = v.con.httpStatus
  headers : v'.con.headers = v.con.headers
  counts : ∀ c, Counts v c → Counts v' (c + (chunks.map RangeChunk.length).sum)

theorem RangesAppended.refl (v : RangeLoop) : RangesAppended v v [] := by
  refine ⟨by simp, rfl, rfl, fun c hc => ?_⟩
  simpa using hc

theorem RangesAppended.trans {v v' v'' : RangeLoop} {cs cs' : List RangeChunk}
    (h : RangesAppended v v' cs) (h' : RangesAppended v' v'' cs') :
    RangesAppended v v'' (cs ++ cs') := by
  refine ⟨?_, h'.status.trans h.status, h'.headers.trans h.headers, fun c hc => ?_⟩
  · rw [h'.queue, h.queue, List.append_assoc]
  · rw [List.map_append, List.sum_append, ← add_assoc]
    exact h'.counts _ (h.counts c hc)

theorem Counts.addLength {c : ℤ} (h : Counts v c) {x : ℤ} (hx : 0 ≤ x) :
    Counts (v.addLength x) (c + x) := by
  have hc := h.nonneg
  have hfits : (v.addLength x).Fits ↔ v.Fits ∧ FitsOffT (v.con.contentLength + x) := by
    simp [RangeLoop.Fits, RangeLoop.addLength, or_imp, forall_and]
  refine ⟨by omega, ?_, fun hlt => ?_⟩
  · rw [hfits, h.fits]
    constructor
    · rintro ⟨hlt, -, hsum⟩
      rwa [h.eq hlt] at hsum
    · intro hlt
      rw [h.eq (by omega)]
      exact ⟨by omega, by omega, hlt⟩
  · change offT (v.con.contentLength + x) = c + x
    rw [h.eq (by omega)]
    exact offT_of_fits ⟨by omega, hlt⟩

theorem Counts.compute {c : ℤ} (h : Counts v c) {zs : List ℤ} (hzs : ∀ z ∈ zs, FitsOffT z)
    (queue : List RangeChunk) :
    Counts { v with con := { v.con with writeQueue := queue }, computed := v.computed ++ zs }
      c := by
  refine ⟨h.nonneg, ?_, h.eq⟩
  rw [← h.fits]
  simp only [RangeLoop.Fits, List.mem_append, or_imp, forall_and]
  exact and_iff_left hzs

theorem appended_appendBuffer (v : RangeLoop) {b : Bytes} (hb : b ≠ []) :
    RangesAppended v (v.appendBuffer b) [.mem b] := by
  refine ⟨?_, rfl, rfl, fun c hc => ?_⟩
  · exact if_neg hb
  · have hadd := hc.addLength (Int.natCast_nonneg b.length)
    have hlen : ([RangeChunk.mem b].map RangeChunk.length).sum = (b.length : ℤ) := by
      simp [RangeChunk.length]
    rw [hlen]
    exact ⟨hadd.nonneg, hadd.fits, hadd.eq⟩

theorem appended_appendPart {first last : ℕ} (hn : n < 2 ^ 63) (hle : first ≤ last) (hlt : last < n)
    (hstart : v.start = first) (hstop : v.stop = last) :
    RangesAppended v v.appendPart [.file first (last - first + 1)] := by
  have hlength : offT (v.stop - v.start + 1) = (last : ℤ) - first + 1 := by
    rw [hstart, hstop]
    exact offT_of_fits ⟨by omega, by omega⟩
  have hpos : (last : ℤ) - first + 1 ≠ 0 := by omega
  refine ⟨?_, rfl, rfl, fun c hc => ?_⟩
  · have hqueue : v.appendPart.con.writeQueue =
        appendFile v.con.writeQueue v.start (offT (v.stop - v.start + 1)) := rfl
    rw [hqueue, hlength, hstart, appendFile, if_neg hpos]
  · have hfits : ∀ z ∈ [v.stop - v.start, v.stop - v.start + 1], FitsOffT z := by
      intro z hz
      simp only [List.mem_cons, List.not_mem_nil, or_false, hstart, hstop] at hz
      rcases hz with rfl | rfl <;> constructor <;> omega
    have hadd := (hc.compute hfits (appendFile v.con.writeQueue v.start
      (last - first + 1))).addLength (show 0 ≤ (last : ℤ) - first + 1 by omega)
    have hlen : ([RangeChunk.file first (last - first + 1)].map RangeChunk.length).sum =
        (last : ℤ) - first + 1 := by
      simp [RangeChunk.length]
    rw [hlen, RangeLoop.appendPart, hlength]
    exact hadd

/-- The chunks of a range: the part of the file, behind its header in a multipart body. -/
def rangeChunks (n : ℕ) (contentType : Bytes) (multi : Bool) (r : RangeSpec) : List RangeChunk :=
  (if multi then [.mem (partHeader contentType (r.clamp n).1 (r.clamp n).2 n)] else []) ++
    [.file (r.clamp n).1 ((r.clamp n).2 - (r.clamp n).1 + 1)]

theorem partHeader_ne_nil (contentType : Bytes) (start stop size : ℤ) :
    partHeader contentType start stop size ≠ [] := by
  simp [partHeader, str]

/-- The loop is at the range `r`. -/
structure AtRange (v : RangeLoop) (n : ℕ) (r : RangeSpec) : Prop where
  start : v.start = (r.clamp n).1
  stop : v.stop = (r.clamp n).2

theorem appended_append (hn : n < 2 ^ 63) (hsat : r.Satisfiable n) (v : RangeLoop)
    (contentType : Bytes) (multi : Bool) {v' : RangeLoop}
    (hv' : v' = v.append n contentType (r.clamp n).1 (r.clamp n).2 multi) :
    RangesAppended v v' (rangeChunks n contentType (v.multipart || multi) r) ∧
      v'.multipart = (v.multipart || multi) ∧ AtRange v' n r := by
  obtain ⟨hle, hlt⟩ := RangeSpec.clamp_bounds hsat
  let u : RangeLoop := ⟨v.multipart || multi, (r.clamp n).1, (r.clamp n).2, v.con, v.computed⟩
  have hu : RangesAppended v u [] := by
    refine ⟨by simp [u], rfl, rfl, fun c hc => ?_⟩
    rw [List.map_nil, List.sum_nil, add_zero]
    exact ⟨hc.nonneg, hc.fits, hc.eq⟩
  subst hv'
  have hform : v.append n contentType (r.clamp n).1 (r.clamp n).2 multi =
      (if u.multipart then u.appendBuffer (partHeader contentType u.start u.stop n)
        else u).appendPart := rfl
  rw [hform, rangeChunks]
  split_ifs with hm
  · have hheader := appended_appendBuffer u (partHeader_ne_nil contentType u.start u.stop n)
    exact ⟨hu.trans (hheader.trans (appended_appendPart hn hle hlt rfl rfl)), rfl, rfl, rfl⟩
  · exact ⟨hu.trans (appended_appendPart hn hle hlt rfl rfl), rfl, rfl, rfl⟩

/-- The number behind the first `-` is not positive, so that the sum with the size fits. -/
theorem fitsOffT_of_mem_turnComputed (hn : n < 2 ^ 63) (hminus : strchr s 45 = some minus) :
    ∀ z ∈ turnComputed n s minus, FitsOffT z := by
  obtain ⟨u, v, rfl, rfl, -, -⟩ := strchr_eq_some hminus
  intro z hz
  unfold turnComputed at hz
  have hsize : FitsOffT ((n : ℤ) - 1) := ⟨by omega, by omega⟩
  split_ifs at hz with hnil
  · obtain rfl := List.length_eq_zero_iff.mp hnil
    simp only [List.nil_append, List.mem_cons, List.not_mem_nil, or_false] at hz
    rcases hz with rfl | rfl
    · exact hsize
    · by_cases hzero : (strtol 10 (45 :: v)).2 = 0
      · rw [strtol_eq_zero hzero]
        exact ⟨by omega, by omega⟩
      · obtain ⟨w, t, z, hs, hw, -, hnum⟩ := exists_spells_of_strtol hzero
        obtain ⟨c, w', rfl⟩ := List.exists_cons_of_ne_nil hw.ne_nil
        obtain ⟨ds, -, -, rfl⟩ := hw.exists_digits (by rw [(List.cons.inj hs).1]; rfl)
        have hbounds := saturate64_bounds (-(ofDigits 10 ds : ℤ))
        have hle : saturate64 (-(ofDigits 10 ds : ℤ)) ≤ 0 := by
          unfold saturate64
          omega
        rw [hnum]
        exact ⟨by dsimp only; omega, by dsimp only; omega⟩
  · obtain rfl := List.mem_singleton.mp hz
    exact hsize

/-- What the loop has done to `v` behind the ranges `rs` of the text `s`. -/
structure RangesRun (n : ℕ) (contentType : Bytes) (v : RangeLoop) (s : Bytes) (rs : List RangeSpec)
    (v' : RangeLoop) : Prop where
  appended : RangesAppended v v'
    (rs.flatMap (rangeChunks n contentType (v.multipart || decide (44 ∈ s))))
  multipart : rs ≠ [] → v'.multipart = (v.multipart || decide (44 ∈ s))
  last : ∀ r, rs.getLast? = some r → AtRange v' n r
  unchanged : rs = [] → v' = v

theorem RangesRun.nil (n : ℕ) (contentType : Bytes) (v : RangeLoop) (s : Bytes) :
    RangesRun n contentType v s [] v :=
  ⟨RangesAppended.refl v, fun h => absurd rfl h, fun _ h => (by cases h), fun _ => rfl⟩

theorem rangeLoop_of_notMem (h : 45 ∉ s) (size : ℤ) (contentType : Bytes) (fuel : ℕ) (v : RangeLoop) :
    rangeLoop size contentType fuel v s = (true, v) := by
  cases fuel with
  | zero => rfl
  | succ fuel => rw [rangeLoop, strchr_of_notMem h]

theorem exists_rangeLoop_turn (hn : n < 2 ^ 63) (hspec : SpecText w r) (hsat : r.Satisfiable n)
    (hend : EndsRange s w multi rest) (h0 : 0 ∉ s) (contentType : Bytes) (v : RangeLoop) :
    ∃ v', (∀ fuel, rangeLoop n contentType (fuel + 1) v s =
        rangeLoop n contentType fuel v' rest) ∧
      RangesAppended v v' (rangeChunks n contentType (v.multipart || multi) r) ∧
      v'.multipart = (v.multipart || multi) ∧ AtRange v' n r := by
  obtain ⟨minus, hminus, hturn⟩ := rangeTurn_of_specText hn hspec hsat hend h0
  let u : RangeLoop := { v with computed := v.computed ++ turnComputed n s minus }
  have hu : RangesAppended v u [] := by
    refine ⟨by simp [u], rfl, rfl, fun c hc => ?_⟩
    rw [List.map_nil, List.sum_nil, add_zero]
    exact hc.compute (fitsOffT_of_mem_turnComputed hn hminus) v.con.writeQueue
  obtain ⟨happended, hmultipart, hat⟩ := appended_append hn hsat u contentType multi rfl
  refine ⟨_, fun fuel => ?_, hu.trans happended, hmultipart, hat⟩
  rw [rangeLoop, hminus]
  dsimp only
  rw [hturn]

/-- The loop goes through a list of ranges that are all satisfiable. -/
theorem rangeLoop_of_rangeText (hn : n < 2 ^ 63) (htext : RangeText s rs)
    (hsat : ∀ r ∈ rs, r.Satisfiable n) (h0 : 0 ∉ s) {fuel : ℕ} (hfuel : s.length ≤ fuel)
    (contentType : Bytes) (v : RangeLoop) :
    ∃ v', rangeLoop n contentType fuel v s = (true, v') ∧
      RangesRun n contentType v s rs v' := by
  induction htext generalizing fuel v with
  | @stop t ht => exact ⟨v, rangeLoop_of_notMem ht n contentType fuel v, .nil n contentType v t⟩
  | @last w r hspec =>
    have hpos := List.length_pos_of_mem hspec.mem_minus
    obtain ⟨fuel, rfl⟩ := Nat.exists_eq_add_of_le' (show 1 ≤ fuel by omega)
    have hend : EndsRange w w false [] := .inl ⟨rfl, rfl, rfl⟩
    obtain ⟨v', hloop, happended, hmultipart, hat⟩ := exists_rangeLoop_turn hn hspec
      (hsat r List.mem_cons_self) hend h0 contentType v
    have hcomma : decide (44 ∈ w) = false := decide_eq_false hspec.notMem_comma
    refine ⟨v', ?_, ?_, fun _ => ?_, ?_, fun h => by cases h⟩
    · rw [hloop]
      exact rangeLoop_of_notMem List.not_mem_nil n contentType fuel v'
    · rwa [hcomma, List.flatMap_singleton]
    · rw [hmultipart, hcomma]
    · rintro _ ⟨⟩
      exact hat
  | @cons w t r rs hspec _ ih =>
    have hlen : (w ++ 44 :: t).length = w.length + (t.length + 1) := by simp
    obtain ⟨fuel, rfl⟩ := Nat.exists_eq_add_of_le' (show 1 ≤ fuel by omega)
    have hend : EndsRange (w ++ 44 :: t) w true t := .inr ⟨rfl, rfl⟩
    obtain ⟨u, hloop, happended, hmultipart, hat⟩ := exists_rangeLoop_turn hn hspec
      (hsat r List.mem_cons_self) hend h0 contentType v
    have h0t : 0 ∉ t := fun h => h0 (by simp [h])
    obtain ⟨v', hrest, hrun⟩ := ih (fun r' hr' => hsat r' (List.mem_cons_of_mem r hr')) h0t
      (show t.length ≤ fuel by omega) u
    have hcomma : decide (44 ∈ w ++ 44 :: t) = true := by simp
    have hu : u.multipart = true := by rw [hmultipart, Bool.or_true]
    refine ⟨v', ?_, ?_, fun _ => ?_, fun r' hr' => ?_, fun h => by cases h⟩
    · rw [hloop, hrest]
    · have hrun' := happended.trans hrun.appended
      rw [hcomma, Bool.or_true, List.flatMap_cons]
      rwa [hu, Bool.true_or, Bool.or_true] at hrun'
    · by_cases hrs : rs = []
      · rw [hrun.unchanged hrs, hu, hcomma, Bool.or_true]
      · rw [hrun.multipart hrs, hu, Bool.true_or, hcomma, Bool.or_true]
    · by_cases hrs : rs = []
      · rw [hrs] at hr'
        cases hr'
        rw [hrun.unchanged hrs]
        exact hat
      · rw [List.getLast?_cons_of_ne_nil hrs] at hr'
        exact hrun.last r' hr'

/-- A loop that ends without an error has read a list of ranges. -/
theorem exists_rangeText_of_rangeLoop (hn : n < 2 ^ 63) {contentType : Bytes} {fuel : ℕ}
    {v' : RangeLoop} (h0 : 0 ∉ s) (hfuel : s.length ≤ fuel)
    (h : rangeLoop n contentType fuel v s = (true, v')) :
    ∃ rs, RangeText s rs ∧ ∀ r ∈ rs, r.Satisfiable n := by
  induction fuel generalizing v s with
  | zero =>
    obtain rfl := List.length_eq_zero_iff.mp (Nat.le_zero.mp hfuel)
    exact ⟨[], .stop List.not_mem_nil, by simp⟩
  | succ fuel ih =>
    by_cases h45 : 45 ∉ s
    · exact ⟨[], .stop h45, by simp⟩
    · obtain ⟨minus, hminus⟩ := exists_strchr (not_not.mp h45) h0
      rw [rangeLoop, hminus] at h
      dsimp only at h
      cases hturn : rangeTurn n s minus with
      | unsatisfiable =>
        rw [hturn] at h
        cases h
      | malformed =>
        rw [hturn] at h
        cases h
      | range start stop multi rest =>
        rw [hturn] at h
        obtain ⟨w, r, hspec, hsat, hend⟩ := exists_specText_of_rangeTurn hn hminus hturn
        rcases hend with ⟨rfl, rfl, rfl⟩ | ⟨rfl, rfl⟩
        · exact ⟨[r], .last hspec, by simpa using hsat⟩
        · have h0t : 0 ∉ rest := fun hmem => h0 (by simp [hmem])
          have hlen : (w ++ 44 :: rest).length = w.length + (rest.length + 1) := by simp
          obtain ⟨rs, htext, hrs⟩ := ih h0t (by omega) h
          exact ⟨r :: rs, .cons hspec htext, by simpa using ⟨hsat, hrs⟩⟩

/-! ## The answer -/

/-- The body of the ranges `rs` of a file of `n` bytes. -/
def rangeBody (n : ℕ) (contentType : Bytes) (rs : List RangeSpec) (multi : Bool) :
    List RangeChunk :=
  rs.flatMap (rangeChunks n contentType multi) ++ if multi then [.mem partEnd] else []

/-- The header of the answer. -/
def rangeHeaders (n : ℕ) (rs : List RangeSpec) (multi : Bool) : List RangeHeader :=
  if multi then
    [.overwrite (str "Content-Type") (str "multipart/byteranges; boundary=" ++ boundary)]
  else
    rs.map fun r => .insert (str "Content-Range")
      (appendContentRange (str "bytes ") (r.clamp n).1 (r.clamp n).2 n)

/-- The number of bytes of chunks. -/
def chunksLength (cs : List RangeChunk) : ℤ := (cs.map RangeChunk.length).sum

/-- The answer with the ranges `rs`: the parts of the file are not empty and inside of it, the
length is that of what was appended, and every computation fits. -/
structure ExactRanges (n : ℕ) (contentType : Bytes) (con : RangeCon) (rs : List RangeSpec)
    (multi : Bool) (v : RangeLoop) : Prop where
  queue : v.con.writeQueue = con.writeQueue ++ rangeBody n contentType rs multi
  pieces : ∀ start length : ℤ, .file start length ∈ rangeBody n contentType rs multi →
    0 ≤ start ∧ 0 < length ∧ start + length ≤ n
  contentLength : v.con.contentLength = chunksLength (rangeBody n contentType rs multi)
  headers : v.con.headers = con.headers ++ rangeHeaders n rs multi
  fits : v.Fits

/-- The pieces of the file in a body are not empty and inside of the file. -/
theorem pieces_rangeBody (hsat : ∀ r ∈ rs, r.Satisfiable n) (contentType : Bytes) (multi : Bool)
    {length : ℤ} (h : .file start length ∈ rangeBody n contentType rs multi) :
    0 ≤ start ∧ 0 < length ∧ start + length ≤ n := by
  have hbody : RangeChunk.file start length ∈ rs.flatMap (rangeChunks n contentType multi) := by
    rcases List.mem_append.mp h with h | h
    · exact h
    · split_ifs at h <;> simp at h
  obtain ⟨r, hr, hmem⟩ := List.mem_flatMap.mp hbody
  obtain ⟨hle, hlt⟩ := RangeSpec.clamp_bounds (hsat r hr)
  have hfile : RangeChunk.file start length =
      .file (r.clamp n).1 ((r.clamp n).2 - (r.clamp n).1 + 1) := by
    rcases List.mem_append.mp hmem with hmem | hmem
    · split_ifs at hmem <;> simp at hmem
    · exact List.mem_singleton.mp hmem
  injection hfile with hstart hlength
  omega

/-- What the function has done, when the ranges of the text are satisfiable: all but the length is
as it should be, and that is as long as it fits. -/
theorem httpResponseParseRange_of_rangeText (hn : n < 2 ^ 63) (h45 : 45 ∈ cstr range)
    (htext : RangeText (cstr range) rs) (hsat : ∀ r ∈ rs, r.Satisfiable n) (contentType : Buffer)
    (con : RangeCon) :
    ∃ v, httpResponseParseRange n range contentType con = (true, v) ∧
      v.con.writeQueue = con.writeQueue ++
        rangeBody n contentType.string rs (decide (44 ∈ cstr range)) ∧
      v.con.headers = con.headers ++ rangeHeaders n rs (decide (44 ∈ cstr range)) ∧
      Counts v (chunksLength (rangeBody n contentType.string rs (decide (44 ∈ cstr range)))) := by
  let v₀ : RangeLoop := ⟨false, 0, n - 1, { con with contentLength := 0 }, [(n : ℤ) - 1]⟩
  have hcounts : Counts v₀ 0 := by
    refine ⟨le_rfl, iff_of_true ?_ (by norm_num), fun _ => rfl⟩
    intro z hz
    obtain rfl := List.mem_singleton.mp hz
    exact ⟨by omega, by omega⟩
  obtain ⟨v, hloop, hrun⟩ := rangeLoop_of_rangeText hn htext hsat (notMem_cstr range) le_rfl
    contentType.string v₀
  have hmultipart := hrun.multipart (htext.ne_nil h45)
  have happended := hrun.appended
  rw [Bool.false_or] at hmultipart happended
  unfold httpResponseParseRange
  dsimp only
  rw [hloop]
  by_cases hcomma : 44 ∈ cstr range
  · rw [decide_eq_true hcomma] at hmultipart happended ⊢
    have hend := happended.trans (appended_appendBuffer v (show partEnd ≠ [] by decide))
    refine ⟨_, by rw [if_neg (by simp), if_pos hmultipart], ?_, ?_, ?_⟩
    · exact hend.queue
    · exact congrArg (· ++ _) hend.headers
    · have hc := hend.counts 0 hcounts
      rw [zero_add] at hc
      exact ⟨hc.nonneg, hc.fits, hc.eq⟩
  · rw [decide_eq_false hcomma] at hmultipart happended ⊢
    obtain ⟨r, rfl⟩ := htext.eq_singleton h45 hcomma
    obtain ⟨hstart, hstop⟩ := hrun.last r rfl
    refine ⟨_, by rw [if_neg (by simp), if_neg (by simp [hmultipart])], ?_, ?_, ?_⟩
    · rw [rangeBody, if_neg (by simp), List.append_nil]
      exact happended.queue
    · rw [hstart, hstop]
      exact congrArg (· ++ _) happended.headers
    · rw [rangeBody, if_neg (by simp), List.append_nil]
      have hc := happended.counts 0 hcounts
      rw [zero_add] at hc
      exact ⟨hc.nonneg, hc.fits, hc.eq⟩

/-- Whenever the function returns zero, its answer is that of ranges that the text lists and that
are satisfiable. -/
def AnswersExactly (n : ℕ) (range : Bytes) (contentType : Buffer) (con : RangeCon) : Prop :=
  ∀ v, httpResponseParseRange n range contentType con = (true, v) →
    ∃ rs, rs ≠ [] ∧ RangeText (cstr range) rs ∧ (∀ r ∈ rs, r.Satisfiable n) ∧
      ExactRanges n contentType.string con rs (decide (44 ∈ cstr range)) v

/-- The ranges are satisfiable, and their answer has more bytes than fit in an `off_t`. -/
def Overflows (n : ℕ) (range : Bytes) (contentType : Buffer) : Prop :=
  ∃ rs, RangeText (cstr range) rs ∧ (∀ r ∈ rs, r.Satisfiable n) ∧
    2 ^ 63 ≤ chunksLength (rangeBody n contentType.string rs (decide (44 ∈ cstr range)))

theorem not_answersExactly (hn : n < 2 ^ 63) (h45 : 45 ∈ cstr range) {contentType : Buffer}
    (h : Overflows n range contentType) (con : RangeCon) :
    ¬ AnswersExactly n range contentType con := by
  obtain ⟨rs, htext, hsat, hlong⟩ := h
  obtain ⟨v, hv, hqueue, -, hcounts⟩ := httpResponseParseRange_of_rangeText hn h45 htext hsat
    contentType con
  intro hexact
  obtain ⟨rs', -, -, -, hans⟩ := hexact v hv
  exact absurd (hcounts.fits.mp hans.fits) (by omega)

theorem mem_minus_of_httpRange {value : Bytes} (h : httpRange value = some range) :
    45 ∈ cstr range := by
  unfold httpRange at h
  split_ifs at h with hvalue
  obtain ⟨minus, hminus⟩ := Option.isSome_iff_exists.mp hvalue.2
  obtain ⟨u, v, huv, -, -, h0⟩ := strchr_eq_some hminus
  rw [← Option.some.inj h, huv, cstr_append_of_notMem h0]
  simp [cstr]

theorem exists_rangeText (hn : n < 2 ^ 63) {contentType : Buffer} {con : RangeCon}
    (h : httpResponseParseRange n range contentType con = (true, v)) :
    ∃ rs, RangeText (cstr range) rs ∧ ∀ r ∈ rs, r.Satisfiable n := by
  unfold httpResponseParseRange at h
  dsimp only at h
  split_ifs at h with hloop hmultipart
  · exact exists_rangeText_of_rangeLoop hn (notMem_cstr range) le_rfl (Prod.ext hloop rfl)
  · exact exists_rangeText_of_rangeLoop hn (notMem_cstr range) le_rfl (Prod.ext hloop rfl)
  · cases h

theorem spells_zero : Spells (str "0") 0 := by
  refine ⟨⟨[], [], str "0", rfl, by simp, .inl rfl, ⟨by decide, fun c hc => ?_⟩, by decide⟩⟩
  rw [List.mem_singleton.mp hc]
  rfl

/-- A whole file of `2 ^ 62` bytes that is asked for twice. -/
theorem httpResponseParseRange_twice :
    httpRange (str "bytes=0-,0-") = some (str "0-,0-") ∧
      ¬ AnswersExactly (2 ^ 62) (str "0-,0-") (some (str "text/plain")) ⟨0, [], 0, []⟩ := by
  have hrange : SpecText (str "0-") (.start 0) := .start spells_zero (by decide)
  have htext : RangeText (cstr (str "0-,0-")) [.start 0, .start 0] := .cons hrange (.last hrange)
  refine ⟨by decide, not_answersExactly (by norm_num) (by decide) ⟨_, htext, ?_, ?_⟩ _⟩
  · simp [RangeSpec.Satisfiable]
  · decide +kernel

/-- The answer to ranges is exact if and only if its length fits in an `off_t`. -/
theorem httpResponseParseRange_iff {n : ℕ} (hn : n < 2 ^ 63) {value range : Bytes}
    (hvalue : httpRange value = some range) (contentType : Buffer) (con : RangeCon) :
    AnswersExactly n range contentType con ↔ ¬ Overflows n range contentType := by
  have h45 := mem_minus_of_httpRange hvalue
  refine ⟨fun h hover => not_answersExactly hn h45 hover con h, fun hfits v hv => ?_⟩
  obtain ⟨rs, htext, hsat⟩ := exists_rangeText hn hv
  obtain ⟨v', hv', hqueue, hheaders, hcounts⟩ := httpResponseParseRange_of_rangeText hn h45 htext
    hsat contentType con
  obtain rfl : v' = v := by
    rw [hv] at hv'
    exact (Prod.mk.inj hv').2.symm
  have hlt : chunksLength (rangeBody n contentType.string rs (decide (44 ∈ cstr range))) <
      2 ^ 63 := by
    by_contra hlong
    exact hfits ⟨rs, htext, hsat, not_lt.mp hlong⟩
  exact ⟨rs, htext.ne_nil h45, htext, hsat, hqueue,
    fun start length hmem => pieces_rangeBody hsat contentType.string _ hmem,
    hcounts.eq hlt, hheaders, hcounts.fits.mpr hlt⟩

theorem httpResponseParseRange_first :
    AnswersExactly 10 (str "0-1") (some (str "text/plain")) ⟨0, [], 0, []⟩ ↔
      ¬ Overflows 10 (str "0-1") (some (str "text/plain")) :=
  httpResponseParseRange_iff (by norm_num) (show httpRange (str "bytes=0-1") = _ by decide) _ _

end Lighttpd
