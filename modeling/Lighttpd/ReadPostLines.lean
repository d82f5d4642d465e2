import Lighttpd.ReadPostCalls
import Lighttpd.ReadPostDecode

/-!
# The lines that are read as chunk headers

`connection_handle_read_post_chunked` looks for the line feed of a chunk header and, apart from
that, for its digits and the one byte behind them. Lines pass that are no chunk headers: those
without a digit, which end the body, and those with anything between the first CR, or a semicolon,
and the line feed (`IsLaxLine`). `onlyChunkLines_iff` says that these are all.
-/

namespace Lighttpd

open CString ChunkedCoding

theorem hexDigit_isSome_of_hex2int {c : UInt8} (h : hex2int c ≠ 255) : (hexDigit c).isSome := by
  have hall : ∀ n : Fin 256, hex2int (UInt8.ofNat n) ≠ 255 → (hexDigit (UInt8.ofNat n)).isSome := by
    decide +kernel
  have hc : UInt8.ofNat c.toNat = c := by simp
  have := hall ⟨c.toNat, c.toNat_lt⟩
  rw [hc] at this
  exact this h

theorem chunkSizeLoop_eq_some {s : Bytes} {te : ℕ} {r : ℕ × Bytes} (hte : te < 2 ^ 63)
    (h : chunkSizeLoop te s = some r) :
    ∃ ds, s = ds ++ r.2 ∧ (∀ c ∈ ds, (hexDigit c).isSome) ∧
      r.1 = ds.foldl (fun n c => n * 16 + (hexDigit c).getD 0) te ∧ r.1 < 2 ^ 63 := by
  induction s generalizing te with
  | nil =>
    cases h
    exact ⟨[], rfl, by simp, rfl, hte⟩
  | cons u s ih =>
    rw [chunkSizeLoop] at h
    by_cases hu : hex2int u = 255
    · rw [if_pos hu] at h
      cases h
      exact ⟨[], rfl, by simp, rfl, hte⟩
    · obtain ⟨v, hv⟩ := Option.isSome_iff_exists.mp (hexDigit_isSome_of_hex2int hu)
      obtain ⟨-, hnat, hlt⟩ := hex2int_of_hexDigit hv
      rw [if_neg hu] at h
      by_cases hbig : te > 2 ^ 59 - 1
      · rw [if_pos hbig] at h
        cases h
      · rw [if_neg hbig, hnat] at h
        obtain ⟨ds, hs, hds, hval, hsmall⟩ := ih (by omega) h
        refine ⟨u :: ds, by rw [hs]; rfl, ?_, ?_, hsmall⟩
        · intro c hc
          rcases List.mem_cons.mp hc with rfl | hc
          · simp [hv]
          · exact hds c hc
        · rw [hval, List.foldl_cons, hv]
          rfl

/-- What the code asks of a line, here without its line feed: digits of a size that fits, blanks,
and then a CR or a semicolon. -/
structure IsSizeLine (line size blanks rest : Bytes) : Prop where
  eq : line = size ++ blanks ++ rest
  hex : ∀ c ∈ size, (hexDigit c).isSome
  blank : ∀ c ∈ blanks, c = SP ∨ c = HT
  stop : rest.head? = some CR ∨ rest.head? = some 59
  small : hexNumber size < 2 ^ 63
  short : line.length < 1023

section SizeLine

variable {line size blanks rest t : Bytes} {te : ℕ}

theorem IsSizeLine.chunkSize_eq (h : IsSizeLine line size blanks rest) (t : Bytes) :
    chunkSize (line ++ LF :: t) (line.length + 1) = some (hexNumber size) := by
  obtain ⟨y, r, hr⟩ : ∃ y r, rest = y :: r :=
    List.exists_cons_of_ne_nil fun hnil => by simpa [hnil] using h.stop
  have hy : y = CR ∨ y = 59 := by simpa [hr] using h.stop
  have hblank : (blanks ++ (y :: (r ++ LF :: t))).dropWhile (fun c => c = SP ∨ c = HT) =
      y :: (r ++ LF :: t) := by
    rw [List.dropWhile_append_of_pos (by simpa using h.blank),
      List.dropWhile_cons_of_neg (by rcases hy with rfl | rfl <;> decide)]
  obtain ⟨x, s, hxs⟩ := List.exists_cons_of_ne_nil
    (show blanks ++ (y :: (r ++ LF :: t)) ≠ [] by simp)
  have hx : hex2int x = 255 := by
    cases hb : blanks with
    | nil =>
      rw [hb] at hxs
      obtain ⟨rfl, -⟩ := List.cons.inj hxs
      rcases hy with rfl | rfl <;> decide
    | cons b bs =>
      rw [hb] at hxs
      obtain ⟨rfl, -⟩ := List.cons.inj hxs
      rcases h.blank b (by simp [hb]) with rfl | rfl <;> decide
  have hline : line ++ LF :: t = size ++ x :: s := by
    rw [h.eq, hr, ← hxs]
    simp
  have hloop : chunkSizeLoop 0 (size ++ x :: s) = some (hexNumber size, x :: s) := by
    rw [chunkSizeLoop_hex hx h.hex (by decide)]
    exact if_pos h.small
  have hshort := h.short
  rw [chunkSize, hline, hloop]
  dsimp only
  rw [← hxs, hblank, List.head?_cons, if_neg (by rcases hy with rfl | rfl <;> decide),
    if_neg (by omega)]

theorem isSizeLine_of_chunkSize (hlf : LF ∉ line)
    (h : chunkSize (line ++ LF :: t) (line.length + 1) = some te) :
    ∃ size blanks rest, IsSizeLine line size blanks rest ∧ hexNumber size = te := by
  rw [chunkSize] at h
  cases hloop : chunkSizeLoop 0 (line ++ LF :: t) with
  | none =>
    rw [hloop] at h
    cases h
  | some r =>
    rw [hloop] at h
    dsimp only at h
    split_ifs at h with hhead hlong
    cases h
    obtain ⟨size, hs, hex, hval, hsmall⟩ := chunkSizeLoop_eq_some (by decide) hloop
    have hsplit := List.takeWhile_append_dropWhile (p := fun c => c = SP ∨ c = HT) (l := r.2)
    generalize hb : r.2.takeWhile (fun c => c = SP ∨ c = HT) = blanks at hsplit
    generalize r.2.dropWhile (fun c => c = SP ∨ c = HT) = u at hsplit hhead
    have hblank : ∀ c ∈ blanks, c = SP ∨ c = HT := fun c hc => by
      rw [← hb] at hc
      have := List.mem_takeWhile_imp hc
      exact of_decide_eq_true this
    have hstop : u.head? = some CR ∨ u.head? = some 59 := by
      by_contra hno
      rw [not_or] at hno
      exact hhead hno
    rw [← hsplit, ← List.append_assoc] at hs
    -- the line feed is neither a digit nor a blank
    obtain ⟨rest, rfl, rfl⟩ : ∃ rest, line = size ++ blanks ++ rest ∧ u = rest ++ LF :: t := by
      rcases List.append_eq_append_iff.mp hs with ⟨v, hv, hu⟩ | ⟨v, hv, hu⟩
      · cases v with
        | nil => exact ⟨[], by simpa using hv.symm, by simpa using hu.symm⟩
        | cons x v =>
          obtain ⟨rfl, -⟩ := List.cons.inj hu
          have hmem : LF ∈ size ++ blanks := by rw [hv]; simp
          rcases List.mem_append.mp hmem with hmem | hmem
          · exact absurd hmem (notMem_of_hex hex (by decide))
          · exact absurd hmem (notMem_of_blanks hblank (by decide) (by decide))
      · exact ⟨v, hv, hu⟩
    have hvalue : hexNumber size = r.1 := hval.symm
    refine ⟨size, blanks, rest, ⟨rfl, hex, hblank, ?_, by rwa [hvalue], by omega⟩, hvalue⟩
    cases rest with
    | nil => rcases hstop with hlf' | hlf' <;> exact absurd (Option.some.inj hlf') (by decide)
    | cons x rest => simpa using hstop

/-- Such a line is one of the chunked coding when it has a digit and its first CR is the last byte
in front of the line feed. -/
theorem IsSizeLine.isChunkLine_iff (h : IsSizeLine line size blanks rest) (hlf : LF ∉ line) :
    IsChunkLine (line ++ [LF]) ↔ size ≠ [] ∧ ∃ r, rest = r ++ [CR] ∧ CR ∉ r := by
  constructor
  · intro hline
    obtain ⟨d, w, hdw, hd, hcr⟩ := hline.exists_eq
    obtain rfl : line = d :: (w ++ [CR]) := by
      have : line ++ [LF] = (d :: (w ++ [CR])) ++ [LF] := by simpa using hdw
      exact (List.append_inj' this rfl).1
    have heq := h.eq
    refine ⟨?_, ?_⟩
    · rintro rfl
      rw [List.nil_append] at heq
      have hhead : d = SP ∨ d = HT ∨ d = CR ∨ d = 59 := by
        cases hb : blanks with
        | nil =>
          rw [hb, List.nil_append] at heq
          simpa [← heq] using Or.inr (Or.inr h.stop)
        | cons b bs =>
          rw [hb, List.cons_append] at heq
          obtain ⟨rfl, -⟩ := List.cons.inj heq
          rcases h.blank d (by simp [hb]) with hd | hd
          · exact .inl hd
          · exact .inr (.inl hd)
      rcases hhead with rfl | rfl | rfl | rfl <;> exact absurd hd (by decide)
    · rcases List.eq_nil_or_concat rest with rfl | ⟨r, x, rfl⟩
      · simpa using h.stop
      · have hlast : (d :: w) ++ [CR] = (size ++ blanks ++ r) ++ [x] := by simpa using heq
        obtain ⟨hr, hx⟩ := List.append_inj' hlast rfl
        obtain rfl := List.singleton_inj.mp hx
        refine ⟨r, by simp, fun hmem => hcr ?_⟩
        rw [hr]
        exact List.mem_append_right _ hmem
  · rintro ⟨hne, r, rfl, hr⟩
    have heq := h.eq
    refine ⟨size, blanks, r, by simp [heq], ⟨hne, h.hex⟩, h.blank, ?_, hr, fun hmem => hlf ?_⟩
    · cases r with
      | nil => exact .inl rfl
      | cons y r =>
        refine .inr (h.stop.resolve_left fun hy => hr ?_)
        obtain rfl : y = CR := by simpa using hy
        exact List.mem_cons_self
    · rw [heq]
      simp [hmem]

end SizeLine

/-- The bytes at the front are a line that is read as a chunk header and is none: it has no digit,
or its first CR is not in front of its line feed. -/
def IsLaxLine (b : Bytes) : Prop :=
  ∃ line t size blanks rest, b = line ++ LF :: t ∧ LF ∉ line ∧ (0 : UInt8) ∉ line ∧
    IsSizeLine line size blanks rest ∧ (size = [] ∨ ¬ ∃ r, rest = r ++ [CR] ∧ CR ∉ r)

theorem isLaxLine_iff {b : Bytes} :
    IsLaxLine b ↔ ∃ line t te, b = line ++ LF :: t ∧ LF ∉ line ∧ (0 : UInt8) ∉ line ∧
      chunkSize b (line.length + 1) = some te ∧ ¬ IsChunkLine (line ++ [LF]) := by
  constructor
  · rintro ⟨line, t, size, blanks, rest, rfl, hlf, hnul, h, hlax⟩
    refine ⟨line, t, _, rfl, hlf, hnul, h.chunkSize_eq t, ?_⟩
    rw [h.isChunkLine_iff hlf]
    rintro ⟨hne, hr⟩
    exact hlax.elim hne fun hno => hno hr
  · rintro ⟨line, t, te, rfl, hlf, hnul, hsize, hline⟩
    obtain ⟨size, blanks, rest, h, -⟩ := isSizeLine_of_chunkSize hlf hsize
    rw [h.isChunkLine_iff hlf, not_and_or, not_not] at hline
    exact ⟨line, t, size, blanks, rest, rfl, hlf, hnul, h, hline⟩

/-! ## Calls -/

/-- The bytes that a call leaves in the read queue. -/
def ReadPostResult.unread : ReadPostResult → Option Bytes
  | .goOn con => some con.readQueue.bytes
  | .finished con => some con.readQueue.bytes
  | .error con => some con.readQueue.bytes
  | .aborted => none
  | .undefined => none

/-- The bytes that a part of the loop leaves in the read queue. -/
def Phase.unread : Phase → Option Bytes
  | .run con _ => some con.readQueue.bytes
  | .leave con _ => some con.readQueue.bytes
  | .stop r => r.unread

theorem unread_error (con : ReadPostCon) (httpStatus : ℕ) :
    (connectionHandleReadPostError con httpStatus).unread = some con.readQueue.bytes := by
  unfold connectionHandleReadPostError
  dsimp only
  split_ifs <;> rfl

/-- Where a chunk header is read, bytes are consumed. -/
def TakesHeader (conf : ReadPostConf) (con : ReadPostCon) : Prop :=
  ∃ b, (readChunkHeader conf (con.readQueue.chunks.length + 1) con).unread = some b ∧
    b ≠ con.readQueue.bytes

/-- A call at the chunk header gives status 400. -/
def BadRequest (conf : ReadPostConf) (con : ReadPostCon) : Prop :=
  ∃ con', connectionHandleReadPostChunked conf 1 con = some (connectionHandleReadPostError con' 400)

/-- A call at the chunk header changes neither the bytes of the queue nor the length of the body. -/
def WaitsAtHeader (conf : ReadPostConf) (con : ReadPostCon) : Prop :=
  ∃ con', connectionHandleReadPostChunked conf 1 con = some (.goOn con') ∧ con'.teChunked = 0 ∧
    con'.readQueue.bytes = con.readQueue.bytes ∧ con'.contentLength = con.contentLength

/-- The line at the front of the queue gives status 400, whatever is read behind it. A line with a
NUL, which hides its line feed, does so once there are 1024 bytes. -/
def LeadsToBadRequest (conf : ReadPostConf) (con : ReadPostCon) (line : Bytes) : Prop :=
  ∀ con' : ReadPostCon, con'.teChunked = 0 → con.readQueue.bytes <+: con'.readQueue.bytes →
    (∃ e, Arranged e con'.readQueue.chunks) →
    BadRequest conf con' ∨
      ((0 : UInt8) ∈ line ∧ con'.readQueue.bytes.length < 1024 ∧ WaitsAtHeader conf con')

/-- Where a chunk header is read, only a line of the chunked coding is consumed, and every other
line leads to status 400. -/
structure OnlyChunkLines (conf : ReadPostConf) (con : ReadPostCon) : Prop where
  consumed : TakesHeader conf con → ∃ line t, con.readQueue.bytes = line ++ LF :: t ∧ LF ∉ line ∧
    IsChunkLine (line ++ [LF])
  refused : ∀ line t, con.readQueue.bytes = line ++ LF :: t → LF ∉ line →
    ¬ IsChunkLine (line ++ [LF]) → LeadsToBadRequest conf con line

section Calls

variable {conf : ReadPostConf} {e : Bool} {con : ReadPostCon} {line t : Bytes}

theorem readPostCall_stop {r : ReadPostResult} (hte : con.teChunked = 0)
    (h : readChunkHeader conf (con.readQueue.chunks.length + 1) con = .stop r) :
    connectionHandleReadPostChunked conf 1 con = some r := by
  rw [connectionHandleReadPostChunked, hte, readPostLoop, readPostTurn, if_pos rfl, h]
  rfl

theorem readPostCall_leave {con' : ReadPostCon} {te : ℤ} (hte : con.teChunked = 0)
    (h : readChunkHeader conf (con.readQueue.chunks.length + 1) con = .leave con' te) :
    connectionHandleReadPostChunked conf 1 con = some (.goOn { con' with teChunked := te }) := by
  rw [connectionHandleReadPostChunked, hte, readPostLoop, readPostTurn, if_pos rfl, h]
  rfl

theorem strchr_of_nul (hnul : (0 : UInt8) ∈ line) (hlf : LF ∉ line) (t : Bytes) :
    strchr (line ++ t) LF = none := by
  rw [strchr, strstr, cstr_append_of_mem hnul]
  exact strchr_of_notMem hlf

/-- A chunk header that is consumed has a line whose size is read. -/
theorem TakesHeader.exists_line (harr : Arranged e con.readQueue.chunks) (h : TakesHeader conf con) :
    ∃ line t te, con.readQueue.bytes = line ++ LF :: t ∧ LF ∉ line ∧ (0 : UInt8) ∉ line ∧
      chunkSize con.readQueue.bytes (line.length + 1) = some te := by
  obtain ⟨b, hb, hne⟩ := h
  have hheader := headerTurn_readChunkHeader conf harr
  have hread : chunkHeader con.readQueue.bytes ≠ .incomplete ∧
      chunkHeader con.readQueue.bytes ≠ .refused := by
    generalize readChunkHeader conf (con.readQueue.chunks.length + 1) con = ph at hb hheader
    cases hheader with
    | incomplete q header bytes => exact absurd ((Option.some.inj hb).symm.trans bytes) hne
    | refused q header bytes =>
      rw [Phase.unread, unread_error, bytes] at hb
      exact absurd (Option.some.inj hb).symm hne
    | unfinished q header => rw [header]; simp
    | cut r header => rw [header]; simp
    | last q hsz header => rw [header]; simp
    | tooLong q te hsz header => rw [header]; simp
    | size q te hsz header => rw [header]; simp
  cases hp : strchr con.readQueue.bytes LF with
  | none =>
    rw [chunkHeader, hp] at hread
    dsimp only at hread
    split_ifs at hread
    · exact absurd rfl hread.2
    · exact absurd rfl hread.1
  | some p =>
    obtain ⟨line, t, hbytes, rfl, hlf, hnul⟩ := strchr_eq_some hp
    cases hsize : chunkSize con.readQueue.bytes (line.length + 1) with
    | none => exact absurd (chunkHeader_refused hp hsize) hread.2
    | some te => exact ⟨line, t, te, hbytes, hlf, hnul, hsize⟩

/-- A line that is read gives no status 400, or it is consumed. -/
theorem not_badRequest_or_takesHeader {te : ℕ} (harr : Arranged e con.readQueue.chunks)
    (hte : con.teChunked = 0) (hbytes : con.readQueue.bytes = line ++ LF :: t) (hlf : LF ∉ line)
    (hnul : (0 : UInt8) ∉ line) (hsize : chunkSize con.readQueue.bytes (line.length + 1) = some te) :
    ¬ BadRequest conf con ∨ TakesHeader conf con := by
  have hp : strchr con.readQueue.bytes LF = some line.length := by
    rw [hbytes]
    exact strchr_append_cons hlf hnul (by decide) t
  have hheader := headerTurn_readChunkHeader conf harr
  rcases Nat.eq_zero_or_pos te with rfl | hpos
  · -- the last chunk: a response is given in no case
    refine .inl ?_
    rintro ⟨con', hcall⟩
    obtain ⟨hgoOn, haborted, hundefined⟩ := connectionHandleReadPostError_ne con' 400
    have hlast := chunkHeader_last hp hsize
    cases hstr : strstr (con.readQueue.bytes.drop (line.length + 1 - 2)) crlfcrlf with
    | none =>
      rw [hstr] at hlast
      rcases hheader.inv_unfinished hlast with ⟨-, r, hph, hr⟩ | ⟨-, q, hph, -⟩
      · rw [readPostCall_stop hte hph, Option.some_inj] at hcall
        rcases hr with rfl | rfl
        · exact haborted hcall.symm
        · exact hundefined hcall.symm
      · rw [readPostCall_leave hte hph, Option.some_inj] at hcall
        exact hgoOn _ hcall.symm
    | some j =>
      rw [hstr] at hlast
      obtain ⟨q, hph, -⟩ := hheader.inv_last hlast
      rw [readPostCall_leave hte hph, Option.some_inj] at hcall
      exact hgoOn _ hcall.symm
  · refine .inr ?_
    have hsized := chunkHeader_size hp hsize (by omega)
    have hdrop : con.readQueue.bytes.drop (line.length + 1) ≠ con.readQueue.bytes := fun heq => by
      have hlen := congrArg List.length heq
      rw [List.length_drop, hbytes, List.length_append, List.length_cons] at hlen
      omega
    cases hlong : requestTooLong conf con.requestContentQueue.bytesIn te with
    | true =>
      obtain ⟨q, hph, hq⟩ := hheader.inv_tooLong hsized hlong
      exact ⟨q.bytes, by rw [hph]; exact unread_error _ 413, by rwa [hq]⟩
    | false =>
      obtain ⟨q, hph, hq, -⟩ := hheader.inv_size hsized hlong
      exact ⟨q.bytes, by rw [hph]; rfl, by rwa [hq]⟩

theorem badRequest_of_refused (harr : Arranged e con.readQueue.chunks) (hte : con.teChunked = 0)
    (h : chunkHeader con.readQueue.bytes = .refused) : BadRequest conf con := by
  have hheader := headerTurn_readChunkHeader conf harr
  obtain ⟨con', hph⟩ := hheader.inv_refused h
  exact ⟨con', readPostCall_stop hte hph⟩

theorem waitsAtHeader_of_incomplete (harr : Arranged e con.readQueue.chunks)
    (hte : con.teChunked = 0) (h : chunkHeader con.readQueue.bytes = .incomplete) :
    WaitsAtHeader conf con := by
  have hheader := headerTurn_readChunkHeader conf harr
  obtain ⟨q, hph, hq⟩ := hheader.inv_incomplete h
  exact ⟨_, readPostCall_leave hte hph, rfl, hq, rfl⟩

end Calls

/-- Where a chunk header is read, the code keeps to the lines of the chunked coding exactly when the
bytes there are no line without a digit, and none with other bytes between the first CR and the line
feed or a bare line feed behind an extension. -/
theorem onlyChunkLines_iff (conf : ReadPostConf) (con : ReadPostCon) (hte : con.teChunked = 0)
    (harr : ∃ e, Arranged e con.readQueue.chunks) :
    OnlyChunkLines conf con ↔ ¬ IsLaxLine con.readQueue.bytes := by
  obtain ⟨e, harr⟩ := harr
  rw [isLaxLine_iff]
  constructor
  · rintro honly ⟨line, t, te, hbytes, hlf, hnul, hsize, hline⟩
    have hcases : ¬ BadRequest conf con ∨ TakesHeader conf con :=
      not_badRequest_or_takesHeader harr hte hbytes hlf hnul hsize
    rcases hcases with hno | htakes
    · rcases honly.refused line t hbytes hlf hline con hte List.prefix_rfl ⟨e, harr⟩ with
        hbad | ⟨hmem, -⟩
      · exact hno hbad
      · exact hnul hmem
    · obtain ⟨line', t', hbytes', hlf', hline'⟩ := honly.consumed htakes
      obtain ⟨rfl, -⟩ := append_cons_inj hlf hlf' (hbytes.symm.trans hbytes')
      exact hline hline'
  · intro hlax
    refine ⟨fun htakes => ?_, fun line t hbytes hlf hline con' hte' hpre ⟨e', harr'⟩ => ?_⟩
    · obtain ⟨line, t, te, hbytes, hlf, hnul, hsize⟩ := htakes.exists_line harr
      refine ⟨line, t, hbytes, hlf, ?_⟩
      by_contra hline
      exact hlax ⟨line, t, te, hbytes, hlf, hnul, hsize, hline⟩
    · obtain ⟨u, hu⟩ := hpre
      rw [hbytes, List.append_assoc, List.cons_append] at hu
      by_cases hnul : (0 : UInt8) ∈ line
      · have hnone : strchr con'.readQueue.bytes LF = none := hu ▸ strchr_of_nul hnul hlf _
        by_cases hlong : con'.readQueue.bytes.length ≥ 1024
        · refine Or.inl (badRequest_of_refused harr' hte' ?_)
          rw [chunkHeader, hnone]
          exact if_pos hlong
        · refine Or.inr ⟨hnul, by omega, waitsAtHeader_of_incomplete harr' hte' ?_⟩
          rw [chunkHeader, hnone]
          exact if_neg hlong
      · refine Or.inl (badRequest_of_refused harr' hte' ?_)
        have hp : strchr con'.readQueue.bytes LF = some line.length :=
          hu ▸ strchr_append_cons hlf hnul (by decide) _
        refine chunkHeader_refused hp ?_
        cases hsize : chunkSize con'.readQueue.bytes (line.length + 1) with
        | none => rfl
        | some te =>
          refine absurd ⟨line, t, te, hbytes, hlf, hnul, ?_, hline⟩ hlax
          have hcut (v : Bytes) : chunkSize (line ++ LF :: v) (line.length + 1) =
              chunkSize (line ++ [LF]) (line.length + 1) := by
            rw [show line ++ LF :: v = (line ++ [LF]) ++ v by simp]
            exact chunkSize_append v (by simp)
          rw [← hsize, ← hu, hbytes, hcut t, hcut (t ++ u)]

/-- A line with an extension. -/
theorem onlyChunkLines_ext :
    OnlyChunkLines smallFieldConf (chunkedBodyCon (str "5 ;a\r\nhello\r\n")) := by
  have harr : Arranged false (chunkedBodyCon (str "5 ;a\r\nhello\r\n")).readQueue.chunks :=
    ⟨rfl, by decide⟩
  refine (onlyChunkLines_iff _ _ rfl ⟨false, harr⟩).mpr ?_
  rintro ⟨line, t, size, blanks, rest, hbytes, hlf, hnul, h, hlax⟩
  have hline : IsChunkLine (str "5 ;a\r" ++ [LF]) :=
    ⟨str "5", [SP], str ";a", rfl, by decide +kernel, by decide +kernel, by decide +kernel,
      by decide +kernel, by decide +kernel⟩
  have hbytes' : (chunkedBodyCon (str "5 ;a\r\nhello\r\n")).readQueue.bytes =
      str "5 ;a\r" ++ LF :: str "hello\r\n" := rfl
  obtain ⟨rfl, -⟩ := append_cons_inj hlf (by decide) (hbytes.symm.trans hbytes')
  obtain ⟨hne, hr⟩ := (h.isChunkLine_iff hlf).mp hline
  exact hlax.elim hne fun hno => hno hr

/-- An empty line is the last chunk, and so ends the body. -/
theorem not_onlyChunkLines_empty :
    ¬ OnlyChunkLines smallFieldConf (chunkedBodyCon (str "\r\n\r\n")) := by
  intro honly
  have hbytes : (chunkedBodyCon (str "\r\n\r\n")).readQueue.bytes = [CR] ++ LF :: [CR, LF] := rfl
  have harr : Arranged false (chunkedBodyCon (str "\r\n\r\n")).readQueue.chunks := ⟨rfl, by decide⟩
  have hline : ¬ IsChunkLine ([CR] ++ [LF]) := fun h => by
    obtain ⟨d, w, heq, hd, -⟩ := h.exists_eq
    obtain ⟨rfl, -⟩ := List.cons.inj heq
    exact absurd hd (by decide)
  rcases not_badRequest_or_takesHeader harr rfl hbytes (by decide) (by decide)
    (show chunkSize _ 2 = some 0 by decide) with hno | htakes
  · rcases honly.refused _ _ hbytes (by decide) hline _ rfl List.prefix_rfl ⟨false, harr⟩ with
      hbad | ⟨hmem, -⟩
    · exact hno hbad
    · exact absurd hmem (by decide)
  · obtain ⟨line, t, hbytes', hlf, hline'⟩ := honly.consumed htakes
    obtain ⟨rfl, -⟩ := append_cons_inj (by decide) hlf (hbytes.symm.trans hbytes')
    exact hline hline'

end Lighttpd
