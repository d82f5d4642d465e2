import Lighttpd.Chunkqueue
import Lighttpd.HeaderEnd

/-!
# Cutting the request header out of the read queue

`connection_handle_read_state` scans the chunks of the read queue for the end of the
header block and moves the bytes up to it into `request.request`. The chunk and the
offset found are a `Location`; the chunk is counted from the one the scan starts in.

A CR starts a comparison with `CRLFCRLF` that runs over chunk boundaries (`scanCr`). An
LF is compared with the next byte. In the same chunk a second LF only leaves the loop
over that chunk, so the scan goes on with the next chunk and may replace the end it
found (`scanQueue`). `scanQueue_spec` says when this happens: `BreaksLate`.
-/

namespace Lighttpd

open CString

/-! ## The scan -/

/-- `last_chunk` and `last_offset`. -/
abbrev Location := ℕ × ℕ

/-- The location seen from the chunk before. -/
def Location.shift (l : Location) : Location := (l.1 + 1, l.2)

/-- What comparing one chunk with `header_end` gives. -/
inductive CrScan
  | found (lastOffset : ℕ)
  | mismatch
  | more (matchPos : ℕ)
  deriving DecidableEq, Repr

/-- The inner loop over `bb`, from position `j` of the chunk. -/
def scanCrChunk (matchPos j : ℕ) : Bytes → CrScan
  | [] => .more matchPos
  | ch :: bb =>
    if some ch = crlfcrlf[matchPos]? then
      if matchPos + 1 = 4 then .found (j + 1) else scanCrChunk (matchPos + 1) (j + 1) bb
    else .mismatch

/-- The loop over `cc` that looks for the rest of `header_end`. -/
def scanCr (matchPos j : ℕ) (bb : Bytes) (ccs : List Bytes) : Option Location :=
  match scanCrChunk matchPos j bb with
  | .found off => some (0, off)
  | .mismatch => none
  | .more p =>
    match ccs with
    | [] => none
    | bb' :: ccs' => (scanCr p 0 bb' ccs').map Location.shift

/-- The loop that skips empty chunks and looks for a second LF. -/
def scanLf : List Bytes → Option Location
  | [] => none
  | [] :: ccs => (scanLf ccs).map Location.shift
  | (ch :: _) :: _ => if ch = LF then some (0, 1) else none

/-- How the loop over one chunk ends: `goto found_header_end`, `break`, or at the end of
the chunk. -/
inductive ChunkScan
  | goto (l : Location)
  | brk (l : Location)
  | next
  deriving DecidableEq, Repr

/-- The loop over the bytes of one chunk, from position `i`. -/
def scanChunk (i : ℕ) (ccs : List Bytes) : Bytes → ChunkScan
  | [] => .next
  | ch :: b =>
    if ch = CR then
      match scanCr 1 (i + 1) b ccs with
      | some l => .goto l
      | none => scanChunk (i + 1) ccs b
    else if ch = LF then
      match b with
      | ch' :: _ => if ch' = LF then .brk (0, i + 2) else scanChunk (i + 1) ccs b
      | [] =>
        match scanLf ccs with
        | some l => .goto l.shift
        | none => scanChunk (i + 1) ccs b
    else scanChunk (i + 1) ccs b

/-- The loop over the chunks: the last value given to `last_chunk` and `last_offset`. -/
def scanQueue : List Bytes → Option Location
  | [] => none
  | b :: ccs =>
    match scanChunk 0 ccs b with
    | .goto l => some l
    | .brk l =>
      match scanQueue ccs with
      | some l' => some l'.shift
      | none => some l
    | .next => (scanQueue ccs).map Location.shift

/-- The loop that copies the header: the bytes appended to `request.request` and the
chunks afterwards. -/
def copyHeader : Location → List Chunk → Bytes × List Chunk
  | _, [] => ([], [])
  | (0, off), c :: cs =>
    if h : off ≤ c.remainingLength then (c.remaining.take off, c.advance off h :: cs)
    else ([], c :: cs)
  | (k + 1, off), c :: cs =>
    (c.remaining ++ (copyHeader (k, off) cs).1,
      c.advance c.remainingLength le_rfl :: (copyHeader (k, off) cs).2)

theorem copyHeader_content :
    ∀ (l : Location) (cs : List Chunk),
      (copyHeader l cs).1 ++ content (copyHeader l cs).2 = content cs
  | _, [] => rfl
  | (0, off), c :: cs => by
    rw [copyHeader]
    split_ifs with h
    · simp [← List.append_assoc]
    · simp
  | (k + 1, off), c :: cs => by
    have ih := copyHeader_content (k, off) cs
    have hdone : c.remaining.drop c.remainingLength = [] := by simp
    rw [copyHeader, content_cons, Chunk.remaining_advance, hdone, List.nil_append,
      List.append_assoc, ih, content_cons]

/-- The bytes moved to `request.request` and the read queue afterwards, when a header end
was found. -/
def readHeader (cq : Chunkqueue) : Option (Bytes × Chunkqueue) :=
  (scanQueue (cq.chunks.map Chunk.remaining)).map fun l =>
    ((copyHeader l cq.chunks).1,
      { cq with
        chunks := (copyHeader l cq.chunks).2
        bytesOut := cq.bytesOut + (copyHeader l cq.chunks).1.length
        balanced := by
          have h := congrArg List.length (copyHeader_content l cq.chunks)
          rw [List.length_append] at h
          rw [cq.balanced, ← h, Nat.add_assoc] })

inductive ConnectionState
  | connect
  | requestStart
  | read
  | requestEnd
  | readPost
  | handleRequest
  | responseStart
  | write
  | responseEnd
  | error
  | close
  deriving DecidableEq, Repr

/-- The fields of a connection that reading the header uses. -/
structure ReadCon where
  state : ConnectionState
  request : Bytes
  readQueue : Chunkqueue
  httpStatus : ℕ
  keepAlive : Bool
  deriving DecidableEq, Repr

/-- `connection_handle_read_state` after `network_read`; `isClosed` says that the peer
closed the connection. -/
def connectionHandleReadState (maxRequestFieldSize : ℕ) (isClosed : Bool) (con : ReadCon) :
    ReadCon :=
  let con := { con with readQueue := chunkqueueRemoveFinishedChunks con.readQueue }
  let found := readHeader con.readQueue
  let con :=
    match found with
    | some (header, cq) => { con with request := header, readQueue := cq, state := .requestEnd }
    | none => if isClosed then { con with state := .error } else con
  let size := if found.isSome then con.request.length else chunkqueueLength con.readQueue
  let con :=
    if size > maxRequestFieldSize then
      { con with httpStatus := 431, keepAlive := false, state := .handleRequest }
    else con
  { con with readQueue := chunkqueueRemoveFinishedChunks con.readQueue }

/-- The location splits the queue into the bytes `u` before it and the bytes `v` after. -/
def SplitsAt (cs : List Bytes) (l : Location) (u v : Bytes) : Prop :=
  ∃ pre c₁ c₂ post, cs = pre ++ (c₁ ++ c₂) :: post ∧ l = (pre.length, c₁.length) ∧
    u = pre.flatten ++ c₁ ∧ v = c₂ ++ post.flatten

theorem SplitsAt.here (c₁ c₂ : Bytes) (post : List Bytes) :
    SplitsAt ((c₁ ++ c₂) :: post) (0, c₁.length) c₁ (c₂ ++ post.flatten) :=
  ⟨[], c₁, c₂, post, rfl, rfl, rfl, rfl⟩

theorem SplitsAt.shift {cs : List Bytes} {l : Location} {u v : Bytes} (h : SplitsAt cs l u v)
    (b : Bytes) : SplitsAt (b :: cs) l.shift (b ++ u) v := by
  obtain ⟨pre, c₁, c₂, post, rfl, rfl, rfl, rfl⟩ := h
  exact ⟨b :: pre, c₁, c₂, post, rfl, rfl, by simp, rfl⟩

/-- Copying up to a location moves exactly the bytes before it. -/
theorem copyHeader_of_splitsAt {l : Location} {u v : Bytes} :
    ∀ {cs : List Chunk}, SplitsAt (cs.map Chunk.remaining) l u v →
      (copyHeader l cs).1 = u ∧ content (copyHeader l cs).2 = v
  | [], ⟨pre, _, _, _, h, _⟩ => by cases pre <;> simp at h
  | c :: cs, ⟨[], c₁, c₂, post, h, hl, hu, hv⟩ => by
    simp only [List.map_cons, List.nil_append, List.cons.injEq] at h
    obtain ⟨hc, rfl⟩ := h
    have hle : c₁.length ≤ c.remainingLength := by
      rw [← Chunk.length_remaining, hc]
      simp
    subst hl hu hv
    simp [copyHeader, hle, hc, content, List.flatMap_def]
  | c :: cs, ⟨b :: pre, c₁, c₂, post, h, hl, hu, hv⟩ => by
    simp only [List.map_cons, List.cons_append, List.cons.injEq] at h
    obtain ⟨hc, h⟩ := h
    have hsplit : SplitsAt (cs.map Chunk.remaining) (pre.length, c₁.length)
        (pre.flatten ++ c₁) (c₂ ++ post.flatten) := ⟨pre, c₁, c₂, post, h, rfl, rfl, rfl⟩
    obtain ⟨ih1, ih2⟩ := copyHeader_of_splitsAt hsplit
    subst hl hu hv
    simp [copyHeader, ih1, ih2, ← hc]

/-- What the result of comparing `bb` with the rest of `header_end` means. -/
def CrScan.Correct (matchPos j : ℕ) (bb : Bytes) : CrScan → Prop
  | .found off => ∃ v, bb = crlfcrlf.drop matchPos ++ v ∧ off = j + (crlfcrlf.drop matchPos).length
  | .mismatch => ∀ s, ¬ crlfcrlf.drop matchPos <+: bb ++ s
  | .more p => p < 4 ∧ crlfcrlf.drop matchPos = bb ++ crlfcrlf.drop p

theorem scanCrChunk_correct :
    ∀ {bb : Bytes} {p j : ℕ}, p < 4 → (scanCrChunk p j bb).Correct p j bb
  | [], p, j, hp => ⟨hp, rfl⟩
  | ch :: bb, p, j, hp => by
    have hdrop : crlfcrlf.drop p = crlfcrlf[p] :: crlfcrlf.drop (p + 1) :=
      List.drop_eq_getElem_cons hp
    rw [scanCrChunk, List.getElem?_eq_getElem hp]
    split_ifs with hch h4
    · cases hch
      refine ⟨bb, ?_, ?_⟩
      · rw [hdrop, h4]
        simp
      · rw [hdrop, h4]
        simp
    · cases hch
      have ih : (scanCrChunk (p + 1) (j + 1) bb).Correct (p + 1) (j + 1) bb :=
        scanCrChunk_correct (by omega)
      cases hr : scanCrChunk (p + 1) (j + 1) bb with
      | found off =>
        rw [hr] at ih
        obtain ⟨v, hv, hoff⟩ := ih
        exact ⟨v, by rw [hdrop, hv]; rfl, by rw [hdrop, hoff, List.length_cons]; omega⟩
      | mismatch =>
        rw [hr] at ih
        intro s hs
        rw [hdrop, List.cons_append, List.cons_prefix_cons] at hs
        exact ih s hs.2
      | more p' =>
        rw [hr] at ih
        exact ⟨ih.1, by rw [hdrop, ih.2]; rfl⟩
    · intro s hs
      rw [hdrop, List.cons_append, List.cons_prefix_cons] at hs
      exact hch (by rw [hs.1])

/-- The comparison over chunks finds the rest of CRLFCRLF exactly when it is there. -/
theorem scanCr_spec :
    ∀ (ccs : List Bytes) {p : ℕ} (c₁ bb : Bytes), p < 4 →
      match scanCr p c₁.length bb ccs with
      | some l => ∃ v, bb ++ ccs.flatten = crlfcrlf.drop p ++ v ∧
          SplitsAt ((c₁ ++ bb) :: ccs) l (c₁ ++ crlfcrlf.drop p) v
      | none => ¬ crlfcrlf.drop p <+: bb ++ ccs.flatten
  | ccs, p, c₁, bb, hp => by
    have h : (scanCrChunk p c₁.length bb).Correct p c₁.length bb := scanCrChunk_correct hp
    cases hr : scanCrChunk p c₁.length bb with
    | found off =>
      rw [hr] at h
      obtain ⟨v, rfl, rfl⟩ := h
      unfold scanCr
      simp only [hr]
      refine ⟨v ++ ccs.flatten, by simp, ?_⟩
      simpa using SplitsAt.here (c₁ ++ crlfcrlf.drop p) v ccs
    | mismatch =>
      rw [hr] at h
      unfold scanCr
      simp only [hr]
      exact h _
    | more p' =>
      rw [hr] at h
      obtain ⟨hp', hdrop⟩ := h
      cases ccs with
      | nil =>
        unfold scanCr
        simp only [hr]
        intro hpre
        have hlen := hpre.length_le
        rw [hdrop] at hlen
        simp at hlen
        omega
      | cons bb' ccs' =>
        have ih := scanCr_spec ccs' (p := p') [] bb' hp'
        unfold scanCr
        simp only [hr]
        cases hr' : scanCr p' 0 bb' ccs' with
        | none =>
          simp only [List.length_nil, hr'] at ih
          simp only [Option.map_none, hdrop, List.flatten_cons]
          exact fun hpre => ih ((List.prefix_append_right_inj bb).mp hpre)
        | some l =>
          simp only [List.length_nil, hr', List.nil_append] at ih
          obtain ⟨v, hv, hl⟩ := ih
          refine ⟨v, by rw [hdrop, List.flatten_cons, hv, List.append_assoc], ?_⟩
          simpa [hdrop] using hl.shift (c₁ ++ bb)

/-- The search for a second LF in later chunks finds it exactly when it comes next. -/
theorem scanLf_spec :
    ∀ (ccs : List Bytes),
      match scanLf ccs with
      | some l => ∃ v, ccs.flatten = LF :: v ∧ SplitsAt ccs l [LF] v
      | none => ¬ [LF] <+: ccs.flatten
  | [] => by simp [scanLf]
  | [] :: ccs => by
    have ih := scanLf_spec ccs
    rw [scanLf]
    cases hr : scanLf ccs with
    | none => simpa [hr] using ih
    | some l =>
      simp only [hr] at ih
      obtain ⟨v, hv, hl⟩ := ih
      exact ⟨v, by simpa using hv, by simpa using hl.shift []⟩
  | (ch :: b) :: ccs => by
    rw [scanLf]
    split_ifs with h
    · subst h
      exact ⟨b ++ ccs.flatten, rfl, SplitsAt.here [LF] b ccs⟩
    · simpa [eq_comm] using h

/-- What the result of scanning the part `b` of the chunk `c₁ ++ b` means for the header
end of what follows `c₁`. -/
def ChunkScan.Correct (c₁ b : Bytes) (ccs : List Bytes) : ChunkScan → Prop
  | .goto l => ∃ n, headerEnd (b ++ ccs.flatten) = some n ∧
      SplitsAt ((c₁ ++ b) :: ccs) l (c₁ ++ (b ++ ccs.flatten).take n)
        ((b ++ ccs.flatten).drop n) ∧
      (crlfcrlf <:+ (b ++ ccs.flatten).take n ∨ n = b.length + 1)
  | .brk l => ∃ n, headerEnd (b ++ ccs.flatten) = some n ∧ n ≤ b.length ∧
      lflf <:+ b.take n ∧ l = (0, c₁.length + n)
  | .next => headerEnd (b ++ ccs.flatten) = (headerEnd ccs.flatten).map (· + b.length)

theorem headerEnd_cons_of_not {c : UInt8} {s : Bytes} (h4 : ¬ crlfcrlf <+: c :: s)
    (h2 : ¬ lflf <+: c :: s) : headerEnd (c :: s) = (headerEnd s).map (· + 1) := by
  simp [headerEnd, List.isPrefixOf_iff_prefix, h4, h2]

/-- A byte that starts no header end only moves the positions by one. -/
theorem ChunkScan.Correct.cons {ch : UInt8} {c₁ b : Bytes} {ccs : List Bytes} {r : ChunkScan}
    (hend : headerEnd (ch :: (b ++ ccs.flatten)) = (headerEnd (b ++ ccs.flatten)).map (· + 1))
    (h : r.Correct (c₁ ++ [ch]) b ccs) : r.Correct c₁ (ch :: b) ccs := by
  cases r with
  | goto l =>
    obtain ⟨n, hn, hl, hor⟩ := h
    refine ⟨n + 1, by rw [List.cons_append, hend, hn]; rfl, by simpa using hl, ?_⟩
    refine hor.imp (fun h => ?_) fun h => by rw [h, List.length_cons]
    exact h.trans (by simp)
  | brk l =>
    obtain ⟨n, hn, hle, hlf, hl⟩ := h
    refine ⟨n + 1, by rw [List.cons_append, hend, hn]; rfl, by simpa using hle, ?_, ?_⟩
    · exact hlf.trans (by simp)
    · rw [hl]
      simp
      omega
  | next =>
    have h : headerEnd (b ++ ccs.flatten) = (headerEnd ccs.flatten).map (· + b.length) := h
    change headerEnd (ch :: b ++ ccs.flatten) = _
    rw [List.cons_append, hend, h, Option.map_map]
    rfl

theorem scanChunk_correct (ccs : List Bytes) :
    ∀ (c₁ b : Bytes), (scanChunk c₁.length ccs b).Correct c₁ b ccs
  | c₁, [] => by
    change headerEnd _ = _
    simp
  | c₁, ch :: b => by
    have ih := scanChunk_correct ccs (c₁ ++ [ch]) b
    rw [List.length_append, List.length_singleton] at ih
    rw [scanChunk.eq_def]
    simp only
    split_ifs with hcr hlf
    · subst hcr
      have hsc := scanCr_spec ccs (p := 1) (c₁ ++ [CR]) b (by omega)
      rw [List.length_append, List.length_singleton] at hsc
      cases hr : scanCr 1 (c₁.length + 1) b ccs with
      | some l =>
        simp only [hr] at hsc ⊢
        obtain ⟨v, hv, hl⟩ := hsc
        have hall : CR :: b ++ ccs.flatten = crlfcrlf ++ v := by
          rw [List.cons_append, hv]
          rfl
        refine ⟨4, ?_, ?_, .inl ?_⟩
        · rw [hall]
          simp [headerEnd]
        · simpa [hall] using hl
        · rw [hall]
          simp
      | none =>
        simp only [hr] at hsc ⊢
        refine ih.cons (headerEnd_cons_of_not (fun h => hsc ?_) fun h => ?_)
        · exact (List.cons_prefix_cons.mp h).2
        · exact absurd (List.cons_prefix_cons.mp h).1 (by decide)
    · subst hlf
      have hne : ¬ CR = LF := by decide
      have hno4 : ∀ s, ¬ crlfcrlf <+: LF :: s := fun s h =>
        absurd (List.cons_prefix_cons.mp h).1 (by decide)
      cases b with
      | cons ch' b' =>
        simp only
        split_ifs with h'
        · subst h'
          refine ⟨2, ?_, by simp, by simp, rfl⟩
          simp [headerEnd, hne]
        · refine ih.cons (headerEnd_cons_of_not (hno4 _) fun h => h' ?_)
          have h := (List.cons_prefix_cons.mp h).2
          rw [List.cons_append, List.cons_prefix_cons] at h
          exact h.1.symm
      | nil =>
        have hsl := scanLf_spec ccs
        cases hr : scanLf ccs with
        | some l =>
          simp only [hr] at hsl ⊢
          obtain ⟨v, hv, hl⟩ := hsl
          refine ⟨2, ?_, ?_, .inr rfl⟩
          · simp [headerEnd, hv, hne]
          · simpa [hv] using hl.shift (c₁ ++ [LF])
        | none =>
          simp only [hr] at hsl ⊢
          refine ih.cons (headerEnd_cons_of_not (hno4 _) fun h => hsl ?_)
          exact (List.cons_prefix_cons.mp h).2
    · refine ih.cons (headerEnd_cons_of_not (fun h => hcr ?_) fun h => hlf ?_)
      · exact (List.cons_prefix_cons.mp h).1.symm
      · exact (List.cons_prefix_cons.mp h).1.symm

/-- The header end lies in a chunk, is an `LFLF` of that chunk alone, and the bytes behind
the chunk hold another header end: the scan leaves that chunk only and goes on. -/
def BreaksLate (cs : List Bytes) : Prop :=
  ∃ pre c post n, cs = pre ++ c :: post ∧
    headerEnd cs.flatten = some (pre.flatten.length + n) ∧ n ≤ c.length ∧
    lflf <:+ c.take n ∧ headerEnd post.flatten ≠ none

variable {n : ℕ} {b : Bytes} {ccs : List Bytes}

theorem BreaksLate.lflf_suffix {cs : List Bytes} (h : BreaksLate cs)
    (hn : headerEnd cs.flatten = some n) : lflf <:+ cs.flatten.take n := by
  obtain ⟨pre, c, post, m, rfl, hm, hle, hlf, -⟩ := h
  rw [hm, Option.some.injEq] at hn
  subst hn
  rw [List.flatten_append, List.flatten_cons, List.take_append,
    List.take_of_length_le (Nat.le_add_right _ _), Nat.add_sub_cancel_left,
    List.take_append_of_le_length hle]
  exact hlf.trans (List.suffix_append _ _)

/-- A header end just behind the first chunk's end is not within any one chunk. -/
theorem not_breaksLate_of_eq (hn : headerEnd (b :: ccs).flatten = some n) (hb : n = b.length + 1) :
    ¬ BreaksLate (b :: ccs) := by
  rintro ⟨pre, c, post, m, hcs, hm, hle, hlf, -⟩
  have h2 : 2 ≤ m := by
    have := hlf.length_le
    simp at this
    omega
  rw [hn, Option.some.injEq] at hm
  cases pre with
  | nil =>
    simp only [List.nil_append, List.cons.injEq] at hcs
    obtain ⟨rfl, rfl⟩ := hcs
    simp at hm
    omega
  | cons b' pre =>
    simp only [List.cons_append, List.cons.injEq] at hcs
    obtain ⟨rfl, rfl⟩ := hcs
    simp at hm
    omega

/-- An `LFLF` in the first chunk is left late exactly when later chunks hold a header
end. -/
theorem breaksLate_cons_of_le (hn : headerEnd (b :: ccs).flatten = some n) (hle : n ≤ b.length)
    (hlf : lflf <:+ b.take n) : BreaksLate (b :: ccs) ↔ headerEnd ccs.flatten ≠ none := by
  refine ⟨?_, fun h => ⟨[], b, ccs, n, rfl, by simpa using hn, hle, hlf, h⟩⟩
  rintro ⟨pre, c, post, m, hcs, hm, hle', hlf', hpost⟩
  have h2 : 2 ≤ m := by
    have := hlf'.length_le
    simp at this
    omega
  rw [hn, Option.some.injEq] at hm
  cases pre with
  | nil =>
    simp only [List.nil_append, List.cons.injEq] at hcs
    obtain ⟨rfl, rfl⟩ := hcs
    exact hpost
  | cons b' pre =>
    simp only [List.cons_append, List.cons.injEq] at hcs
    obtain ⟨rfl, rfl⟩ := hcs
    simp at hm
    omega

theorem breaksLate_cons_of_next
    (h : headerEnd (b :: ccs).flatten = (headerEnd ccs.flatten).map (· + b.length)) :
    BreaksLate (b :: ccs) ↔ BreaksLate ccs := by
  refine ⟨?_, ?_⟩
  · rintro ⟨pre, c, post, m, hcs, hm, hle, hlf, hpost⟩
    rw [h, Option.map_eq_some_iff] at hm
    obtain ⟨k, hk, hkm⟩ := hm
    have h2 := headerEnd_two_le hk
    cases pre with
    | nil =>
      simp only [List.nil_append, List.cons.injEq] at hcs
      obtain ⟨rfl, rfl⟩ := hcs
      simp at hkm
      omega
    | cons b' pre =>
      simp only [List.cons_append, List.cons.injEq] at hcs
      obtain ⟨rfl, hcs⟩ := hcs
      refine ⟨pre, c, post, m, hcs, ?_, hle, hlf, hpost⟩
      rw [hk, Option.some.injEq]
      simp only [List.flatten_cons, List.length_append] at hkm
      omega
  · rintro ⟨pre, c, post, m, rfl, hm, hle, hlf, hpost⟩
    refine ⟨b :: pre, c, post, m, rfl, ?_, hle, hlf, hpost⟩
    rw [h, hm, Option.map_some, List.flatten_cons, List.length_append]
    congr 1
    omega

/-- What the scan of the queue gives: no location exactly when there is no header end, and
otherwise a location at the header end, unless the scan breaks late. -/
theorem scanQueue_spec :
    ∀ (cs : List Bytes),
      match scanQueue cs with
      | none => headerEnd cs.flatten = none
      | some l => ∃ u v n, SplitsAt cs l u v ∧ headerEnd cs.flatten = some n ∧
          n ≤ u.length ∧ (u.length = n ↔ ¬ BreaksLate cs)
  | [] => rfl
  | b :: ccs => by
    have hb := scanChunk_correct ccs [] b
    have ih := scanQueue_spec ccs
    rw [List.length_nil] at hb
    rw [scanQueue]
    cases hr : scanChunk 0 ccs b with
    | goto l =>
      rw [hr] at hb
      obtain ⟨n, hn, hl, hor⟩ := hb
      have hnle := (headerEnd_eq_some_iff.mp hn).1
      have hlen : ((b ++ ccs.flatten).take n).length = n := by simpa using hnle
      refine ⟨_, _, n, by simpa using hl, hn, hlen.ge, iff_of_true hlen ?_⟩
      rcases hor with h4 | hb1
      · intro hlate
        have h2 := hlate.lflf_suffix hn
        have := List.suffix_of_suffix_length_le h2 h4 (by simp)
        exact absurd this (by decide)
      · exact not_breaksLate_of_eq hn hb1
    | brk l =>
      rw [hr] at hb
      obtain ⟨n, hn, hle, hlf, rfl⟩ := hb
      have hlate := breaksLate_cons_of_le hn hle hlf
      cases hq : scanQueue ccs with
      | none =>
        simp only [hq] at ih
        have hlen : (b.take n).length = n := by simpa using hle
        refine ⟨b.take n, b.drop n ++ ccs.flatten, n, ?_, hn, hlen.ge, ?_⟩
        · have h := SplitsAt.here (b.take n) (b.drop n) ccs
          rw [List.take_append_drop, hlen] at h
          simpa using h
        · exact iff_of_true hlen fun h => hlate.mp h ih
      | some l' =>
        simp only [hq] at ih
        obtain ⟨u, v, n', hl', hn', hle', -⟩ := ih
        have h2 := headerEnd_two_le hn'
        have hlong : n < (b ++ u).length := by
          rw [List.length_append]
          omega
        refine ⟨b ++ u, v, n, hl'.shift b, hn, hlong.le, ?_⟩
        refine iff_of_false hlong.ne' (not_not.mpr (hlate.mpr ?_))
        rw [hn']
        exact Option.some_ne_none n'
    | next =>
      rw [hr] at hb
      have hend : headerEnd (b :: ccs).flatten = (headerEnd ccs.flatten).map (· + b.length) := hb
      have hlate := breaksLate_cons_of_next hend
      cases hq : scanQueue ccs with
      | none =>
        simp only [hq] at ih
        simp only [Option.map_none, hend, ih]
      | some l' =>
        simp only [hq] at ih
        obtain ⟨u, v, n, hl', hn, hle, hiff⟩ := ih
        refine ⟨b ++ u, v, n + b.length, hl'.shift b, by rw [hend, hn]; rfl, ?_, ?_⟩
        · rw [List.length_append]
          omega
        · rw [hlate, ← hiff, List.length_append]
          omega

/-! ## Cutting the header block -/

theorem breaksLate_nil_cons {cs : List Bytes} : BreaksLate ([] :: cs) ↔ BreaksLate cs :=
  breaksLate_cons_of_next (by simp)

theorem breaksLate_dropWhile :
    ∀ (cs : List Chunk),
      BreaksLate ((cs.dropWhile fun c => c.remainingLength = 0).map Chunk.remaining) ↔
        BreaksLate (cs.map Chunk.remaining)
  | [] => Iff.rfl
  | c :: cs => by
    rw [List.dropWhile_cons]
    split_ifs with h
    · rw [List.map_cons, (Chunk.remaining_eq_nil_iff c).mpr (by simpa using h),
        breaksLate_nil_cons]
      exact breaksLate_dropWhile cs
    · rfl

/-- `B` holds one of the two header ends. -/
def ContainsHeaderEnd (B : Bytes) : Prop := crlfcrlf <:+: B ∨ lflf <:+: B

theorem headerEnd_ne_none_iff {B : Bytes} : headerEnd B ≠ none ↔ ContainsHeaderEnd B := by
  have hinfix : ∀ t : Bytes, t <:+: B ↔ ∃ R, R <+: B ∧ t <:+ R := by
    intro t
    refine ⟨?_, ?_⟩
    · rintro ⟨u, v, rfl⟩
      exact ⟨u ++ t, List.prefix_append _ _, List.suffix_append _ _⟩
    · rintro ⟨R, ⟨v, rfl⟩, ⟨u, rfl⟩⟩
      exact ⟨u, v, rfl⟩
  rw [ne_eq, headerEnd_eq_none_iff]
  simp only [not_forall, not_not, ContainsHeaderEnd, hinfix, EndsHeader]
  refine ⟨?_, ?_⟩
  · rintro ⟨R, hR, h | h⟩
    · exact .inl ⟨R, hR, h⟩
    · exact .inr ⟨R, hR, h⟩
  · rintro (⟨R, hR, h⟩ | ⟨R, hR, h⟩)
    · exact ⟨R, hR, .inl h⟩
    · exact ⟨R, hR, .inr h⟩

theorem content_eq_flatten (cs : List Chunk) : content cs = (cs.map Chunk.remaining).flatten :=
  List.flatMap_def

/-- The scan misses no header end and finds none that is not there. -/
theorem readHeader_isSome_iff (cq : Chunkqueue) :
    (readHeader cq).isSome ↔ ContainsHeaderEnd cq.bytes := by
  have h := scanQueue_spec (cq.chunks.map Chunk.remaining)
  rw [← headerEnd_ne_none_iff, Chunkqueue.bytes, content_eq_flatten, readHeader]
  cases hq : scanQueue (cq.chunks.map Chunk.remaining) with
  | none => simpa [hq] using h
  | some l =>
    simp only [hq] at h
    obtain ⟨u, v, n, -, hn, -⟩ := h
    simp [hn]

/-- What is moved and what stays are the bytes of the queue, and what is moved is the header
block exactly when the scan does not break late. -/
theorem readHeader_spec {cq cq' : Chunkqueue} {R : Bytes} (h : readHeader cq = some (R, cq')) :
    R ++ cq'.bytes = cq.bytes ∧
      (IsHeaderBlock cq.bytes R ↔ ¬ BreaksLate (cq.chunks.map Chunk.remaining)) := by
  have hspec := scanQueue_spec (cq.chunks.map Chunk.remaining)
  rw [readHeader, Option.map_eq_some_iff] at h
  obtain ⟨l, hl, h⟩ := h
  rw [Prod.mk.injEq] at h
  obtain ⟨rfl, rfl⟩ := h
  have hcontent := copyHeader_content l cq.chunks
  simp only [hl] at hspec
  obtain ⟨u, v, n, hsplit, hn, -, hiff⟩ := hspec
  refine ⟨hcontent, ?_⟩
  rw [Chunkqueue.bytes, isHeaderBlock_iff ⟨_, hcontent⟩, content_eq_flatten, hn,
    (copyHeader_of_splitsAt hsplit).1, ← hiff, Option.some.injEq]
  exact eq_comm

/-- The scan that `connection_handle_read_state` makes. -/
def headerScan (con : ReadCon) : Option (Bytes × Chunkqueue) :=
  readHeader (chunkqueueRemoveFinishedChunks con.readQueue)

/-- The step that the header scan of a read queue is for: it is found when it is there, the
header block is moved to `request.request` and the rest stays. -/
def CutsHeaderBlock (con con' : ReadCon) : Prop :=
  ((headerScan con).isSome ↔ ContainsHeaderEnd con.readQueue.bytes) ∧
    if (headerScan con).isSome then
      IsHeaderBlock con.readQueue.bytes con'.request ∧
        con'.request ++ con'.readQueue.bytes = con.readQueue.bytes
    else con'.request = con.request ∧ con'.readQueue.bytes = con.readQueue.bytes

theorem connectionHandleReadState_request (maxRequestFieldSize : ℕ) (isClosed : Bool)
    (con : ReadCon) :
    (connectionHandleReadState maxRequestFieldSize isClosed con).request =
      ((headerScan con).map Prod.fst).getD con.request := by
  unfold connectionHandleReadState headerScan
  rcases hr : readHeader (chunkqueueRemoveFinishedChunks con.readQueue) with _ | ⟨R, cq'⟩
  · simp only [hr]
    split_ifs <;> rfl
  · simp only [hr]
    split_ifs <;> rfl

theorem connectionHandleReadState_readQueue (maxRequestFieldSize : ℕ) (isClosed : Bool)
    (con : ReadCon) :
    (connectionHandleReadState maxRequestFieldSize isClosed con).readQueue.bytes =
      (((headerScan con).map Prod.snd).getD con.readQueue).bytes := by
  unfold connectionHandleReadState headerScan
  rcases hr : readHeader (chunkqueueRemoveFinishedChunks con.readQueue) with _ | ⟨R, cq'⟩
  · simp only [hr]
    split_ifs <;> simp
  · simp only [hr]
    split_ifs <;> simp

/-- The header block is cut whole and alone from every queue that the scan does not leave
late, and from no other. -/
theorem connectionHandleReadState_cuts_iff (maxRequestFieldSize : ℕ) (isClosed : Bool)
    (con : ReadCon) :
    CutsHeaderBlock con (connectionHandleReadState maxRequestFieldSize isClosed con) ↔
      ¬ BreaksLate (con.readQueue.chunks.map Chunk.remaining) := by
  have hbytes : (chunkqueueRemoveFinishedChunks con.readQueue).bytes = con.readQueue.bytes :=
    bytes_removeFinishedChunks _
  have hfound : (headerScan con).isSome ↔ ContainsHeaderEnd con.readQueue.bytes := by
    rw [headerScan, readHeader_isSome_iff, hbytes]
  have hlate := breaksLate_dropWhile con.readQueue.chunks
  rw [CutsHeaderBlock, connectionHandleReadState_request, connectionHandleReadState_readQueue]
  cases hs : headerScan con with
  | none =>
    have hnone : headerEnd (con.readQueue.chunks.map Chunk.remaining).flatten = none := by
      rw [← content_eq_flatten]
      by_contra h
      simpa [hs] using hfound.mpr (headerEnd_ne_none_iff.mp h)
    refine iff_of_true ⟨by rw [← hs]; exact hfound, by simp⟩ ?_
    rintro ⟨pre, c, post, n, -, hn, -⟩
    simp [hnone] at hn
  | some r =>
    obtain ⟨R, cq'⟩ := r
    obtain ⟨hcat, hiff⟩ := readHeader_spec hs
    rw [hbytes] at hcat hiff
    rw [← hlate]
    refine Iff.trans ?_ hiff
    refine ⟨fun h => h.2.1, fun h => ⟨by rw [← hs]; exact hfound, h, hcat⟩⟩

/-- A read queue of two chunks that each hold `LFLF`. -/
def lateReadCon : ReadCon where
  state := .read
  request := []
  readQueue := chunkqueueAppendMem (chunkqueueAppendMem (chunkqueueInit 0 0) lflf) lflf
  httpStatus := 0
  keepAlive := true

theorem connectionHandleReadState_not_cuts :
    ¬ ∀ (maxRequestFieldSize : ℕ) (isClosed : Bool) (con : ReadCon),
      CutsHeaderBlock con (connectionHandleReadState maxRequestFieldSize isClosed con) := by
  intro h
  have hcut := (h 8192 false lateReadCon).2
  rw [if_pos (by decide)] at hcut
  exact absurd hcut.1.2.2 (by
    intro hmin
    exact absurd (hmin lflf (by decide) (by decide)) (by decide))

end Lighttpd
