import Lighttpd.Chunkqueue

/-!
# Moving bytes to tempfiles

`chunkqueue_append_mem_to_tempfile` appends to the tempfile at the end of a queue, or opens a
new one, and `chunkqueue_steal_with_tempfiles` moves the bytes of a queue into tempfiles. What
the system calls do is a list of outcomes that are used up one by one; when a list is empty the
call succeeds.
-/

namespace Lighttpd

open CString

/-- `mkstemp` and the `fcntl` behind it. -/
inductive OpenResult
  | opened
  | mkstempFailed
  | fcntlFailed
  deriving DecidableEq, Repr

/-- `write`: a number of octets, or -1 with `EINTR`, `ENOSPC` or another error. -/
inductive WriteResult
  | written (n : ℕ)
  | eintr
  | enospc
  | failed
  deriving DecidableEq, Repr

/-- The outcomes of the calls to come; `closes` says which `close` succeed. -/
structure TempIo where
  opens : List OpenResult
  writes : List WriteResult
  closes : List Bool
  deriving DecidableEq, Repr

/-- Every call succeeds. -/
def TempIo.success : TempIo := ⟨[], [], []⟩

/-- A queue after an operation on tempfiles, and whether the operation returned zero. -/
structure TempResult where
  ok : Bool
  queue : Chunkqueue
  io : TempIo

/-- The file behind the last chunk is a tempfile that is appended to. -/
def appendableTempfile (cq : Chunkqueue) : Option Chunk :=
  match cq.chunks.getLast? with
  | some c => if c.type = .file ∧ c.isTemp ∧ c.fd ∧ c.offset = 0 then some c else none
  | none => none

/-- `close(c->file.fd); c->file.fd = -1` for the last chunk. -/
def closeLast (cq : Chunkqueue) : Chunkqueue :=
  match h : cq.chunks.getLast? with
  | some c =>
    { cq with
      chunks := cq.chunks.dropLast ++ [{ c with fd := false }]
      balanced := by
        have hb := cq.balanced
        rw [← List.dropLast_append_getLast? c h] at hb
        simpa [Chunk.remaining] using hb }
  | none => cq

theorem offset_le_length_append (c : Chunk) (s : Bytes) : c.offset ≤ (c.data ++ s).length := by
  rw [List.length_append]
  exact c.offset_le.trans (Nat.le_add_right _ _)

theorem appendToLast_balanced (cq : Chunkqueue) (s : Bytes) (c : Chunk)
    (h : cq.chunks.getLast? = some c) : cq.bytesIn + s.length = cq.bytesOut +
      (content (cq.chunks.dropLast ++
        [{ c with data := c.data ++ s, offset_le := offset_le_length_append c s }])).length := by
  have hb := cq.balanced
  have hl := c.offset_le
  rw [← List.dropLast_append_getLast? c h] at hb
  simp only [content_append, List.length_append, content_cons, content_nil,
    List.append_nil, Chunk.length_remaining, Chunk.remainingLength] at hb ⊢
  omega

/-- `length += n; bytes_in += n` for `n` octets that were written behind the last chunk. -/
def appendToLast (cq : Chunkqueue) (s : Bytes) : Chunkqueue :=
  match h : cq.chunks.getLast? with
  | some c =>
    { cq with
      chunks := cq.chunks.dropLast ++
        [{ c with data := c.data ++ s, offset_le := offset_le_length_append c s }]
      bytesIn := cq.bytesIn + s.length
      balanced := appendToLast_balanced cq s c h }
  | none => cq

/-- The loop of `chunkqueue_remove_empty_chunks`. The chunk behind a removed one is taken as it
is. -/
def removeEmptyLoop : List Chunk → List Chunk
  | c :: d :: cs =>
    if d.remainingLength = 0 then c :: removeEmptyLoop cs else c :: removeEmptyLoop (d :: cs)
  | cs => cs

theorem content_removeEmptyLoop : ∀ cs : List Chunk, content (removeEmptyLoop cs) = content cs
  | [] => rfl
  | [c] => rfl
  | c :: d :: cs => by
    rw [removeEmptyLoop]
    split_ifs with h
    · rw [content_cons, content_removeEmptyLoop cs, content_cons, content_cons,
        (Chunk.remaining_eq_nil_iff d).mpr h, List.nil_append]
    · rw [content_cons, content_removeEmptyLoop (d :: cs), content_cons c (d :: cs)]

/-- `chunkqueue_remove_empty_chunks`. -/
def chunkqueueRemoveEmptyChunks (cq : Chunkqueue) : Chunkqueue :=
  let cq := chunkqueueRemoveFinishedChunks cq
  { cq with
    chunks := removeEmptyLoop cq.chunks
    balanced := by rw [content_removeEmptyLoop, cq.balanced] }

/-- The loop over the directories for tempfiles; `left` of them are left. The result is the
number of those that failed, and whether a file is open. -/
def mkstempLoop : ℕ → List OpenResult → ℕ × Bool × List OpenResult
  | 0, opens => (0, false, opens)
  | left + 1, opens =>
    match opens with
    | [] => (0, true, [])
    | .opened :: opens => (0, true, opens)
    | .fcntlFailed :: opens => (0, false, opens)
    | .mkstempFailed :: opens =>
      let r := mkstempLoop left opens
      (r.1 + 1, r.2)

/-- `cq->tempdir_idx += n`, when directories are configured. -/
def advanceTempdir (cq : Chunkqueue) (n : ℕ) : Chunkqueue :=
  { cq with tempdirIdx := if cq.tempdirs ≠ 0 then cq.tempdirIdx + n else cq.tempdirIdx }

/-- `chunkqueue_get_append_tempfile`. -/
def chunkqueueGetAppendTempfile (cq : Chunkqueue) (io : TempIo) : TempResult :=
  let dirs := if cq.tempdirs ≠ 0 then cq.tempdirs - cq.tempdirIdx else 1
  let r := mkstempLoop dirs io.opens
  let io := { io with opens := r.2.2 }
  if r.2.1 then ⟨true, chunkqueueAppendChunk (advanceTempdir cq r.1) (.ofTemp []), io⟩
  else ⟨false, advanceTempdir cq r.1, io⟩

/-- `close` on the last chunk. -/
def closeTempfile (cq : Chunkqueue) (io : TempIo) : TempResult :=
  ⟨io.closes.headD true, closeLast cq, { io with closes := io.closes.tail }⟩

/-- The part of a turn of `chunkqueue_append_mem_to_tempfile` before the `write`: the last
chunk is then the tempfile to write to. -/
def openTempfile (dest : Chunkqueue) (io : TempIo) : TempResult :=
  match appendableTempfile dest with
  | some c =>
    if c.data.length ≥ dest.uploadTempFileSize then
      let r := closeTempfile dest io
      if r.ok then chunkqueueGetAppendTempfile r.queue r.io else r
    else ⟨true, dest, io⟩
  | none => chunkqueueGetAppendTempfile dest io

/-- What follows a `write` that failed: the queue and whether it is tried again. -/
def writeFailed (dest : Chunkqueue) (io : TempIo) (isEnospc : Bool) : TempResult :=
  let dest := if isEnospc then advanceTempdir dest 1 else dest
  let retry := isEnospc ∧ dest.tempdirs ≠ 0 ∧ dest.tempdirIdx < dest.tempdirs
  if ((dest.chunks.getLast?.map Chunk.remainingLength).getD 0) = 0 then
    ⟨retry, chunkqueueRemoveEmptyChunks dest, io⟩
  else
    let r := closeTempfile dest io
    { r with ok := r.ok ∧ retry }

/-- The turns of `chunkqueue_append_mem_to_tempfile`, one for each `write`. -/
def appendMemToTempfileLoop (dest : Chunkqueue) (mem : Bytes) (opens : List OpenResult)
    (closes : List Bool) : List WriteResult → TempResult
  | [] =>
    let r := openTempfile dest ⟨opens, [], closes⟩
    if r.ok then { r with queue := appendToLast r.queue mem } else r
  | w :: writes =>
    let r := openTempfile dest ⟨opens, w :: writes, closes⟩
    if ¬ r.ok then r
    else
      let io := { r.io with writes := writes }
      match w with
      | .written n =>
        let queue := appendToLast r.queue (mem.take n)
        if mem.length ≤ n then ⟨true, queue, io⟩
        else appendMemToTempfileLoop queue (mem.drop n) io.opens io.closes writes
      | .eintr => appendMemToTempfileLoop r.queue mem io.opens io.closes writes
      | .enospc =>
        let f := writeFailed r.queue io true
        if f.ok then appendMemToTempfileLoop f.queue mem f.io.opens f.io.closes writes else f
      | .failed =>
        let f := writeFailed r.queue io false
        if f.ok then appendMemToTempfileLoop f.queue mem f.io.opens f.io.closes writes else f

/-- `chunkqueue_append_mem_to_tempfile`. -/
def chunkqueueAppendMemToTempfile (dest : Chunkqueue) (mem : Bytes) (io : TempIo) : TempResult :=
  appendMemToTempfileLoop dest mem io.opens io.closes io.writes

/-! ## What an append leaves -/

/-- The queue after an append: `s` is behind the bytes that were there. -/
def Appended (cq cq' : Chunkqueue) (s : Bytes) : Prop :=
  cq'.bytes = cq.bytes ++ s ∧ cq'.bytesIn = cq.bytesIn + s.length

theorem Appended.refl (cq : Chunkqueue) : Appended cq cq [] := ⟨by simp, rfl⟩

theorem Appended.trans {cq₁ cq₂ cq₃ : Chunkqueue} {s t : Bytes} (h : Appended cq₁ cq₂ s)
    (h' : Appended cq₂ cq₃ t) : Appended cq₁ cq₃ (s ++ t) :=
  ⟨by rw [h'.1, h.1, List.append_assoc], by rw [h'.2, h.2, List.length_append, Nat.add_assoc]⟩

theorem appended_closeLast (cq : Chunkqueue) : Appended cq (closeLast cq) [] := by
  unfold closeLast
  split
  · next c h =>
    refine ⟨?_, rfl⟩
    conv_rhs => rw [Chunkqueue.bytes, ← List.dropLast_append_getLast? c h]
    simp [Chunkqueue.bytes, Chunk.remaining]
  · exact .refl cq

variable {cq dest : Chunkqueue}

theorem appended_appendToLast (h : cq.chunks ≠ []) (s : Bytes) :
    Appended cq (appendToLast cq s) s := by
  unfold appendToLast
  split
  · next c hc =>
    have hl := c.offset_le
    refine ⟨?_, rfl⟩
    conv_rhs => rw [Chunkqueue.bytes, ← List.dropLast_append_getLast? c hc]
    simp [Chunkqueue.bytes, Chunk.remaining, List.drop_append_of_le_length hl]
  · next hc => exact absurd (List.getLast?_eq_none_iff.mp hc) h

theorem appended_removeEmptyChunks (cq : Chunkqueue) :
    Appended cq (chunkqueueRemoveEmptyChunks cq) [] := by
  refine ⟨?_, rfl⟩
  rw [List.append_nil, ← bytes_removeFinishedChunks cq]
  exact content_removeEmptyLoop _

theorem appended_advanceTempdir (cq : Chunkqueue) (n : ℕ) :
    Appended cq (advanceTempdir cq n) [] :=
  ⟨by simp [advanceTempdir, Chunkqueue.bytes], rfl⟩

theorem getAppendTempfile_spec (cq : Chunkqueue) (io : TempIo) :
    Appended cq (chunkqueueGetAppendTempfile cq io).queue [] ∧
      ((chunkqueueGetAppendTempfile cq io).ok →
        (chunkqueueGetAppendTempfile cq io).queue.chunks ≠ []) := by
  unfold chunkqueueGetAppendTempfile
  dsimp only
  split_ifs
  all_goals first
    | exact ⟨appended_advanceTempdir cq _, fun h => absurd h (by simp)⟩
    | refine ⟨(appended_advanceTempdir cq _).trans ⟨by simp, rfl⟩, fun _ => ?_⟩
      simp [chunkqueueAppendChunk]

theorem openTempfile_spec (dest : Chunkqueue) (io : TempIo) :
    Appended dest (openTempfile dest io).queue [] ∧
      ((openTempfile dest io).ok → (openTempfile dest io).queue.chunks ≠ []) := by
  unfold openTempfile
  split
  · next c hc =>
    have hne : dest.chunks ≠ [] := fun h => by simp [appendableTempfile, h] at hc
    dsimp only
    split_ifs with hsize hok
    · obtain ⟨h1, h2⟩ := getAppendTempfile_spec (closeTempfile dest io).queue (closeTempfile dest io).io
      exact ⟨(appended_closeLast dest).trans h1, h2⟩
    · exact ⟨appended_closeLast dest, fun h => absurd h hok⟩
    · exact ⟨.refl dest, fun _ => hne⟩
  · exact getAppendTempfile_spec dest io

theorem appended_writeFailed (dest : Chunkqueue) (io : TempIo) (isEnospc : Bool) :
    Appended dest (writeFailed dest io isEnospc).queue [] := by
  have hnext : Appended dest (if isEnospc then advanceTempdir dest 1 else dest) [] := by
    split_ifs
    · exact appended_advanceTempdir dest 1
    · exact .refl dest
  unfold writeFailed
  dsimp only
  generalize (if isEnospc then advanceTempdir dest 1 else dest) = dest' at hnext ⊢
  split_ifs
  · exact hnext.trans (appended_removeEmptyChunks _)
  · exact hnext.trans (appended_closeLast _)

/-- `chunkqueue_append_mem_to_tempfile` appends the bytes, or the first of them when it
fails. -/
theorem appendMemToTempfileLoop_spec :
    ∀ (writes : List WriteResult) (dest : Chunkqueue) (mem : Bytes) (opens : List OpenResult)
      (closes : List Bool), ∃ n,
        Appended dest (appendMemToTempfileLoop dest mem opens closes writes).queue (mem.take n) ∧
        ((appendMemToTempfileLoop dest mem opens closes writes).ok → mem.length ≤ n)
  | [], dest, mem, opens, closes => by
    obtain ⟨hopen, hne⟩ := openTempfile_spec dest ⟨opens, [], closes⟩
    rw [appendMemToTempfileLoop]
    split_ifs with hok
    · refine ⟨mem.length, ?_, fun _ => le_rfl⟩
      rw [List.take_length]
      exact hopen.trans (appended_appendToLast (hne hok) mem)
    · exact ⟨0, hopen, fun h => absurd h hok⟩
  | w :: writes, dest, mem, opens, closes => by
    obtain ⟨hopen, hne⟩ := openTempfile_spec dest ⟨opens, w :: writes, closes⟩
    rw [appendMemToTempfileLoop]
    dsimp only
    generalize openTempfile dest ⟨opens, w :: writes, closes⟩ = r at hopen hne ⊢
    have hfail : ∀ isEnospc, let f := writeFailed r.queue { r.io with writes := writes } isEnospc
        let t := if f.ok then appendMemToTempfileLoop f.queue mem f.io.opens f.io.closes writes else f
        ∃ n, Appended dest t.queue (mem.take n) ∧ (t.ok → mem.length ≤ n) := fun isEnospc => by
      have hf := hopen.trans (appended_writeFailed r.queue { r.io with writes := writes } isEnospc)
      dsimp only
      split_ifs with hok
      · obtain ⟨n, happ, hn⟩ := appendMemToTempfileLoop_spec writes _ mem _ _
        exact ⟨n, hf.trans happ, hn⟩
      · exact ⟨0, hf, fun h => absurd h hok⟩
    by_cases hok : r.ok
    · rw [if_neg (not_not.mpr hok)]
      cases w with
      | written n =>
        have happ := hopen.trans (appended_appendToLast (hne hok) (mem.take n))
        dsimp only
        split_ifs with hle
        · exact ⟨n, happ, fun _ => hle⟩
        · obtain ⟨k, happ', hk⟩ := appendMemToTempfileLoop_spec writes
            (appendToLast r.queue (mem.take n)) (mem.drop n) r.io.opens r.io.closes
          refine ⟨n + k, ?_, fun h => ?_⟩
          · rw [List.take_add]
            exact happ.trans happ'
          · have := hk h
            rw [List.length_drop] at this
            omega
      | eintr =>
        obtain ⟨n, happ, hn⟩ := appendMemToTempfileLoop_spec writes r.queue mem r.io.opens r.io.closes
        exact ⟨n, hopen.trans happ, hn⟩
      | enospc => exact hfail true
      | failed => exact hfail false
    · rw [if_pos hok]
      exact ⟨0, hopen, fun h => absurd h hok⟩

/-- The chunks of the source behind the loop of `chunkqueue_steal_with_tempfiles`, and the octets
by which `bytes_out` grew. -/
structure StealResult where
  result : TempResult
  left : List Chunk
  moved : ℕ

/-- The first octets of a chunk, `n` at most, in the destination: a whole file moves, a part of
one is appended by name, memory goes to a tempfile. -/
def stealTempPart (dest : Chunkqueue) (io : TempIo) (n : ℕ) (c : Chunk) : TempResult :=
  match c.type with
  | .file =>
    if c.remainingLength ≤ n then ⟨true, chunkqueueAppendChunk dest c, io⟩
    else ⟨true, chunkqueueAppendFile dest (c.remaining.take n), io⟩
  | .mem => chunkqueueAppendMemToTempfile dest (c.remaining.take n) io

theorem le_remainingLength (c : Chunk) (n : ℕ) (h : ¬ c.remainingLength ≤ n) :
    n ≤ c.remainingLength := (Nat.lt_of_not_le h).le

/-- The loop of `chunkqueue_steal_with_tempfiles` on the chunks of the source. -/
def stealTempLoop (dest : Chunkqueue) (io : TempIo) : ℕ → List Chunk → StealResult
  | _, [] => ⟨⟨true, dest, io⟩, [], 0⟩
  | n, c :: cs =>
    if n = 0 then ⟨⟨true, dest, io⟩, c :: cs, 0⟩
    else if c.remainingLength = 0 then stealTempLoop dest io n cs
    else
      let r := stealTempPart dest io n c
      if ¬ r.ok then ⟨r, c :: cs, 0⟩
      else if h : c.remainingLength ≤ n then
        let s := stealTempLoop r.queue r.io (n - c.remainingLength) cs
        { s with moved := c.remainingLength + s.moved }
      else ⟨r, c.advance n (le_remainingLength c n h) :: cs, n⟩

theorem stealTempLoop_content :
    ∀ (dest : Chunkqueue) (io : TempIo) (n : ℕ) (cs : List Chunk),
      (stealTempLoop dest io n cs).moved ≤ (content cs).length ∧
        content (stealTempLoop dest io n cs).left =
          (content cs).drop (stealTempLoop dest io n cs).moved
  | dest, io, n, [] => by simp [stealTempLoop]
  | dest, io, n, c :: cs => by
    rw [stealTempLoop]
    dsimp only
    split_ifs with h0 hz hok hle
    · simp
    · obtain ⟨h1, h2⟩ := stealTempLoop_content dest io n cs
      rw [content_cons, (Chunk.remaining_eq_nil_iff c).mpr hz, List.nil_append]
      exact ⟨h1, h2⟩
    · obtain ⟨h1, h2⟩ := stealTempLoop_content (stealTempPart dest io n c).queue
        (stealTempPart dest io n c).io (n - c.remainingLength) cs
      have hdrop : ∀ k, (c.remaining ++ content cs).drop (c.remainingLength + k) =
          (content cs).drop k := fun k => by
        rw [← Chunk.length_remaining, ← List.drop_drop, List.drop_left]
      exact ⟨by simpa using h1, h2.trans (hdrop _).symm⟩
    · have hn : n ≤ c.remaining.length := by
        rw [Chunk.length_remaining]
        omega
      refine ⟨?_, ?_⟩
      · rw [content_cons, List.length_append]
        exact hn.trans (Nat.le_add_right _ _)
      · rw [content_cons, content_cons, Chunk.remaining_advance, List.drop_append_of_le_length hn]
    · simp

theorem appendMemToTempfile_ok {mem : Bytes} {io : TempIo}
    (h : (chunkqueueAppendMemToTempfile dest mem io).ok) :
    Appended dest (chunkqueueAppendMemToTempfile dest mem io).queue mem := by
  obtain ⟨n, happ, hn⟩ := appendMemToTempfileLoop_spec io.writes dest mem io.opens io.closes
  rwa [List.take_of_length_le (hn h)] at happ

theorem stealTempPart_ok {io : TempIo} {n : ℕ} {c : Chunk} (h : (stealTempPart dest io n c).ok) :
    Appended dest (stealTempPart dest io n c).queue (c.remaining.take n) := by
  unfold stealTempPart at h ⊢
  split
  · split_ifs with hle
    · refine ⟨?_, ?_⟩
      · simp [List.take_of_length_le (show c.remaining.length ≤ n by simpa using hle)]
      · simp [chunkqueueAppendChunk, hle]
    · refine ⟨by simp, ?_⟩
      unfold chunkqueueAppendFile
      split_ifs with hnil <;> simp [hnil, chunkqueueAppendChunk, Chunk.remainingLength, Chunk.ofFile]
  · next htype =>
    rw [htype] at h
    exact appendMemToTempfile_ok h

/-- When it succeeds, `chunkqueue_steal_with_tempfiles` moves what `chunkqueue_steal` moves. -/
theorem stealTempLoop_ok :
    ∀ {dest : Chunkqueue} {io : TempIo} {n : ℕ} {cs : List Chunk},
      (stealTempLoop dest io n cs).result.ok →
      Appended dest (stealTempLoop dest io n cs).result.queue ((content cs).take n) ∧
        (stealTempLoop dest io n cs).moved = min n (content cs).length
  | dest, io, n, [], _ => by
    simp only [stealTempLoop, content_nil, List.take_nil, List.length_nil, Nat.min_zero, and_true]
    exact .refl dest
  | dest, io, n, c :: cs, hok => by
    rw [stealTempLoop] at hok ⊢
    dsimp only at hok ⊢
    by_cases h0 : n = 0
    · rw [if_pos h0]
      subst h0
      exact ⟨.refl dest, by simp⟩
    rw [if_neg h0] at hok ⊢
    by_cases hz : c.remainingLength = 0
    · rw [if_pos hz] at hok ⊢
      rw [content_cons, (Chunk.remaining_eq_nil_iff c).mpr hz, List.nil_append]
      exact stealTempLoop_ok hok
    rw [if_neg hz] at hok ⊢
    by_cases hpart : (stealTempPart dest io n c).ok
    · rw [if_neg (not_not.mpr hpart)] at hok ⊢
      have happ := stealTempPart_ok hpart
      by_cases hle : c.remainingLength ≤ n
      · rw [dif_pos hle] at hok ⊢
        have hlen : c.remaining.length ≤ n := by simpa using hle
        obtain ⟨h1, h2⟩ := stealTempLoop_ok hok
        rw [List.take_of_length_le hlen] at happ
        rw [content_cons, List.take_append, List.take_of_length_le hlen, List.length_append, h2,
          Chunk.length_remaining]
        exact ⟨happ.trans h1, by dsimp only; omega⟩
      · rw [dif_neg hle]
        have hlen : n ≤ c.remaining.length := by
          rw [Chunk.length_remaining]
          omega
        rw [content_cons, List.take_append_of_le_length hlen, List.length_append]
        exact ⟨happ, by dsimp only; omega⟩
    · rw [if_pos hpart] at hok
      exact absurd hok hpart

/-- `chunkqueue_steal_with_tempfiles`: the destination with the outcome, and the source. -/
def chunkqueueStealWithTempfiles (dest src : Chunkqueue) (len : ℤ) (io : TempIo) :
    TempResult × Chunkqueue :=
  let s := stealTempLoop dest io len.toNat src.chunks
  (s.result,
    { src with
      chunks := s.left
      bytesOut := src.bytesOut + s.moved
      balanced := by
        obtain ⟨h1, h2⟩ := stealTempLoop_content dest io len.toNat src.chunks
        have hs : src.bytesIn = src.bytesOut + (content src.chunks).length := src.balanced
        change src.bytesIn = src.bytesOut + (stealTempLoop dest io len.toNat src.chunks).moved +
          (content (stealTempLoop dest io len.toNat src.chunks).left).length
        rw [h2, List.length_drop]
        omega })

/-! ## When every call succeeds -/

/-- A directory for tempfiles is left to be tried. -/
def TempdirLeft (cq : Chunkqueue) : Prop := cq.tempdirs = 0 ∨ cq.tempdirIdx < cq.tempdirs

/-- The operation succeeded, `s` is behind the bytes of the queue, and the next operation
finds what this one found. -/
structure Stored (cq : Chunkqueue) (r : TempResult) (s : Bytes) : Prop where
  ok : r.ok
  io : r.io = .success
  appended : Appended cq r.queue s
  tempdirs : r.queue.tempdirs = cq.tempdirs
  tempdirIdx : r.queue.tempdirIdx = cq.tempdirIdx

theorem Stored.tempdirLeft {r : TempResult} {s : Bytes} (h : Stored cq r s) (hleft : TempdirLeft cq) :
    TempdirLeft r.queue := by
  rwa [TempdirLeft, h.tempdirs, h.tempdirIdx]

theorem Stored.trans {cq : Chunkqueue} {r r' : TempResult} {s t : Bytes} (h : Stored cq r s)
    (h' : Stored r.queue r' t) : Stored cq r' (s ++ t) where
  ok := h'.ok
  io := h'.io
  appended := h.appended.trans h'.appended
  tempdirs := h'.tempdirs.trans h.tempdirs
  tempdirIdx := h'.tempdirIdx.trans h.tempdirIdx

theorem closeLast_tempdirs (cq : Chunkqueue) :
    (closeLast cq).tempdirs = cq.tempdirs ∧ (closeLast cq).tempdirIdx = cq.tempdirIdx := by
  unfold closeLast
  split <;> exact ⟨rfl, rfl⟩

theorem appendToLast_tempdirs (cq : Chunkqueue) (s : Bytes) :
    (appendToLast cq s).tempdirs = cq.tempdirs ∧
      (appendToLast cq s).tempdirIdx = cq.tempdirIdx := by
  unfold appendToLast
  split <;> exact ⟨rfl, rfl⟩

theorem getAppendTempfile_success (h : TempdirLeft cq) :
    Stored cq (chunkqueueGetAppendTempfile cq .success) [] := by
  obtain ⟨n, hn⟩ : ∃ n, (if cq.tempdirs ≠ 0 then cq.tempdirs - cq.tempdirIdx else 1) = n + 1 := by
    refine Nat.exists_eq_add_one.mpr ?_
    rcases h with h | h
    · rw [if_neg (not_not.mpr h)]
      exact Nat.one_pos
    · rw [if_pos (by omega)]
      omega
  have hq : chunkqueueGetAppendTempfile cq .success =
      ⟨true, chunkqueueAppendChunk (advanceTempdir cq 0) (.ofTemp []), .success⟩ := by
    unfold chunkqueueGetAppendTempfile
    rw [hn]
    rfl
  rw [hq]
  refine ⟨rfl, rfl, (appended_advanceTempdir cq 0).trans ⟨by simp, rfl⟩, rfl, ?_⟩
  simp [chunkqueueAppendChunk, advanceTempdir]

theorem openTempfile_success (h : TempdirLeft dest) :
    Stored dest (openTempfile dest .success) [] := by
  unfold openTempfile
  split
  · dsimp only
    split_ifs with hsize hok
    · have hclose : Stored dest (closeTempfile dest .success) [] :=
        ⟨rfl, rfl, appended_closeLast dest, (closeLast_tempdirs dest).1, (closeLast_tempdirs dest).2⟩
      exact hclose.trans (getAppendTempfile_success (hclose.tempdirLeft h))
    · exact absurd rfl hok
    · exact ⟨rfl, rfl, .refl dest, rfl, rfl⟩
  · exact getAppendTempfile_success h

theorem appendMemToTempfile_success (h : TempdirLeft dest) (mem : Bytes) :
    Stored dest (chunkqueueAppendMemToTempfile dest mem .success) mem := by
  have hopen := openTempfile_success h
  have hne := (openTempfile_spec dest .success).2 hopen.ok
  have htd := appendToLast_tempdirs (openTempfile dest .success).queue mem
  have heq : chunkqueueAppendMemToTempfile dest mem .success =
      { openTempfile dest .success with
        queue := appendToLast (openTempfile dest .success).queue mem } := by
    rw [chunkqueueAppendMemToTempfile, TempIo.success, appendMemToTempfileLoop]
    exact if_pos hopen.ok
  rw [heq]
  exact hopen.trans ⟨hopen.ok, hopen.io, appended_appendToLast hne mem, htd.1, htd.2⟩

theorem stealTempPart_success (h : TempdirLeft dest) (n : ℕ) (c : Chunk) :
    Stored dest (stealTempPart dest .success n c) (c.remaining.take n) := by
  have happ : (stealTempPart dest .success n c).ok →
      Appended dest (stealTempPart dest .success n c).queue (c.remaining.take n) := stealTempPart_ok
  unfold stealTempPart at happ ⊢
  split
  · next htype =>
    rw [htype] at happ
    dsimp only at happ
    split_ifs at happ ⊢
    · exact ⟨rfl, rfl, happ rfl, rfl, rfl⟩
    · refine ⟨rfl, rfl, happ rfl, ?_, ?_⟩ <;> unfold chunkqueueAppendFile <;> split_ifs <;> rfl
  · exact appendMemToTempfile_success h _

/-- With every call succeeding, `chunkqueue_steal_with_tempfiles` succeeds. -/
theorem stealTempLoop_success :
    ∀ {dest : Chunkqueue} (_ : TempdirLeft dest) (n : ℕ) (cs : List Chunk),
      (stealTempLoop dest .success n cs).result.ok ∧
        (stealTempLoop dest .success n cs).result.io = .success ∧
        TempdirLeft (stealTempLoop dest .success n cs).result.queue
  | dest, h, n, [] => ⟨rfl, rfl, h⟩
  | dest, h, n, c :: cs => by
    have hpart := stealTempPart_success h n c
    rw [stealTempLoop]
    dsimp only
    split_ifs with h0 hz hok hle
    · exact ⟨rfl, rfl, h⟩
    · exact stealTempLoop_success h n cs
    · rw [hpart.io]
      exact stealTempLoop_success (hpart.tempdirLeft h) (n - c.remainingLength) cs
    · exact ⟨hpart.ok, hpart.io, hpart.tempdirLeft h⟩
    · exact absurd hpart.ok hok

end Lighttpd
