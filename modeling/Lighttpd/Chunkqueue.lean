import Lighttpd.Lib.CString

/-!
# Chunkqueues

The chunkqueue of `chunk.c` as the list of its chunks, first to last. The bytes of a
chunk are its buffer (`MEM_CHUNK`) or the part of the file it stands for
(`FILE_CHUNK`). A `Chunk` carries `offset ≤ length`, which `chunk_remaining_length`
asserts, and a `Chunkqueue` carries `bytes_in = bytes_out + chunkqueue_length`, so both
hold of every queue that can be written down. A failed `force_assert` is `none`.

Each operation has one lemma on `content`, the bytes not sent yet: appending adds at the
end, `chunkqueue_steal` moves the first bytes of the source, `chunkqueue_mark_written`
drops them.
-/

namespace Lighttpd

open CString

inductive ChunkType
  | mem
  | file
  deriving DecidableEq, Repr

/-- A chunk: its bytes, the octets sent of them, and for a file whether it is a tempfile
of lighttpd and whether its descriptor is open. -/
structure Chunk where
  type : ChunkType
  data : Bytes
  offset : ℕ
  isTemp : Bool
  fd : Bool
  offset_le : offset ≤ data.length
  deriving DecidableEq, Repr

namespace Chunk

/-- The bytes not sent yet. -/
def remaining (c : Chunk) : Bytes := c.data.drop c.offset

/-- `chunk_remaining_length`. -/
def remainingLength (c : Chunk) : ℕ := c.data.length - c.offset

/-- `c->offset += n`. -/
def advance (c : Chunk) (n : ℕ) (h : n ≤ c.remainingLength) : Chunk :=
  { c with
    offset := c.offset + n
    offset_le := by
      have := c.offset_le
      unfold remainingLength at h
      omega }

/-- A `MEM_CHUNK` with the string `s`. -/
def ofMem (s : Bytes) : Chunk := ⟨.mem, s, 0, false, false, Nat.zero_le _⟩

/-- A `FILE_CHUNK` of a named file whose part holds `s`. -/
def ofFile (s : Bytes) : Chunk := ⟨.file, s, 0, false, false, Nat.zero_le _⟩

/-- The open `FILE_CHUNK` of a new tempfile holding `s`. -/
def ofTemp (s : Bytes) : Chunk := ⟨.file, s, 0, true, true, Nat.zero_le _⟩

@[simp] theorem length_remaining (c : Chunk) : c.remaining.length = c.remainingLength := by
  simp [remaining, remainingLength]

@[simp] theorem remaining_ofMem (s : Bytes) : (ofMem s).remaining = s := rfl

@[simp] theorem remaining_ofFile (s : Bytes) : (ofFile s).remaining = s := rfl

@[simp] theorem remaining_ofTemp (s : Bytes) : (ofTemp s).remaining = s := rfl

@[simp] theorem type_ofMem (s : Bytes) : (ofMem s).type = .mem := rfl

@[simp] theorem remaining_advance (c : Chunk) (n : ℕ) (h : n ≤ c.remainingLength) :
    (c.advance n h).remaining = c.remaining.drop n := by
  simp [advance, remaining, List.drop_drop]

@[simp] theorem type_advance (c : Chunk) (n : ℕ) (h : n ≤ c.remainingLength) :
    (c.advance n h).type = c.type := rfl

theorem remaining_eq_nil_iff (c : Chunk) : c.remaining = [] ↔ c.remainingLength = 0 := by
  rw [← List.length_eq_zero_iff, length_remaining]

end Chunk

/-- The bytes of a list of chunks not sent yet, in order. -/
def content (cs : List Chunk) : Bytes := cs.flatMap Chunk.remaining

@[simp] theorem content_nil : content [] = [] := rfl

@[simp] theorem content_cons (c : Chunk) (cs : List Chunk) :
    content (c :: cs) = c.remaining ++ content cs := rfl

@[simp] theorem content_append (cs ds : List Chunk) :
    content (cs ++ ds) = content cs ++ content ds := by
  simp [content]

theorem length_content (cs : List Chunk) :
    (content cs).length = (cs.map Chunk.remainingLength).sum := by
  simp [content, List.length_flatMap]

/-- A chunkqueue. `uploadTempFileSize` is the size from which a tempfile is not appended
to any more, `tempdirs` the number of directories for tempfiles and `tempdirIdx` the one in
use. -/
structure Chunkqueue where
  chunks : List Chunk
  bytesIn : ℕ
  bytesOut : ℕ
  uploadTempFileSize : ℕ
  tempdirs : ℕ
  tempdirIdx : ℕ
  balanced : bytesIn = bytesOut + (content chunks).length
  deriving DecidableEq, Repr

namespace Chunkqueue

/-- The bytes of a queue not sent yet. -/
def bytes (cq : Chunkqueue) : Bytes := content cq.chunks

/-- `chunkqueue_is_empty`. -/
def isEmpty (cq : Chunkqueue) : Bool := cq.chunks.isEmpty

end Chunkqueue

/-- `chunkqueue_length`. -/
def chunkqueueLength (cq : Chunkqueue) : ℕ := (cq.chunks.map Chunk.remainingLength).sum

theorem chunkqueueLength_eq (cq : Chunkqueue) : chunkqueueLength cq = cq.bytes.length :=
  (length_content _).symm

/-- `bytes_in - bytes_out` is `chunkqueue_length`. -/
theorem bytesIn_eq (cq : Chunkqueue) : cq.bytesIn = cq.bytesOut + cq.bytes.length :=
  cq.balanced

/-! ## Appending and prepending -/

/-- `chunkqueue_init`. -/
def chunkqueueInit (uploadTempFileSize tempdirs : ℕ) : Chunkqueue :=
  ⟨[], 0, 0, uploadTempFileSize, tempdirs, 0, rfl⟩

/-- `chunkqueue_append_chunk`. -/
def chunkqueueAppendChunk (cq : Chunkqueue) (c : Chunk) : Chunkqueue :=
  { cq with
    chunks := cq.chunks ++ [c]
    bytesIn := cq.bytesIn + c.remainingLength
    balanced := by simp [cq.balanced]; omega }

/-- `chunkqueue_prepend_chunk`. -/
def chunkqueuePrependChunk (cq : Chunkqueue) (c : Chunk) : Chunkqueue :=
  { cq with
    chunks := c :: cq.chunks
    bytesIn := cq.bytesIn + c.remainingLength
    balanced := by simp [cq.balanced]; omega }

/-- `chunkqueue_append_mem`; `chunkqueue_append_buffer` does the same with a buffer. -/
def chunkqueueAppendMem (cq : Chunkqueue) (mem : Bytes) : Chunkqueue :=
  if mem = [] then cq else chunkqueueAppendChunk cq (.ofMem mem)

/-- `chunkqueue_prepend_buffer`. -/
def chunkqueuePrependBuffer (cq : Chunkqueue) (mem : Bytes) : Chunkqueue :=
  if mem = [] then cq else chunkqueuePrependChunk cq (.ofMem mem)

/-- `chunkqueue_append_file` of a part that holds `part`. -/
def chunkqueueAppendFile (cq : Chunkqueue) (part : Bytes) : Chunkqueue :=
  if part = [] then cq else chunkqueueAppendChunk cq (.ofFile part)

/-- `chunkqueue_append_chunkqueue`: the destination and the source afterwards. -/
def chunkqueueAppendChunkqueue (cq src : Chunkqueue) : Chunkqueue × Chunkqueue :=
  if src.chunks = [] then (cq, src)
  else
    ({ cq with
        chunks := cq.chunks ++ src.chunks
        bytesIn := cq.bytesIn + (src.bytesIn - src.bytesOut)
        balanced := by simp [cq.balanced, src.balanced]; omega },
      { src with chunks := [], bytesOut := src.bytesIn, balanced := by simp })

/-- `chunkqueue_reset`. -/
def chunkqueueReset (cq : Chunkqueue) : Chunkqueue :=
  { cq with chunks := [], bytesIn := 0, bytesOut := 0, tempdirIdx := 0, balanced := rfl }

@[simp] theorem bytes_appendChunk (cq : Chunkqueue) (c : Chunk) :
    (chunkqueueAppendChunk cq c).bytes = cq.bytes ++ c.remaining := by
  simp [chunkqueueAppendChunk, Chunkqueue.bytes]

@[simp] theorem bytes_prependChunk (cq : Chunkqueue) (c : Chunk) :
    (chunkqueuePrependChunk cq c).bytes = c.remaining ++ cq.bytes := rfl

@[simp] theorem bytes_appendMem (cq : Chunkqueue) (mem : Bytes) :
    (chunkqueueAppendMem cq mem).bytes = cq.bytes ++ mem := by
  unfold chunkqueueAppendMem
  split_ifs with h <;> simp [h]

@[simp] theorem bytes_prependBuffer (cq : Chunkqueue) (mem : Bytes) :
    (chunkqueuePrependBuffer cq mem).bytes = mem ++ cq.bytes := by
  unfold chunkqueuePrependBuffer
  split_ifs with h <;> simp [h]

@[simp] theorem bytes_appendFile (cq : Chunkqueue) (part : Bytes) :
    (chunkqueueAppendFile cq part).bytes = cq.bytes ++ part := by
  unfold chunkqueueAppendFile
  split_ifs with h <;> simp [h]

@[simp] theorem bytes_appendChunkqueue_fst (cq src : Chunkqueue) :
    (chunkqueueAppendChunkqueue cq src).1.bytes = cq.bytes ++ src.bytes := by
  unfold chunkqueueAppendChunkqueue
  split_ifs with h <;> simp [Chunkqueue.bytes, h]

@[simp] theorem bytes_appendChunkqueue_snd (cq src : Chunkqueue) :
    (chunkqueueAppendChunkqueue cq src).2.bytes = [] := by
  unfold chunkqueueAppendChunkqueue
  split_ifs with h <;> simp [Chunkqueue.bytes, h]

@[simp] theorem bytes_reset (cq : Chunkqueue) : (chunkqueueReset cq).bytes = [] := rfl

/-- `chunkqueue_get_memory`: it hands out the space behind the last `MEM_CHUNK`, or
appends an empty chunk when there is none or too little (`fresh`). -/
def chunkqueueGetMemory (cq : Chunkqueue) (fresh : Bool) : Chunkqueue :=
  if fresh then chunkqueueAppendChunk cq (.ofMem []) else cq

/-- `chunkqueue_use_memory` of the bytes `s` written behind the last `MEM_CHUNK`. -/
def chunkqueueUseMemory (cq : Chunkqueue) (s : Bytes) : Option Chunkqueue :=
  match h : cq.chunks.getLast? with
  | some c =>
    if c.type = .mem then
      some { cq with
        chunks := cq.chunks.dropLast ++
          [{ c with data := c.data ++ s, offset_le := by have := c.offset_le; simp; omega }]
        bytesIn := cq.bytesIn + s.length
        balanced := by
          have hb := cq.balanced
          have hl := c.offset_le
          rw [← List.dropLast_append_getLast? c h] at hb
          simp only [content_append, List.length_append, content_cons, content_nil,
            List.append_nil, Chunk.length_remaining, Chunk.remainingLength] at hb ⊢
          omega }
    else none
  | none => none

@[simp] theorem bytes_getMemory (cq : Chunkqueue) (fresh : Bool) :
    (chunkqueueGetMemory cq fresh).bytes = cq.bytes := by
  cases fresh <;> simp [chunkqueueGetMemory]

theorem bytes_useMemory {cq cq' : Chunkqueue} {s : Bytes}
    (h : chunkqueueUseMemory cq s = some cq') : cq'.bytes = cq.bytes ++ s := by
  unfold chunkqueueUseMemory at h
  split at h
  · next c hc =>
    split_ifs at h
    cases h
    have hl := c.offset_le
    conv_rhs => rw [Chunkqueue.bytes, ← List.dropLast_append_getLast? c hc]
    simp [Chunkqueue.bytes, Chunk.remaining, List.drop_append_of_le_length hl]
  · exact absurd h (by simp)

/-! ## Consuming a queue -/

/-- The loop of `chunkqueue_mark_written`; `none` when `force_assert(0 == written)` fails. -/
def markWrittenLoop (written : ℕ) : List Chunk → Option (List Chunk)
  | [] => if written = 0 then some [] else none
  | c :: cs =>
    if written = 0 ∧ c.remainingLength ≠ 0 then some (c :: cs)
    else if h : c.remainingLength ≤ written then
      markWrittenLoop (written - c.remainingLength) cs
    else some (c.advance written (by omega) :: cs)

/-- The loop succeeds on what the queue holds, and drops exactly the bytes written. -/
theorem markWrittenLoop_eq_some {n : ℕ} :
    ∀ {cs cs' : List Chunk}, markWrittenLoop n cs = some cs' →
      n ≤ (content cs).length ∧ content cs' = (content cs).drop n
  | [], cs', h => by
    simp only [markWrittenLoop] at h
    split_ifs at h with hn
    cases h
    simp [hn]
  | c :: cs, cs', h => by
    rw [markWrittenLoop] at h
    split_ifs at h with h0 hle
    · cases h
      simp [h0.1]
    · obtain ⟨ih1, ih2⟩ := markWrittenLoop_eq_some h
      refine ⟨by simp; omega, ?_⟩
      rw [ih2, content_cons, List.drop_append]
      simp [hle]
    · cases h
      refine ⟨by simp; omega, ?_⟩
      rw [content_cons, Chunk.remaining_advance, content_cons,
        List.drop_append_of_le_length (by simp; omega)]

theorem markWrittenLoop_isSome {n : ℕ} :
    ∀ {cs : List Chunk}, n ≤ (content cs).length → (markWrittenLoop n cs).isSome
  | [], h => by simpa [markWrittenLoop] using h
  | c :: cs, h => by
    rw [markWrittenLoop]
    simp only [content_cons, List.length_append, Chunk.length_remaining] at h
    split_ifs
    · rfl
    · exact markWrittenLoop_isSome (by omega)
    · rfl

/-- `chunkqueue_mark_written`. -/
def chunkqueueMarkWritten (cq : Chunkqueue) (len : ℤ) : Option Chunkqueue :=
  if len < 0 then none
  else
    match h : markWrittenLoop len.toNat cq.chunks with
    | none => none
    | some cs =>
      some { cq with
        chunks := cs
        bytesOut := cq.bytesOut + len.toNat
        balanced := by
          obtain ⟨h1, h2⟩ := markWrittenLoop_eq_some h
          rw [cq.balanced, h2, List.length_drop]
          omega }

/-- No assertion of `chunkqueue_mark_written` fails exactly on `0 ≤ len ≤ length`. -/
theorem markWritten_isSome_iff (cq : Chunkqueue) (len : ℤ) :
    (chunkqueueMarkWritten cq len).isSome ↔ 0 ≤ len ∧ len ≤ chunkqueueLength cq := by
  rw [chunkqueueLength_eq, Chunkqueue.bytes]
  unfold chunkqueueMarkWritten
  split_ifs with h
  · simp; omega
  · constructor
    · intro hs
      split at hs
      · simp at hs
      · next cs hcs =>
        have := (markWrittenLoop_eq_some hcs).1
        omega
    · rintro ⟨-, hle⟩
      obtain ⟨cs, hcs⟩ := Option.isSome_iff_exists.mp
        (markWrittenLoop_isSome (show len.toNat ≤ (content cq.chunks).length by omega))
      split
      · simp_all
      · rfl

theorem markWritten_eq_some {cq cq' : Chunkqueue} {len : ℤ}
    (h : chunkqueueMarkWritten cq len = some cq') :
    0 ≤ len ∧ len ≤ cq.bytes.length ∧ cq'.bytes = cq.bytes.drop len.toNat ∧
      cq'.bytesIn = cq.bytesIn ∧ markWrittenLoop len.toNat cq.chunks = some cq'.chunks := by
  unfold chunkqueueMarkWritten at h
  split_ifs at h with hneg
  split at h
  · simp at h
  · next cs hcs =>
    cases h
    obtain ⟨h1, h2⟩ := markWrittenLoop_eq_some hcs
    exact ⟨by omega, by rw [Chunkqueue.bytes]; omega, h2, rfl, hcs⟩

theorem content_dropWhile (cs : List Chunk) :
    content (cs.dropWhile fun c => c.remainingLength = 0) = content cs := by
  induction cs with
  | nil => rfl
  | cons c cs ih =>
    by_cases h : c.remainingLength = 0
    · simpa [h, (Chunk.remaining_eq_nil_iff c).mpr h] using ih
    · simp [h]

/-- `chunkqueue_remove_finished_chunks`. -/
def chunkqueueRemoveFinishedChunks (cq : Chunkqueue) : Chunkqueue :=
  { cq with
    chunks := cq.chunks.dropWhile fun c => c.remainingLength = 0
    balanced := by rw [content_dropWhile, cq.balanced] }

@[simp] theorem bytes_removeFinishedChunks (cq : Chunkqueue) :
    (chunkqueueRemoveFinishedChunks cq).bytes = cq.bytes :=
  content_dropWhile _

/-- The loop of `chunkqueue_steal` on the chunks of the source: the chunks appended to the
destination and those left. A split `MEM_CHUNK` is copied, a split `FILE_CHUNK` is
appended by name without its tempfile flag. -/
def stealLoop : ℕ → List Chunk → List Chunk × List Chunk
  | _, [] => ([], [])
  | n, c :: cs =>
    if n = 0 then ([], c :: cs)
    else if c.remainingLength = 0 then stealLoop n cs
    else if h : c.remainingLength ≤ n then
      (c :: (stealLoop (n - c.remainingLength) cs).1, (stealLoop (n - c.remainingLength) cs).2)
    else
      ([match c.type with
        | .mem => .ofMem (c.remaining.take n)
        | .file => .ofFile (c.remaining.take n)],
        c.advance n (by omega) :: cs)

theorem stealLoop_content :
    ∀ (n : ℕ) (cs : List Chunk), content (stealLoop n cs).1 = (content cs).take n ∧
      content (stealLoop n cs).2 = (content cs).drop n
  | n, [] => by simp [stealLoop]
  | n, c :: cs => by
    rw [stealLoop]
    split_ifs with h0 hz hle
    · simp [h0]
    · obtain ⟨ih1, ih2⟩ := stealLoop_content n cs
      rw [ih1, ih2, content_cons, (Chunk.remaining_eq_nil_iff c).mpr hz, List.nil_append]
      exact ⟨rfl, rfl⟩
    · obtain ⟨ih1, ih2⟩ := stealLoop_content (n - c.remainingLength) cs
      simp only [content_cons, ih1, ih2, List.take_append, List.drop_append, Chunk.length_remaining]
      simp [hle]
    · have hn : n ≤ c.remaining.length := by simp; omega
      refine ⟨?_, ?_⟩
      · rw [content_cons c cs, List.take_append_of_le_length hn]
        cases c.type <;> simp
      · simp [List.drop_append_of_le_length hn]

/-- `chunkqueue_steal`: the destination and the source afterwards. A negative length
moves nothing. -/
def chunkqueueSteal (dest src : Chunkqueue) (len : ℤ) : Chunkqueue × Chunkqueue :=
  ({ dest with
      chunks := dest.chunks ++ (stealLoop len.toNat src.chunks).1
      bytesIn := dest.bytesIn + ((stealLoop len.toNat src.chunks).1.map Chunk.remainingLength).sum
      balanced := by simp [dest.balanced, length_content]; omega },
    { src with
      chunks := (stealLoop len.toNat src.chunks).2
      bytesOut := src.bytesOut + ((stealLoop len.toNat src.chunks).1.map Chunk.remainingLength).sum
      balanced := by
        obtain ⟨h1, h2⟩ := stealLoop_content len.toNat src.chunks
        rw [src.balanced, ← length_content, h1, h2, List.length_take, List.length_drop]
        omega })

@[simp] theorem bytes_steal_fst (dest src : Chunkqueue) (len : ℤ) :
    (chunkqueueSteal dest src len).1.bytes = dest.bytes ++ src.bytes.take len.toNat := by
  simp [chunkqueueSteal, Chunkqueue.bytes, (stealLoop_content len.toNat src.chunks).1]

@[simp] theorem bytes_steal_snd (dest src : Chunkqueue) (len : ℤ) :
    (chunkqueueSteal dest src len).2.bytes = src.bytes.drop len.toNat :=
  (stealLoop_content len.toNat src.chunks).2

end Lighttpd
