import Lighttpd.Chunkqueue

/-!
# Writing a queue to a socket

The three writers of `network_write.c`. Each takes turns on the first chunks of the queue until
`max_bytes` are sent, the queue is empty or a call does not send all that it was given; the turns
of the writers differ in the calls they make for memory and for file chunks. A turn that sends
several memory chunks at once sends the last of them whole, also when `max_bytes` ends inside it
(`overrun`).

The outcomes of the system calls are given to a turn as a `ChunkIo`. `sendfile` is that of Linux
and of the systems that count what was sent before `EAGAIN`.
-/

namespace Lighttpd

open CString

/-- `write` or `writev`: it takes at most so many bytes, or fails with `EAGAIN` or `EINTR`, with
`EPIPE` or `ECONNRESET`, or with another error. -/
inductive WriteCall
  | wrote (n : ℕ)
  | again
  | closed
  | failed
  deriving DecidableEq, Repr

/-- `sendfile`; also `again` may have sent something. `unsupported` stands for the errors from
`EINVAL` to `EAFNOSUPPORT`. -/
inductive SendfileCall
  | sent (n : ℕ)
  | again (n : ℕ)
  | closed
  | unsupported
  | failed
  deriving DecidableEq, Repr

/-- What a turn meets: whether `chunkqueue_open_file_chunk` succeeds (and again when `sendfile` is
not supported), where the part of the file begins and what of the file is mapped, and the outcomes
of `mmap`, of reading the mapping, of `lseek`, `read`, `write` and `sendfile`. -/
structure ChunkIo where
  opened : Bool
  reopened : Bool
  fileStart : ℕ
  mapped : Option (ℕ × ℕ)
  mmap : Bool
  sigbus : Bool
  lseek : Bool
  read : Option ℕ
  write : WriteCall
  sendfile : SendfileCall
  deriving DecidableEq, Repr

def MMAP_CHUNK_SIZE : ℕ := 512 * 1024
def MAX_CHUNKS : ℕ := 32

/-- How lighttpd was built, and the size of a page. -/
structure NetEnv where
  mmap : Bool
  pagesize : ℕ
  pagesize_pos : 0 < pagesize
  pagesize_lt : pagesize < MMAP_CHUNK_SIZE
  deriving DecidableEq, Repr

/-! ## Turns -/

/-- The queue and `max_bytes` behind a turn, what it sent and what it returns. -/
structure NetTurn where
  cq : Chunkqueue
  maxBytes : ℤ
  sent : Bytes
  ret : ℤ
  deriving DecidableEq, Repr

/-- A turn that sends nothing. -/
def stopTurn (cq : Chunkqueue) (maxBytes : ℤ) (ret : ℤ) : NetTurn := ⟨cq, maxBytes, [], ret⟩

/-- The turn on a finished chunk. -/
def finishedTurn (cq : Chunkqueue) (maxBytes : ℤ) : NetTurn :=
  stopTurn (chunkqueueRemoveFinishedChunks cq) maxBytes 0

/-- The call of `write` or `writev` with `data` and what follows it. -/
def writeTurn (cq : Chunkqueue) (maxBytes : ℤ) (data : Bytes) : WriteCall → Option NetTurn
  | .wrote n =>
    let wr := min n data.length
    (chunkqueueMarkWritten cq wr).map fun cq' =>
      ⟨cq', maxBytes - wr, data.take wr, if wr > 0 ∧ wr = data.length then 0 else -3⟩
  | .again => some (stopTurn cq maxBytes (-3))
  | .closed => some (stopTurn cq maxBytes (-2))
  | .failed => some (stopTurn cq maxBytes (-1))

/-- What a turn may send of the first chunk. -/
def clippedLength (c : Chunk) (maxBytes : ℤ) : ℕ :=
  if (c.remainingLength : ℤ) > maxBytes then maxBytes.toNat else c.remainingLength

/-- `network_write_mem_chunk`. -/
def networkWriteMemChunk (cq : Chunkqueue) (c : Chunk) (maxBytes : ℤ) (io : ChunkIo) :
    Option NetTurn :=
  let len := clippedLength c maxBytes
  if len = 0 then some (finishedTurn cq maxBytes)
  else writeTurn cq maxBytes (c.remaining.take len) io.write

/-- `network_write_file_chunk_no_mmap`. -/
def networkWriteFileChunkNoMmap (cq : Chunkqueue) (c : Chunk) (maxBytes : ℤ) (io : ChunkIo) :
    Option NetTurn :=
  let toSend := clippedLength c maxBytes
  if toSend = 0 then some (finishedTurn cq maxBytes)
  else if io.opened = false then some (stopTurn cq maxBytes (-1))
  else
    let toSend := if toSend > 64 * 1024 then 64 * 1024 else toSend
    if io.lseek = false then some (stopTurn cq maxBytes (-1))
    else
      match io.read with
      | none => some (stopTurn cq maxBytes (-1))
      | some n => writeTurn cq maxBytes (c.remaining.take (min n toSend)) io.write

/-- `mmap_align_offset`. -/
def mmapAlignOffset (pagesize start : ℕ) : ℕ := start - start % pagesize

/-- The offset and the length of the mapping that is used: the one there is, or a new one. -/
def mmapWindow (pagesize offset fileEnd : ℕ) (mapped : Option (ℕ × ℕ)) : ℕ × ℕ :=
  match mapped.filter fun m => m.1 ≤ offset ∧ offset < m.1 + m.2 with
  | some m => m
  | none =>
    let mmapOffset := mmapAlignOffset pagesize offset
    (mmapOffset, if mmapOffset + MMAP_CHUNK_SIZE > fileEnd then fileEnd - mmapOffset
      else MMAP_CHUNK_SIZE)

/-- `network_write_file_chunk_mmap`. -/
def networkWriteFileChunkMmap (env : NetEnv) (cq : Chunkqueue) (c : Chunk) (maxBytes : ℤ)
    (io : ChunkIo) : Option NetTurn :=
  let toSend := clippedLength c maxBytes
  if toSend = 0 then some (finishedTurn cq maxBytes)
  else if io.opened = false then some (stopTurn cq maxBytes (-1))
  else
    let offset := io.fileStart + c.offset
    let window := mmapWindow env.pagesize offset (io.fileStart + c.data.length) io.mapped
    if io.mmap = false then some (stopTurn cq maxBytes (-1))
    else if ¬ (window.1 ≤ offset ∧ offset - window.1 < window.2) then none
    else
      let mmapAvail := window.2 - (offset - window.1)
      let toSend := if toSend > mmapAvail then mmapAvail else toSend
      if io.sigbus then some (stopTurn cq maxBytes (-1))
      else writeTurn cq maxBytes (c.remaining.take toSend) io.write

/-- The writer of file chunks that lighttpd was built with. -/
def networkWriteFileChunk (env : NetEnv) (cq : Chunkqueue) (c : Chunk) (maxBytes : ℤ)
    (io : ChunkIo) : Option NetTurn :=
  if env.mmap then networkWriteFileChunkMmap env cq c maxBytes io
  else networkWriteFileChunkNoMmap cq c maxBytes io

/-- The loop of `network_writev_mem_chunks` with `num_chunks` and `toSend`: the parts that go into
`iovec`. -/
def gatherChunks (maxBytes : ℤ) : ℕ → ℕ → List Chunk → List Bytes
  | _, _, [] => []
  | numChunks, toSend, c :: cs =>
    if c.type = .mem ∧ numChunks < MAX_CHUNKS ∧ (toSend : ℤ) < maxBytes then
      if c.remainingLength > 0 then
        c.remaining :: gatherChunks maxBytes (numChunks + 1) (toSend + c.remainingLength) cs
      else gatherChunks maxBytes numChunks toSend cs
    else []

/-- `network_writev_mem_chunks`. -/
def networkWritevMemChunks (cq : Chunkqueue) (maxBytes : ℤ) (io : ChunkIo) : Option NetTurn :=
  let iovec := gatherChunks maxBytes 0 0 cq.chunks
  if iovec.length = 0 then some (finishedTurn cq maxBytes)
  else writeTurn cq maxBytes iovec.flatten io.write

/-- `network_write_file_chunk_sendfile`. -/
def networkWriteFileChunkSendfile (env : NetEnv) (cq : Chunkqueue) (c : Chunk) (maxBytes : ℤ)
    (io : ChunkIo) : Option NetTurn :=
  let toSend := clippedLength c maxBytes
  if toSend = 0 then some (finishedTurn cq maxBytes)
  else if io.opened = false then some (stopTurn cq maxBytes (-1))
  else
    match io.sendfile with
    | .sent n =>
      let written := min n toSend
      (chunkqueueMarkWritten cq written).map fun cq' =>
        ⟨cq', maxBytes - written, c.remaining.take written, if written = toSend then 0 else -3⟩
    | .again n =>
      let written := min n toSend
      (chunkqueueMarkWritten cq written).map fun cq' =>
        ⟨cq', maxBytes - written, c.remaining.take written, -3⟩
    | .closed => some (stopTurn cq maxBytes (-2))
    | .unsupported => networkWriteFileChunk env cq c maxBytes { io with opened := io.reopened }
    | .failed => some (stopTurn cq maxBytes (-1))

/-- What a writer leaves, what it sent and what it returns. -/
structure NetResult where
  cq : Chunkqueue
  sent : Bytes
  ret : ℤ
  deriving DecidableEq, Repr

/-- The loop of a writer with its turn, by recursion on a bound for the number of turns; the
outcomes of the calls of each turn are given, and what was sent before. -/
def networkWriteLoop (turn : Chunkqueue → Chunk → ℤ → ChunkIo → Option NetTurn) :
    ℕ → (ℕ → ChunkIo) → Chunkqueue → ℤ → Bytes → Option NetResult
  | 0, _, _, _, _ => none
  | n + 1, io, cq, maxBytes, sent =>
    match cq.chunks with
    | [] => some ⟨cq, sent, 0⟩
    | c :: _ =>
      if maxBytes ≤ 0 then some ⟨cq, sent, 0⟩
      else
        match turn cq c maxBytes (io 0) with
        | none => none
        | some t =>
          if t.ret = -3 then some ⟨t.cq, sent ++ t.sent, 0⟩
          else if t.ret ≠ 0 then some ⟨t.cq, sent ++ t.sent, t.ret⟩
          else networkWriteLoop turn n (fun i => io (i + 1)) t.cq t.maxBytes (sent ++ t.sent)

/-- `srv->network_backend_write`. -/
inductive NetBackend
  | write
  | writev
  | sendfile
  deriving DecidableEq, Repr

/-- The turn of a writer on a memory chunk. -/
def memTurn (backend : NetBackend) (cq : Chunkqueue) (c : Chunk) (maxBytes : ℤ) (io : ChunkIo) :
    Option NetTurn :=
  match backend with
  | .write => networkWriteMemChunk cq c maxBytes io
  | .writev => networkWritevMemChunks cq maxBytes io
  | .sendfile => networkWritevMemChunks cq maxBytes io

/-- The turn of a writer on a file chunk. -/
def fileTurn (backend : NetBackend) (env : NetEnv) (cq : Chunkqueue) (c : Chunk) (maxBytes : ℤ)
    (io : ChunkIo) : Option NetTurn :=
  match backend with
  | .write => networkWriteFileChunk env cq c maxBytes io
  | .writev => networkWriteFileChunk env cq c maxBytes io
  | .sendfile => networkWriteFileChunkSendfile env cq c maxBytes io

/-- A turn of a writer. -/
def netTurn (backend : NetBackend) (env : NetEnv) (cq : Chunkqueue) (c : Chunk) (maxBytes : ℤ)
    (io : ChunkIo) : Option NetTurn :=
  match c.type with
  | .mem => memTurn backend cq c maxBytes io
  | .file => fileTurn backend env cq c maxBytes io

/-- `network_write_chunkqueue_write`, `_writev` and `_sendfile`. -/
def networkWriteChunkqueue (backend : NetBackend) (env : NetEnv) (cq : Chunkqueue) (maxBytes : ℤ)
    (io : ℕ → ChunkIo) : Option NetResult :=
  networkWriteLoop (netTurn backend env) (cq.chunks.length + cq.bytes.length + 1) io cq maxBytes []

/-- The bytes of a memory chunk behind position `m` when `m` lies inside it. -/
def overrun : ℕ → List Chunk → ℕ
  | _, [] => 0
  | m, c :: cs =>
    if m < c.remainingLength then
      if m = 0 then 0
      else
        match c.type with
        | .mem => c.remainingLength - m
        | .file => 0
    else overrun (m - c.remainingLength) cs

@[simp] theorem overrun_zero : ∀ cs : List Chunk, overrun 0 cs = 0
  | [] => rfl
  | c :: cs => by
    rw [overrun]
    by_cases h : 0 < c.remainingLength
    · rw [if_pos h, if_pos rfl]
    · rw [if_neg h, Nat.zero_sub]
      exact overrun_zero cs

theorem remainingLength_advance (c : Chunk) (n : ℕ) (h : n ≤ c.remainingLength) :
    (c.advance n h).remainingLength = c.remainingLength - n := by
  simp only [Chunk.remainingLength, Chunk.advance]
  omega

/-- Bytes that are sent move the end of the budget with them. -/
theorem overrun_markWrittenLoop :
    ∀ {cs cs' : List Chunk} {n m : ℕ}, markWrittenLoop n cs = some cs' → n ≤ m →
      overrun (m - n) cs' ≤ overrun m cs ∧ (n < m → overrun (m - n) cs' = overrun m cs)
  | [], cs', n, m, h, _ => by
    rw [markWrittenLoop] at h
    split_ifs at h
    cases h
    simp [overrun]
  | c :: cs, cs', n, m, h, hle => by
    rw [markWrittenLoop] at h
    split_ifs at h with h0 hrem
    · cases h
      simp [h0.1]
    · have hm : ¬ m < c.remainingLength := by omega
      have ih := overrun_markWrittenLoop (m := m - c.remainingLength) h (by omega)
      have hsub : m - c.remainingLength - (n - c.remainingLength) = m - n := by omega
      rw [hsub] at ih
      rw [overrun, if_neg hm]
      exact ⟨ih.1, fun hlt => ih.2 (by omega)⟩
    · cases h
      simp only [overrun, remainingLength_advance, Chunk.type_advance]
      by_cases hm : m < c.remainingLength
      · have hm' : m - n < c.remainingLength - n := by omega
        rw [if_pos hm, if_pos hm']
        have hsub : c.remainingLength - n - (m - n) = c.remainingLength - m := by omega
        rw [hsub]
        split_ifs with h1 h2
        · exact ⟨le_rfl, fun _ => rfl⟩
        · exact ⟨Nat.zero_le _, fun hlt => by omega⟩
        · omega
        · exact ⟨le_rfl, fun _ => rfl⟩
      · have hm' : ¬ m - n < c.remainingLength - n := by omega
        have hsub : m - n - (c.remainingLength - n) = m - c.remainingLength := by omega
        rw [if_neg hm, if_neg hm', hsub]
        exact ⟨le_rfl, fun _ => rfl⟩

theorem overrun_dropWhile (m : ℕ) :
    ∀ cs : List Chunk, overrun m (cs.dropWhile fun c => c.remainingLength = 0) = overrun m cs
  | [] => rfl
  | c :: cs => by
    by_cases h : c.remainingLength = 0
    · rw [List.dropWhile_cons_of_pos (by simpa using h), overrun_dropWhile m cs, overrun,
        if_neg (by omega), h, Nat.sub_zero]
    · rw [List.dropWhile_cons_of_neg (by simpa using h)]

theorem length_markWrittenLoop_le {n : ℕ} :
    ∀ {cs cs' : List Chunk}, markWrittenLoop n cs = some cs' → cs'.length ≤ cs.length
  | [], cs', h => by
    rw [markWrittenLoop] at h
    split_ifs at h
    cases h
    exact le_rfl
  | c :: cs, cs', h => by
    rw [markWrittenLoop] at h
    split_ifs at h
    · cases h
      exact le_rfl
    · exact (length_markWrittenLoop_le h).trans (Nat.le_succ _)
    · cases h
      exact le_rfl

/-- A turn sends the first bytes of the queue, marks them as written and takes them from the
budget; it goes on only when it brought something to an end. -/
structure TurnOk (cq : Chunkqueue) (maxBytes : ℤ) (t : NetTurn) : Prop where
  bytes : t.sent ++ t.cq.bytes = cq.bytes
  bytesIn : t.cq.bytesIn = cq.bytesIn
  budget : t.maxBytes = maxBytes - t.sent.length
  progress : t.ret = 0 →
    t.cq.chunks.length + t.cq.bytes.length < cq.chunks.length + cq.bytes.length
  overrun_le : t.sent.length ≤ maxBytes →
    overrun (maxBytes - t.sent.length).toNat t.cq.chunks ≤ overrun maxBytes.toNat cq.chunks
  overrun_eq : t.sent.length < maxBytes →
    overrun (maxBytes - t.sent.length).toNat t.cq.chunks = overrun maxBytes.toNat cq.chunks

variable {ret maxBytes : ℤ} {cq : Chunkqueue} {c : Chunk} {cs : List Chunk} {n : ℕ}
  {backend : NetBackend}

theorem stopTurn_ok (cq : Chunkqueue) (maxBytes : ℤ) (h : ret ≠ 0) :
    TurnOk cq maxBytes (stopTurn cq maxBytes ret) where
  bytes := rfl
  bytesIn := rfl
  budget := by simp [stopTurn]
  progress h0 := absurd h0 h
  overrun_le _ := by simp [stopTurn]
  overrun_eq _ := by simp [stopTurn]

theorem finishedTurn_ok (maxBytes : ℤ) (hcs : cq.chunks = c :: cs) (hc : c.remainingLength = 0) :
    TurnOk cq maxBytes (finishedTurn cq maxBytes) := by
  have hchunks : (finishedTurn cq maxBytes).cq.chunks =
      cq.chunks.dropWhile fun c => c.remainingLength = 0 := rfl
  have hover := overrun_dropWhile maxBytes.toNat cq.chunks
  have hlen : (finishedTurn cq maxBytes).cq.chunks.length < cq.chunks.length := by
    rw [hchunks, hcs, List.dropWhile_cons_of_pos (by simpa using hc)]
    exact Nat.lt_succ_of_le (List.dropWhile_sublist _).length_le
  have hbytes : (finishedTurn cq maxBytes).cq.bytes = cq.bytes := bytes_removeFinishedChunks cq
  refine ⟨by simp [finishedTurn, stopTurn], rfl, by simp [finishedTurn, stopTurn],
    fun _ => by rw [hbytes]; omega, fun _ => ?_, fun _ => ?_⟩
  · rw [hchunks]
    simpa [finishedTurn, stopTurn] using hover.le
  · rw [hchunks]
    simpa [finishedTurn, stopTurn] using hover

/-- Sending the first `n` bytes of the queue. -/
theorem markTurn_ok {cq' : Chunkqueue} (h : chunkqueueMarkWritten cq n = some cq')
    (hret : ret = 0 → 0 < n) : TurnOk cq maxBytes ⟨cq', maxBytes - n, cq.bytes.take n, ret⟩ := by
  obtain ⟨-, hle, hbytes, hin, hloop⟩ := markWritten_eq_some h
  rw [Int.toNat_natCast] at hbytes hloop
  have hlen : (cq.bytes.take n).length = n := by
    rw [List.length_take]
    omega
  have hdrop : cq'.bytes.length = cq.bytes.length - n := by rw [hbytes, List.length_drop]
  have hchunks := length_markWrittenLoop_le hloop
  refine ⟨?_, hin, by simp only [hlen], fun h0 => ?_, fun hm => ?_, fun hm => ?_⟩
  · simp only [hbytes, List.take_append_drop]
  · have := hret h0
    change cq'.chunks.length + cq'.bytes.length < _
    omega
  · simp only [hlen] at hm ⊢
    have := (overrun_markWrittenLoop (m := maxBytes.toNat) hloop (by omega)).1
    rwa [show (maxBytes - n).toNat = maxBytes.toNat - n by omega]
  · simp only [hlen] at hm ⊢
    have := (overrun_markWrittenLoop (m := maxBytes.toNat) hloop (by omega)).2 (by omega)
    rwa [show (maxBytes - n).toNat = maxBytes.toNat - n by omega]

theorem markWritten_natCast (cq : Chunkqueue) (h : n ≤ cq.bytes.length) :
    ∃ cq', chunkqueueMarkWritten cq n = some cq' := by
  refine Option.isSome_iff_exists.mp ((markWritten_isSome_iff cq n).mpr ⟨by omega, ?_⟩)
  rw [chunkqueueLength_eq]
  exact_mod_cast h

/-- A call of `write` or `writev` with the first bytes of the queue. -/
theorem writeTurn_spec (maxBytes : ℤ) {data : Bytes} (hdata : data <+: cq.bytes) (call : WriteCall) :
    ∃ t, writeTurn cq maxBytes data call = some t ∧ TurnOk cq maxBytes t ∧
      t.sent.length ≤ data.length := by
  cases call with
  | wrote n =>
    have htake : data.take (min n data.length) = cq.bytes.take (min n data.length) := by
      obtain ⟨rest, hrest⟩ := hdata
      rw [← hrest, List.take_append_of_le_length (Nat.min_le_right _ _)]
    obtain ⟨cq', hcq'⟩ := markWritten_natCast cq
      ((Nat.min_le_right n data.length).trans hdata.length_le)
    refine ⟨_, by simp only [writeTurn, hcq', Option.map_some]; rfl, ?_, by simp⟩
    rw [htake]
    refine markTurn_ok hcq' fun h => ?_
    split_ifs at h with hall
    exact hall.1
  | again => exact ⟨_, rfl, stopTurn_ok cq maxBytes (by decide), Nat.zero_le _⟩
  | closed => exact ⟨_, rfl, stopTurn_ok cq maxBytes (by decide), Nat.zero_le _⟩
  | failed => exact ⟨_, rfl, stopTurn_ok cq maxBytes (by decide), Nat.zero_le _⟩

/-! ## The turns on one chunk -/

theorem clippedLength_le (c : Chunk) (maxBytes : ℤ) :
    clippedLength c maxBytes ≤ c.remainingLength := by
  unfold clippedLength
  split_ifs <;> omega

theorem clippedLength_le_max (c : Chunk) (h : 0 < maxBytes) :
    (clippedLength c maxBytes : ℤ) ≤ maxBytes := by
  unfold clippedLength
  split_ifs <;> omega

theorem clippedLength_eq_zero (h : 0 < maxBytes) (h0 : clippedLength c maxBytes = 0) :
    c.remainingLength = 0 := by
  unfold clippedLength at h0
  split_ifs at h0 <;> omega

theorem take_remaining_isPrefix (hcs : cq.chunks = c :: cs) (n : ℕ) :
    c.remaining.take n <+: cq.bytes := by
  rw [Chunkqueue.bytes, hcs, content_cons]
  exact (List.take_prefix n _).trans (List.prefix_append _ _)

theorem mmapWindow_spec (env : NetEnv) {offset fileEnd : ℕ} (h : offset < fileEnd)
    (mapped : Option (ℕ × ℕ)) :
    (mmapWindow env.pagesize offset fileEnd mapped).1 ≤ offset ∧
      offset - (mmapWindow env.pagesize offset fileEnd mapped).1 <
        (mmapWindow env.pagesize offset fileEnd mapped).2 := by
  unfold mmapWindow
  split
  · next m hm =>
    have := (Option.filter_eq_some_iff.mp hm).2
    simp only [decide_eq_true_eq] at this
    omega
  · have hmod := Nat.mod_lt offset env.pagesize_pos
    have hle := Nat.mod_le offset env.pagesize
    have hlt := env.pagesize_lt
    obtain ⟨start, hstart⟩ : ∃ start, mmapAlignOffset env.pagesize offset = start := ⟨_, rfl⟩
    have halign : start ≤ offset ∧ offset - start < env.pagesize := by
      rw [← hstart, mmapAlignOffset]
      omega
    simp only [hstart]
    split_ifs <;> omega

/-- The turn is there, is one that sends the first bytes, and sends at most `bound` bytes. -/
def GoodTurn (cq : Chunkqueue) (maxBytes bound : ℤ) (t : Option NetTurn) : Prop :=
  ∃ t', t = some t' ∧ TurnOk cq maxBytes t' ∧ t'.sent.length ≤ bound

section FirstChunk

variable {cq : Chunkqueue} {c : Chunk} {cs : List Chunk} {maxBytes : ℤ}

theorem goodTurn_stop (c : Chunk) (hret : ret ≠ 0) :
    GoodTurn cq maxBytes (clippedLength c maxBytes) (some (stopTurn cq maxBytes ret)) :=
  ⟨_, rfl, stopTurn_ok cq maxBytes hret, Int.natCast_nonneg _⟩

theorem goodTurn_finished (hcs : cq.chunks = c :: cs) (hc : c.remainingLength = 0) :
    GoodTurn cq maxBytes (clippedLength c maxBytes) (some (finishedTurn cq maxBytes)) :=
  ⟨_, rfl, finishedTurn_ok maxBytes hcs hc, Int.natCast_nonneg _⟩

theorem goodTurn_write (hcs : cq.chunks = c :: cs) (hn : n ≤ clippedLength c maxBytes)
    (call : WriteCall) :
    GoodTurn cq maxBytes (clippedLength c maxBytes) (writeTurn cq maxBytes (c.remaining.take n) call) := by
  obtain ⟨t, ht, hok, hlen⟩ := writeTurn_spec maxBytes (take_remaining_isPrefix hcs n) call
  rw [List.length_take] at hlen
  exact ⟨t, ht, hok, by omega⟩

theorem networkWriteMemChunk_good (h : 0 < maxBytes) (hcs : cq.chunks = c :: cs) (io : ChunkIo) :
    GoodTurn cq maxBytes (clippedLength c maxBytes) (networkWriteMemChunk cq c maxBytes io) := by
  unfold networkWriteMemChunk
  dsimp only
  split_ifs with h0
  · exact goodTurn_finished hcs (clippedLength_eq_zero h h0)
  · exact goodTurn_write hcs le_rfl _

theorem networkWriteFileChunkNoMmap_good (h : 0 < maxBytes) (hcs : cq.chunks = c :: cs)
    (io : ChunkIo) :
    GoodTurn cq maxBytes (clippedLength c maxBytes) (networkWriteFileChunkNoMmap cq c maxBytes io) := by
  unfold networkWriteFileChunkNoMmap
  dsimp only
  by_cases h0 : clippedLength c maxBytes = 0
  · rw [if_pos h0]
    exact goodTurn_finished hcs (clippedLength_eq_zero h h0)
  by_cases hopen : io.opened = false
  · rw [if_neg h0, if_pos hopen]
    exact goodTurn_stop c (by decide)
  by_cases hseek : io.lseek = false
  · rw [if_neg h0, if_neg hopen, if_pos hseek]
    exact goodTurn_stop c (by decide)
  rw [if_neg h0, if_neg hopen, if_neg hseek]
  cases io.read with
  | none => exact goodTurn_stop c (by decide)
  | some n =>
    refine goodTurn_write hcs ?_ _
    split_ifs <;> omega

theorem networkWriteFileChunkMmap_good (env : NetEnv) (h : 0 < maxBytes)
    (hcs : cq.chunks = c :: cs) (io : ChunkIo) :
    GoodTurn cq maxBytes (clippedLength c maxBytes) (networkWriteFileChunkMmap env cq c maxBytes io) := by
  have hrem := clippedLength_le c maxBytes
  unfold networkWriteFileChunkMmap
  dsimp only
  by_cases h0 : clippedLength c maxBytes = 0
  · rw [if_pos h0]
    exact goodTurn_finished hcs (clippedLength_eq_zero h h0)
  rw [if_neg h0]
  have hend : io.fileStart + c.offset < io.fileStart + c.data.length := by
    unfold Chunk.remainingLength at hrem
    omega
  have hwindow := mmapWindow_spec env hend io.mapped
  generalize mmapWindow env.pagesize (io.fileStart + c.offset)
    (io.fileStart + c.data.length) io.mapped = window at hwindow
  by_cases hopen : io.opened = false
  · rw [if_pos hopen]
    exact goodTurn_stop c (by decide)
  by_cases hmmap : io.mmap = false
  · rw [if_neg hopen, if_pos hmmap]
    exact goodTurn_stop c (by decide)
  rw [if_neg hopen, if_neg hmmap, if_neg (not_not.mpr hwindow)]
  by_cases hbus : io.sigbus = true
  · rw [if_pos hbus]
    exact goodTurn_stop c (by decide)
  · rw [if_neg hbus]
    refine goodTurn_write hcs ?_ _
    split_ifs <;> omega

theorem networkWriteFileChunk_good (env : NetEnv) (h : 0 < maxBytes) (hcs : cq.chunks = c :: cs)
    (io : ChunkIo) :
    GoodTurn cq maxBytes (clippedLength c maxBytes) (networkWriteFileChunk env cq c maxBytes io) := by
  unfold networkWriteFileChunk
  split_ifs
  · exact networkWriteFileChunkMmap_good env h hcs io
  · exact networkWriteFileChunkNoMmap_good h hcs io

theorem networkWriteFileChunkSendfile_good (env : NetEnv) (h : 0 < maxBytes)
    (hcs : cq.chunks = c :: cs) (io : ChunkIo) :
    GoodTurn cq maxBytes (clippedLength c maxBytes) (networkWriteFileChunkSendfile env cq c maxBytes io) := by
  have hrem := clippedLength_le c maxBytes
  have hbytes : cq.bytes = c.remaining ++ content cs := by rw [Chunkqueue.bytes, hcs, content_cons]
  have hmark : ∀ (n : ℕ) (ret : ℤ), n ≤ clippedLength c maxBytes → (ret = 0 → 0 < n) →
      GoodTurn cq maxBytes (clippedLength c maxBytes) ((chunkqueueMarkWritten cq n).map fun cq' =>
        ⟨cq', maxBytes - n, c.remaining.take n, ret⟩) := by
    intro n ret hn hret
    have hle : n ≤ c.remaining.length := by
      rw [Chunk.length_remaining]
      omega
    have htake : c.remaining.take n = cq.bytes.take n := by
      rw [hbytes, List.take_append_of_le_length hle]
    obtain ⟨cq', hcq'⟩ := markWritten_natCast cq (show n ≤ cq.bytes.length by
      rw [hbytes, List.length_append]
      omega)
    refine ⟨_, by simp only [hcq', Option.map_some]; rfl, ?_, ?_⟩
    · rw [htake]
      exact markTurn_ok hcq' hret
    · simp only [List.length_take]
      omega
  unfold networkWriteFileChunkSendfile
  dsimp only
  by_cases h0 : clippedLength c maxBytes = 0
  · rw [if_pos h0]
    exact goodTurn_finished hcs (clippedLength_eq_zero h h0)
  by_cases hopen : io.opened = false
  · rw [if_neg h0, if_pos hopen]
    exact goodTurn_stop c (by decide)
  rw [if_neg h0, if_neg hopen]
  cases io.sendfile with
  | sent n =>
    refine hmark _ _ (Nat.min_le_right _ _) fun hret => ?_
    split_ifs at hret with hall
    omega
  | again n => exact hmark _ (-3) (Nat.min_le_right _ _) fun hret => absurd hret (by decide)
  | closed => exact goodTurn_stop c (by decide)
  | unsupported => exact networkWriteFileChunk_good env h hcs _
  | failed => exact goodTurn_stop c (by decide)

end FirstChunk

theorem flatten_gatherChunks_isPrefix (maxBytes : ℤ) :
    ∀ (cs : List Chunk) (k n : ℕ), (gatherChunks maxBytes k n cs).flatten <+: content cs
  | [], _, _ => List.prefix_refl _
  | c :: cs, k, n => by
    rw [gatherChunks, content_cons]
    split_ifs with hmore hlen
    · rw [List.flatten_cons]
      exact (List.prefix_append_right_inj _).mpr (flatten_gatherChunks_isPrefix maxBytes cs _ _)
    · have hnil : c.remaining = [] := (Chunk.remaining_eq_nil_iff c).mpr (by omega)
      rw [hnil, List.nil_append]
      exact flatten_gatherChunks_isPrefix maxBytes cs _ _
    · exact List.nil_prefix

/-- What is gathered does not reach the end of the budget, or goes to the end of the chunk in
which the budget ends. -/
theorem length_gatherChunks (maxBytes : ℤ) :
    ∀ (cs : List Chunk) (k n : ℕ), (n : ℤ) < maxBytes →
      (n + (gatherChunks maxBytes k n cs).flatten.length : ℤ) < maxBytes ∨
        (n + (gatherChunks maxBytes k n cs).flatten.length : ℤ) =
          maxBytes + overrun (maxBytes - n).toNat cs
  | [], _, n, h => by simpa [gatherChunks] using .inl h
  | c :: cs, k, n, h => by
    rw [gatherChunks]
    split_ifs with hmore hlen
    · rw [List.flatten_cons, List.length_append, Chunk.length_remaining]
      by_cases hn : (n : ℤ) + c.remainingLength < maxBytes
      · have ih := length_gatherChunks maxBytes cs (k + 1) (n + c.remainingLength)
          (by push_cast; exact hn)
        rw [overrun, if_neg (by omega)]
        rw [show (maxBytes - n).toNat - c.remainingLength =
          (maxBytes - ↑(n + c.remainingLength)).toNat by omega]
        push_cast at ih ⊢
        rcases ih with ih | ih
        · left
          omega
        · right
          omega
      · have hstop : gatherChunks maxBytes (k + 1) (n + c.remainingLength) cs = [] := by
          cases cs with
          | nil => rfl
          | cons d ds =>
            rw [gatherChunks, if_neg]
            push_cast
            exact fun h' => hn h'.2.2
        right
        rw [hstop, overrun]
        by_cases hin : (maxBytes - n).toNat < c.remainingLength
        · rw [if_pos hin, if_neg (by omega), hmore.1]
          simp only [List.flatten_nil, List.length_nil]
          omega
        · rw [if_neg hin, show (maxBytes - n).toNat - c.remainingLength = 0 by omega, overrun_zero]
          simp only [List.flatten_nil, List.length_nil]
          omega
    · have ih := length_gatherChunks maxBytes cs k n h
      rw [overrun, if_neg (by omega), show c.remainingLength = 0 by omega, Nat.sub_zero]
      exact ih
    · left
      simpa using h

theorem gatherChunks_eq_nil (h : 0 < maxBytes) (hc : c.type = .mem)
    (h0 : gatherChunks maxBytes 0 0 (c :: cs) = []) : c.remainingLength = 0 := by
  have hmax : 0 < MAX_CHUNKS := by decide
  rw [gatherChunks, if_pos ⟨hc, hmax, by simpa using h⟩] at h0
  by_contra hne
  rw [if_pos (Nat.pos_of_ne_zero hne)] at h0
  cases h0

theorem gatherChunks_nonempty :
    ∀ {cs : List Chunk} {k n : ℕ}, ∀ data ∈ gatherChunks maxBytes k n cs, data ≠ []
  | [], _, _, data, h => by cases h
  | c :: cs, k, n, data, h => by
    rw [gatherChunks] at h
    split_ifs at h with hmore hlen
    · rcases List.mem_cons.mp h with rfl | h
      · rw [ne_eq, Chunk.remaining_eq_nil_iff]
        omega
      · exact gatherChunks_nonempty data h
    · exact gatherChunks_nonempty data h
    · cases h

theorem networkWritevMemChunks_good (h : 0 < maxBytes) (hcs : cq.chunks = c :: cs)
    (hc : c.type = .mem) (io : ChunkIo) :
    GoodTurn cq maxBytes (maxBytes + overrun maxBytes.toNat cq.chunks)
      (networkWritevMemChunks cq maxBytes io) := by
  unfold networkWritevMemChunks
  dsimp only
  split_ifs with h0
  · rw [List.length_eq_zero_iff, hcs] at h0
    have hc0 := gatherChunks_eq_nil h hc h0
    have hle := clippedLength_le c maxBytes
    have hgood : GoodTurn cq maxBytes (clippedLength c maxBytes) _ := goodTurn_finished hcs hc0
    obtain ⟨t, ht, hok, hlen⟩ := hgood
    exact ⟨t, ht, hok, by omega⟩
  · obtain ⟨t, ht, hok, hlen⟩ := writeTurn_spec maxBytes
      (flatten_gatherChunks_isPrefix maxBytes cq.chunks 0 0) io.write
    have hgather := length_gatherChunks maxBytes cq.chunks 0 0 (by simpa using h)
    simp only [Nat.cast_zero, zero_add, sub_zero] at hgather
    exact ⟨t, ht, hok, by omega⟩

/-- What a writer may send more than `max_bytes`. -/
def NetBackend.extra (backend : NetBackend) (m : ℕ) (cs : List Chunk) : ℕ :=
  if backend = .write then 0 else overrun m cs

theorem netTurn_good (backend : NetBackend) (env : NetEnv) (h : 0 < maxBytes)
    (hcs : cq.chunks = c :: cs) (io : ChunkIo) :
    GoodTurn cq maxBytes (maxBytes + backend.extra maxBytes.toNat cq.chunks)
      (netTurn backend env cq c maxBytes io) := by
  have hmax := clippedLength_le_max c h
  have hmore : ∀ {t}, GoodTurn cq maxBytes (clippedLength c maxBytes) t →
      GoodTurn cq maxBytes (maxBytes + backend.extra maxBytes.toNat cq.chunks) t := by
    rintro t ⟨t', ht, hok, hlen⟩
    exact ⟨t', ht, hok, by omega⟩
  unfold netTurn
  cases hc : c.type with
  | mem =>
    cases backend with
    | write => exact hmore (networkWriteMemChunk_good h hcs io)
    | writev => exact networkWritevMemChunks_good h hcs hc io
    | sendfile => exact networkWritevMemChunks_good h hcs hc io
  | file =>
    cases backend with
    | write => exact hmore (networkWriteFileChunk_good env h hcs io)
    | writev => exact hmore (networkWriteFileChunk_good env h hcs io)
    | sendfile => exact hmore (networkWriteFileChunkSendfile_good env h hcs io)

/-- A writer sends first bytes of the queue, marks them as written, and sends at most the end of
the chunk in which its budget ends. -/
theorem networkWriteLoop_spec (backend : NetBackend) (env : NetEnv) :
    ∀ (n : ℕ) (io : ℕ → ChunkIo) (cq : Chunkqueue) (maxBytes : ℤ) (sent : Bytes),
      cq.chunks.length + cq.bytes.length < n →
      ∃ r more, networkWriteLoop (netTurn backend env) n io cq maxBytes sent = some r ∧
        r.sent = sent ++ more ∧ more ++ r.cq.bytes = cq.bytes ∧ r.cq.bytesIn = cq.bytesIn ∧
        (0 < maxBytes → more.length ≤ maxBytes + backend.extra maxBytes.toNat cq.chunks) ∧
        (maxBytes ≤ 0 → more = [])
  | 0, _, _, _, _, h => absurd h (Nat.not_lt_zero _)
  | n + 1, io, cq, maxBytes, sent, h => by
    rw [networkWriteLoop]
    cases hcs : cq.chunks with
    | nil =>
      exact ⟨_, [], rfl, by simp, rfl, rfl, fun hm => by simp; omega, fun _ => rfl⟩
    | cons c cs =>
      dsimp only
      by_cases hm : maxBytes ≤ 0
      · rw [if_pos hm]
        exact ⟨_, [], rfl, by simp, rfl, rfl, fun hm' => by omega, fun _ => rfl⟩
      rw [not_le] at hm
      obtain ⟨t, ht, hok, hlen⟩ := netTurn_good backend env hm hcs (io 0)
      rw [if_neg (not_le.mpr hm), ht, ← hcs]
      dsimp only
      have hstop : ∀ ret, ∃ r more, some (NetResult.mk t.cq (sent ++ t.sent) ret) = some r ∧
          r.sent = sent ++ more ∧ more ++ r.cq.bytes = cq.bytes ∧ r.cq.bytesIn = cq.bytesIn ∧
          (0 < maxBytes → more.length ≤ maxBytes + backend.extra maxBytes.toNat cq.chunks) ∧
          (maxBytes ≤ 0 → more = []) := fun ret =>
        ⟨_, t.sent, rfl, rfl, hok.bytes, hok.bytesIn, fun _ => hlen, fun hm' => by omega⟩
      by_cases hagain : t.ret = -3
      · rw [if_pos hagain]
        exact hstop 0
      by_cases hfail : t.ret ≠ 0
      · rw [if_neg hagain, if_pos hfail]
        exact hstop t.ret
      rw [if_neg hagain, if_neg hfail]
      have hprogress := hok.progress (not_not.mp hfail)
      obtain ⟨r, more, hr, hsent, hbytes, hin, hmore, hnil⟩ := networkWriteLoop_spec backend env n
        (fun i => io (i + 1)) t.cq t.maxBytes (sent ++ t.sent) (by omega)
      refine ⟨r, t.sent ++ more, hr, by rw [hsent, List.append_assoc], ?_, hin.trans hok.bytesIn,
        fun _ => ?_, fun hm' => by omega⟩
      · rw [List.append_assoc, hbytes, hok.bytes]
      · have hbudget := hok.budget
        rw [List.length_append]
        push_cast
        by_cases hlt : (t.sent.length : ℤ) < maxBytes
        · have hextra : backend.extra t.maxBytes.toNat t.cq.chunks =
              backend.extra maxBytes.toNat cq.chunks := by
            unfold NetBackend.extra
            split_ifs
            · rfl
            · rw [hbudget, hok.overrun_eq hlt]
          have := hmore (by omega)
          omega
        · rw [hnil (by omega), List.length_nil]
          push_cast
          omega

/-! ## Calls that take everything -/

/-- Every call takes all of up to `n` bytes. -/
def fullIo (n : ℕ) : ChunkIo where
  opened := true
  reopened := true
  fileStart := 0
  mapped := none
  mmap := true
  sigbus := false
  lseek := true
  read := some n
  write := .wrote n
  sendfile := .sent n

theorem fullIo_succeeds (n : ℕ) :
    ¬ (fullIo n).opened = false ∧ ¬ (fullIo n).mmap = false ∧ ¬ (fullIo n).lseek = false ∧
      ¬ (fullIo n).sigbus = true := by
  simp [fullIo]

theorem writeTurn_full (maxBytes : ℤ) {data : Bytes} (hdata : data <+: cq.bytes) (hne : data ≠ [])
    (hn : cq.bytes.length ≤ n) :
    ∃ t, writeTurn cq maxBytes data (.wrote n) = some t ∧ t.ret = 0 ∧ t.sent = data := by
  have hle := hdata.length_le
  have hmin : min n data.length = data.length := Nat.min_eq_right (hle.trans hn)
  obtain ⟨cq', hcq'⟩ := markWritten_natCast cq hle
  refine ⟨_, by simp only [writeTurn, hmin, hcq', Option.map_some]; rfl, ?_, List.take_length⟩
  exact if_pos ⟨List.length_pos_of_ne_nil hne, trivial⟩

section FullChunk

variable {cq : Chunkqueue} {c : Chunk} {cs : List Chunk} {maxBytes : ℤ} {n : ℕ}

theorem finishedTurn_ret : ∃ t, some (finishedTurn cq maxBytes) = some t ∧ t.ret = 0 :=
  ⟨_, rfl, rfl⟩

theorem writeTurn_take_full (hcs : cq.chunks = c :: cs) (hn : cq.bytes.length ≤ n) {k : ℕ}
    (hk : 0 < k) (hc : 0 < c.remainingLength) :
    ∃ t, writeTurn cq maxBytes (c.remaining.take k) (.wrote n) = some t ∧ t.ret = 0 := by
  have hne : c.remaining.take k ≠ [] := by
    refine List.ne_nil_of_length_pos ?_
    rw [List.length_take, Chunk.length_remaining]
    omega
  obtain ⟨t, ht, hret, -⟩ := writeTurn_full maxBytes (take_remaining_isPrefix hcs k) hne hn
  exact ⟨t, ht, hret⟩

theorem networkWriteFileChunk_full (env : NetEnv) (hcs : cq.chunks = c :: cs)
    (hn : cq.bytes.length ≤ n) :
    ∃ t, networkWriteFileChunk env cq c maxBytes (fullIo n) = some t ∧ t.ret = 0 := by
  obtain ⟨hopen, hmmap, hseek, hbus⟩ := fullIo_succeeds n
  have hrem := clippedLength_le c maxBytes
  have hlen : c.remainingLength ≤ cq.bytes.length := by
    rw [Chunkqueue.bytes, hcs, content_cons, List.length_append, Chunk.length_remaining]
    omega
  unfold networkWriteFileChunk
  split_ifs
  · unfold networkWriteFileChunkMmap
    dsimp only
    by_cases h0 : clippedLength c maxBytes = 0
    · rw [if_pos h0]
      exact finishedTurn_ret
    have hend : (fullIo n).fileStart + c.offset < (fullIo n).fileStart + c.data.length := by
      unfold Chunk.remainingLength at hrem
      omega
    have hwindow := mmapWindow_spec env hend (fullIo n).mapped
    generalize mmapWindow env.pagesize ((fullIo n).fileStart + c.offset)
      ((fullIo n).fileStart + c.data.length) (fullIo n).mapped = window at hwindow
    rw [if_neg h0, if_neg hopen, if_neg hmmap, if_neg (not_not.mpr hwindow), if_neg hbus]
    refine writeTurn_take_full hcs hn ?_ (by omega)
    split_ifs <;> omega
  · unfold networkWriteFileChunkNoMmap
    dsimp only
    by_cases h0 : clippedLength c maxBytes = 0
    · rw [if_pos h0]
      exact finishedTurn_ret
    rw [if_neg h0, if_neg hopen, if_neg hseek]
    refine writeTurn_take_full hcs hn ?_ (by omega)
    split_ifs <;> omega

theorem networkWriteFileChunkSendfile_full (env : NetEnv) (hcs : cq.chunks = c :: cs)
    (hn : cq.bytes.length ≤ n) :
    ∃ t, networkWriteFileChunkSendfile env cq c maxBytes (fullIo n) = some t ∧ t.ret = 0 := by
  obtain ⟨hopen, -, -, -⟩ := fullIo_succeeds n
  have hrem := clippedLength_le c maxBytes
  have hlen : c.remainingLength ≤ cq.bytes.length := by
    rw [Chunkqueue.bytes, hcs, content_cons, List.length_append, Chunk.length_remaining]
    omega
  unfold networkWriteFileChunkSendfile
  dsimp only
  by_cases h0 : clippedLength c maxBytes = 0
  · rw [if_pos h0]
    exact finishedTurn_ret
  rw [if_neg h0, if_neg hopen]
  have hmin : min n (clippedLength c maxBytes) = clippedLength c maxBytes :=
    Nat.min_eq_right (by omega)
  obtain ⟨cq', hcq'⟩ := markWritten_natCast cq (hrem.trans hlen)
  simp only [fullIo, hmin, hcq', Option.map_some, if_true]
  exact ⟨_, rfl, rfl⟩

theorem networkWritevMemChunks_full (h : 0 < maxBytes)
    (hn : cq.bytes.length ≤ n) :
    ∃ t, networkWritevMemChunks cq maxBytes (fullIo n) = some t ∧ t.ret = 0 ∧
      ((t.sent.length : ℤ) < maxBytes ∨
        (t.sent.length : ℤ) = maxBytes + overrun maxBytes.toNat cq.chunks) := by
  unfold networkWritevMemChunks
  dsimp only [fullIo]
  split_ifs with h0
  · exact ⟨_, rfl, rfl, .inl (by simpa [finishedTurn, stopTurn] using h)⟩
  · have hne : (gatherChunks maxBytes 0 0 cq.chunks).flatten ≠ [] := by
      obtain ⟨data, hdata⟩ := List.exists_mem_of_length_pos (Nat.pos_of_ne_zero h0)
      rw [ne_eq, List.flatten_eq_nil_iff]
      exact fun hall => gatherChunks_nonempty data hdata (hall data hdata)
    obtain ⟨t, ht, hret, hsent⟩ := writeTurn_full maxBytes
      (flatten_gatherChunks_isPrefix maxBytes cq.chunks 0 0) hne hn
    have hgather := length_gatherChunks maxBytes cq.chunks 0 0 (by simpa using h)
    simp only [Nat.cast_zero, zero_add, sub_zero] at hgather
    exact ⟨t, ht, hret, by rw [hsent]; exact hgather⟩

/-- Where the budget ends inside a memory chunk, a turn of a writer that is not `write` goes on
before that chunk or sends all of it. -/
theorem netTurn_full (hb : backend ≠ .write) (env : NetEnv) (h : 0 < maxBytes)
    (hcs : cq.chunks = c :: cs) (hn : cq.bytes.length ≤ n)
    (hover : 0 < overrun maxBytes.toNat cq.chunks) :
    ∃ t, netTurn backend env cq c maxBytes (fullIo n) = some t ∧ t.ret = 0 ∧
      ((t.sent.length : ℤ) < maxBytes ∨
        (t.sent.length : ℤ) = maxBytes + overrun maxBytes.toNat cq.chunks) := by
  unfold netTurn
  cases hc : c.type with
  | mem =>
    cases backend with
    | write => exact absurd rfl hb
    | writev => exact networkWritevMemChunks_full h hn
    | sendfile => exact networkWritevMemChunks_full h hn
  | file =>
    -- the budget ends behind a file chunk that is first
    have hrem : (c.remainingLength : ℤ) < maxBytes := by
      rw [hcs, overrun, hc] at hover
      split_ifs at hover with hlt h0
      · exact absurd hover (lt_irrefl 0)
      · exact absurd hover (lt_irrefl 0)
      · by_contra hle
        rw [show maxBytes.toNat - c.remainingLength = 0 by omega, overrun_zero] at hover
        exact lt_irrefl 0 hover
    have hle := clippedLength_le c maxBytes
    have hfull : ∀ {turn : Option NetTurn}, GoodTurn cq maxBytes (clippedLength c maxBytes) turn →
        (∃ t, turn = some t ∧ t.ret = 0) → ∃ t, turn = some t ∧ t.ret = 0 ∧
          ((t.sent.length : ℤ) < maxBytes ∨
            (t.sent.length : ℤ) = maxBytes + overrun maxBytes.toNat cq.chunks) := by
      rintro turn ⟨t, ht, -, hlen⟩ ⟨t', ht', hret⟩
      rw [ht] at ht'
      obtain rfl := Option.some.inj ht'
      exact ⟨t, ht, hret, .inl (by omega)⟩
    cases backend with
    | write => exact absurd rfl hb
    | writev =>
      exact hfull (networkWriteFileChunk_good env h hcs _) (networkWriteFileChunk_full env hcs hn)
    | sendfile =>
      exact hfull (networkWriteFileChunkSendfile_good env h hcs _)
        (networkWriteFileChunkSendfile_full env hcs hn)

end FullChunk

/-- When every call takes everything and the budget ends inside a memory chunk, a writer that is
not `write` sends that chunk whole. -/
theorem networkWriteLoop_full (hb : backend ≠ .write) (env : NetEnv) (k : ℕ) :
    ∀ (n : ℕ) (cq : Chunkqueue) (maxBytes : ℤ) (sent : Bytes),
      cq.chunks.length + cq.bytes.length < n → cq.bytes.length ≤ k → 0 < maxBytes →
      0 < overrun maxBytes.toNat cq.chunks →
      ∃ r more, networkWriteLoop (netTurn backend env) n (fun _ => fullIo k) cq maxBytes sent =
          some r ∧ r.sent = sent ++ more ∧
        (more.length : ℤ) = maxBytes + overrun maxBytes.toNat cq.chunks
  | 0, _, _, _, h, _, _, _ => absurd h (Nat.not_lt_zero _)
  | n + 1, cq, maxBytes, sent, h, hk, hm, hover => by
    rw [networkWriteLoop]
    cases hcs : cq.chunks with
    | nil =>
      rw [hcs, overrun] at hover
      exact absurd hover (lt_irrefl 0)
    | cons c cs =>
      obtain ⟨t, ht, hret, hsent⟩ := netTurn_full hb env hm hcs hk hover
      obtain ⟨t', ht', hok, -⟩ := netTurn_good backend env hm hcs (fullIo k)
      obtain rfl : t = t' := Option.some.inj (ht.symm.trans ht')
      have hprogress := hok.progress hret
      have hbudget := hok.budget
      have hlen := congrArg List.length hok.bytes
      rw [List.length_append] at hlen
      dsimp only
      rw [if_neg (not_le.mpr hm), ht, ← hcs]
      dsimp only
      rw [if_neg (by rw [hret]; decide), if_neg (not_not.mpr hret)]
      by_cases hlt : (t.sent.length : ℤ) < maxBytes
      · have heq := hok.overrun_eq hlt
        rw [← hbudget] at heq
        obtain ⟨r, more, hr, hrs, hmore⟩ := networkWriteLoop_full hb env k n t.cq t.maxBytes
          (sent ++ t.sent) (by omega) (by omega) (by omega) (by omega)
        refine ⟨r, t.sent ++ more, hr, by rw [hrs, List.append_assoc], ?_⟩
        rw [List.length_append]
        push_cast
        omega
      · obtain ⟨r, more, hr, hrs, -, -, -, hnil⟩ := networkWriteLoop_spec backend env n
          (fun _ => fullIo k) t.cq t.maxBytes (sent ++ t.sent) (by omega)
        refine ⟨r, t.sent, hr, by rw [hrs, hnil (by omega), List.append_nil], ?_⟩
        omega

theorem networkWriteChunkqueue_spec (backend : NetBackend) (env : NetEnv) (cq : Chunkqueue)
    (h : 0 < maxBytes) (io : ℕ → ChunkIo) :
    ∃ r, networkWriteChunkqueue backend env cq maxBytes io = some r ∧
      r.sent ++ r.cq.bytes = cq.bytes ∧ r.cq.bytesOut = cq.bytesOut + r.sent.length ∧
      r.sent.length ≤ maxBytes + backend.extra maxBytes.toNat cq.chunks := by
  obtain ⟨r, more, hr, hsent, hbytes, hin, hlen, -⟩ := networkWriteLoop_spec backend env
    (cq.chunks.length + cq.bytes.length + 1) io cq maxBytes [] (Nat.lt_succ_self _)
  rw [List.nil_append] at hsent
  rw [← hsent] at hbytes hlen
  have h1 := bytesIn_eq cq
  have h2 := bytesIn_eq r.cq
  have h3 := congrArg List.length hbytes
  rw [List.length_append] at h3
  exact ⟨r, hr, hbytes, by omega, hlen h⟩

theorem networkWriteChunkqueue_full (hb : backend ≠ .write) (env : NetEnv) (cq : Chunkqueue)
    (h : 0 < maxBytes) (hover : 0 < overrun maxBytes.toNat cq.chunks) :
    ∃ r, networkWriteChunkqueue backend env cq maxBytes (fun _ => fullIo cq.bytes.length) = some r ∧
      (r.sent.length : ℤ) = maxBytes + overrun maxBytes.toNat cq.chunks := by
  obtain ⟨r, more, hr, hsent, hlen⟩ := networkWriteLoop_full hb env cq.bytes.length
    (cq.chunks.length + cq.bytes.length + 1) cq maxBytes [] (Nat.lt_succ_self _) le_rfl h hover
  rw [List.nil_append] at hsent
  exact ⟨r, hr, by rw [hsent]; exact hlen⟩

/-- Whatever the system calls return, a writer sends first bytes of the queue, marks as written
what it sent, and stays in its budget. -/
def NetworkWriteOk (backend : NetBackend) (env : NetEnv) (cq : Chunkqueue) (maxBytes : ℤ) : Prop :=
  ∀ io, ∃ r, networkWriteChunkqueue backend env cq maxBytes io = some r ∧
    r.sent ++ r.cq.bytes = cq.bytes ∧ r.cq.bytesOut = cq.bytesOut + r.sent.length ∧
    r.sent.length ≤ maxBytes

theorem networkWriteOk_iff (backend : NetBackend) (env : NetEnv) (cq : Chunkqueue)
    (h : 0 < maxBytes) :
    NetworkWriteOk backend env cq maxBytes ↔
      backend = .write ∨ overrun maxBytes.toNat cq.chunks = 0 := by
  constructor
  · intro hall
    by_contra hno
    obtain ⟨hb, hover⟩ := not_or.mp hno
    obtain ⟨r, hr, hlen⟩ := networkWriteChunkqueue_full hb env cq h (Nat.pos_of_ne_zero hover)
    obtain ⟨r', hr', -, -, hle⟩ := hall fun _ => fullIo cq.bytes.length
    rw [hr] at hr'
    obtain rfl := Option.some.inj hr'
    omega
  · intro hok io
    obtain ⟨r, hr, hbytes, hout, hlen⟩ := networkWriteChunkqueue_spec backend env cq h io
    have hextra : backend.extra maxBytes.toNat cq.chunks = 0 := by
      unfold NetBackend.extra
      split_ifs with hb
      · rfl
      · exact hok.resolve_left hb
    exact ⟨r, hr, hbytes, hout, by omega⟩

/-! ## Limits per second -/

/-- The limits of a connection in kilobytes per second; zero is none. -/
structure ThrottleConf where
  kbytesPerSecond : ℕ
  globalKbytesPerSecond : ℕ
  deriving DecidableEq, Repr

/-- What a connection has sent, and the bytes of all connections in this second. -/
structure WriteCounters where
  bytesWritten : ℤ
  bytesWrittenCurSecond : ℤ
  globalBytesPerSecondCnt : ℤ
  trafficLimitReached : Bool
  deriving DecidableEq, Repr

/-- `connection_write_throttle`: the budget, which is zero when a limit is reached, and
`con->traffic_limit_reached`. -/
def connectionWriteThrottle (conf : ThrottleConf) (con : WriteCounters) (maxBytes : ℤ) : ℤ × Bool :=
  let globalLimit : ℤ := conf.globalKbytesPerSecond * 1024 - con.globalBytesPerSecondCnt
  let limit : ℤ := conf.kbytesPerSecond * 1024 - con.bytesWrittenCurSecond
  if conf.globalKbytesPerSecond ≠ 0 ∧ globalLimit ≤ 0 then (0, true)
  else
    let maxBytes :=
      if conf.globalKbytesPerSecond ≠ 0 ∧ maxBytes > globalLimit then globalLimit else maxBytes
    if conf.kbytesPerSecond ≠ 0 ∧ limit ≤ 0 then (0, true)
    else if conf.kbytesPerSecond ≠ 0 ∧ maxBytes > limit then (limit, con.trafficLimitReached)
    else (maxBytes, con.trafficLimitReached)

/-- `connection_write_chunkqueue`: what it returns, the queue and the counters. -/
def connectionWriteChunkqueue (backend : NetBackend) (env : NetEnv) (conf : ThrottleConf)
    (con : WriteCounters) (cq : Chunkqueue) (maxBytes : ℤ) (io : ℕ → ChunkIo) :
    Option (ℤ × Chunkqueue × WriteCounters) :=
  let throttle := connectionWriteThrottle conf con maxBytes
  let con := { con with trafficLimitReached := throttle.2 }
  if throttle.1 = 0 then some (1, cq, con)
  else
    (networkWriteChunkqueue backend env cq throttle.1 io).map fun r =>
      let cq' := if r.ret ≥ 0 then chunkqueueRemoveFinishedChunks r.cq else r.cq
      let written : ℤ := cq'.bytesOut - cq.bytesOut
      (if r.ret ≥ 0 then if cq'.isEmpty then 0 else 1 else r.ret, cq',
        { con with
          bytesWritten := con.bytesWritten + written
          bytesWrittenCurSecond := con.bytesWrittenCurSecond + written
          globalBytesPerSecondCnt := con.globalBytesPerSecondCnt + written })

theorem connectionWriteThrottle_spec (conf : ThrottleConf) (con : WriteCounters) (h : 0 < maxBytes) :
    0 ≤ (connectionWriteThrottle conf con maxBytes).1 ∧
      (conf.kbytesPerSecond ≠ 0 → (connectionWriteThrottle conf con maxBytes).1 ≠ 0 →
        con.bytesWrittenCurSecond + (connectionWriteThrottle conf con maxBytes).1 ≤
          conf.kbytesPerSecond * 1024) := by
  unfold connectionWriteThrottle
  dsimp only
  split_ifs <;> omega

/-- The counter behind a call of `connection_write_chunkqueue`. -/
theorem connectionWriteChunkqueue_spec (backend : NetBackend) (env : NetEnv) (conf : ThrottleConf)
    (con : WriteCounters) (cq : Chunkqueue) (maxBytes : ℤ) (io : ℕ → ChunkIo)
    (h : 0 < (connectionWriteThrottle conf con maxBytes).1) :
    ∃ n r, networkWriteChunkqueue backend env cq (connectionWriteThrottle conf con maxBytes).1 io =
        some n ∧
      connectionWriteChunkqueue backend env conf con cq maxBytes io = some r ∧
      r.2.2.bytesWrittenCurSecond = con.bytesWrittenCurSecond + n.sent.length := by
  obtain ⟨n, hn, -, hout, -⟩ := networkWriteChunkqueue_spec backend env cq h io
  refine ⟨n, _, hn, by rw [connectionWriteChunkqueue, if_neg h.ne', hn]; rfl, ?_⟩
  have hsame : (if n.ret ≥ 0 then chunkqueueRemoveFinishedChunks n.cq else n.cq).bytesOut =
      n.cq.bytesOut := by
    split_ifs <;> rfl
  simp only [hsame, hout]
  push_cast
  omega

/-- Whatever the system calls return, a call of `connection_write_chunkqueue` does not take the
bytes of this second over the limit of the connection. -/
def KeepsRate (backend : NetBackend) (env : NetEnv) (conf : ThrottleConf) (con : WriteCounters)
    (cq : Chunkqueue) (maxBytes : ℤ) : Prop :=
  ∀ io, ∃ r, connectionWriteChunkqueue backend env conf con cq maxBytes io = some r ∧
    (conf.kbytesPerSecond ≠ 0 →
      r.2.2.bytesWrittenCurSecond ≤ max con.bytesWrittenCurSecond (conf.kbytesPerSecond * 1024))

/-- There is no limit, it is reached, the writer is `write`, or the chunk in which the budget ends
ends in the limit. -/
def RateFits (backend : NetBackend) (conf : ThrottleConf) (con : WriteCounters) (cq : Chunkqueue)
    (maxBytes : ℤ) : Prop :=
  let budget := (connectionWriteThrottle conf con maxBytes).1
  conf.kbytesPerSecond = 0 ∨ budget = 0 ∨ backend = .write ∨
    con.bytesWrittenCurSecond + budget + overrun budget.toNat cq.chunks ≤
      conf.kbytesPerSecond * 1024

theorem keepsRate_iff (backend : NetBackend) (env : NetEnv) (conf : ThrottleConf)
    (con : WriteCounters) (cq : Chunkqueue) (h : 0 < maxBytes) :
    KeepsRate backend env conf con cq maxBytes ↔ RateFits backend conf con cq maxBytes := by
  obtain ⟨hpos, hlimit⟩ := connectionWriteThrottle_spec conf con h
  have hspec := connectionWriteChunkqueue_spec backend env conf con cq maxBytes
  unfold KeepsRate RateFits
  dsimp only
  by_cases h0 : (connectionWriteThrottle conf con maxBytes).1 = 0
  · refine iff_of_true (fun io => ?_) (.inr (.inl h0))
    exact ⟨_, by rw [connectionWriteChunkqueue, if_pos h0], fun _ => le_max_left _ _⟩
  generalize (connectionWriteThrottle conf con maxBytes).1 = budget at hpos hlimit hspec h0
  have hbudget : 0 < budget := by omega
  constructor
  · intro hall
    by_contra hno
    simp only [not_or, not_le] at hno
    obtain ⟨hk, -, hb, hlt⟩ := hno
    have hle := hlimit hk h0
    obtain ⟨n, hn, hlen⟩ := networkWriteChunkqueue_full hb env cq hbudget (by omega)
    obtain ⟨n', r, hn', hr, hcur⟩ := hspec (fun _ => fullIo cq.bytes.length) hbudget
    obtain rfl : n = n' := Option.some.inj (hn.symm.trans hn')
    obtain ⟨r', hr', hrate⟩ := hall fun _ => fullIo cq.bytes.length
    obtain rfl : r = r' := Option.some.inj (hr.symm.trans hr')
    have := hrate hk
    omega
  · intro hfits io
    obtain ⟨n, r, hn, hr, hcur⟩ := hspec io hbudget
    refine ⟨r, hr, fun hk => ?_⟩
    obtain ⟨n', hn', -, -, hlen⟩ := networkWriteChunkqueue_spec backend env cq hbudget io
    obtain rfl : n = n' := Option.some.inj (hn.symm.trans hn')
    have hle := hlimit hk h0
    refine le_max_of_le_right ?_
    unfold NetBackend.extra at hlen
    split_ifs at hlen with hb
    · omega
    · have hfit := ((hfits.resolve_left hk).resolve_left h0).resolve_left hb
      omega

/-- A call of `connection_write_chunkqueue`, with the bytes of all connections at that time. -/
structure ConnectionWrite where
  cq : Chunkqueue
  maxBytes : ℤ
  io : ℕ → ChunkIo
  globalBytesPerSecondCnt : ℤ

/-- One call. -/
def connectionWrite (backend : NetBackend) (env : NetEnv) (conf : ThrottleConf) (con : WriteCounters)
    (w : ConnectionWrite) : Option (ℤ × Chunkqueue × WriteCounters) :=
  connectionWriteChunkqueue backend env conf
    { con with globalBytesPerSecondCnt := w.globalBytesPerSecondCnt } w.cq w.maxBytes w.io

/-- The calls of one second. -/
def connectionWrites (backend : NetBackend) (env : NetEnv) (conf : ThrottleConf) :
    WriteCounters → List ConnectionWrite → Option WriteCounters
  | con, [] => some con
  | con, w :: ws =>
    (connectionWrite backend env conf con w).bind fun r =>
      connectionWrites backend env conf r.2.2 ws

/-- Every call of the second meets the condition when its turn comes. -/
def WritesFit (backend : NetBackend) (env : NetEnv) (conf : ThrottleConf) :
    WriteCounters → List ConnectionWrite → Prop
  | _, [] => True
  | con, w :: ws =>
    0 < w.maxBytes ∧
      RateFits backend conf { con with globalBytesPerSecondCnt := w.globalBytesPerSecondCnt } w.cq
        w.maxBytes ∧
      ∀ r, connectionWrite backend env conf con w = some r →
        WritesFit backend env conf r.2.2 ws

theorem connectionWrites_le (backend : NetBackend) (env : NetEnv) (conf : ThrottleConf) :
    ∀ (ws : List ConnectionWrite) (con : WriteCounters), WritesFit backend env conf con ws →
      ∃ con', connectionWrites backend env conf con ws = some con' ∧
        (conf.kbytesPerSecond ≠ 0 → con'.bytesWrittenCurSecond ≤
          max con.bytesWrittenCurSecond (conf.kbytesPerSecond * 1024))
  | [], con, _ => ⟨con, rfl, fun _ => le_max_left _ _⟩
  | w :: ws, con, ⟨hpos, hfits, hrest⟩ => by
    obtain ⟨r, hr, hrate⟩ := (keepsRate_iff backend env conf _ w.cq hpos).mpr hfits w.io
    obtain ⟨con', hcon', hle⟩ := connectionWrites_le backend env conf ws r.2.2 (hrest r hr)
    refine ⟨con', ?_, fun hk => ?_⟩
    · rw [connectionWrites, connectionWrite, hr]
      exact hcon'
    · exact (hle hk).trans (max_le (hrate hk) (le_max_right _ _))

/-- A writer stays in its budget exactly when it is `write` or the budget does not end inside a
memory chunk; a call of `connection_write_chunkqueue` stays below the limit of the connection
exactly when `RateFits` says so; and when every call of a second does, the second does. -/
theorem networkWrite_budget_iff (backend : NetBackend) (env : NetEnv) :
    (∀ (cq : Chunkqueue) (maxBytes : ℤ), 0 < maxBytes →
      (NetworkWriteOk backend env cq maxBytes ↔
        backend = .write ∨ overrun maxBytes.toNat cq.chunks = 0)) ∧
    (∀ (conf : ThrottleConf) (con : WriteCounters) (cq : Chunkqueue) (maxBytes : ℤ), 0 < maxBytes →
      (KeepsRate backend env conf con cq maxBytes ↔ RateFits backend conf con cq maxBytes)) ∧
    ∀ (conf : ThrottleConf) (con : WriteCounters) (ws : List ConnectionWrite),
      WritesFit backend env conf con ws →
      ∃ con', connectionWrites backend env conf con ws = some con' ∧
        (conf.kbytesPerSecond ≠ 0 → con'.bytesWrittenCurSecond ≤
          max con.bytesWrittenCurSecond (conf.kbytesPerSecond * 1024)) :=
  ⟨fun cq _ h => networkWriteOk_iff backend env cq h,
    fun conf con cq _ h => keepsRate_iff backend env conf con cq h,
    fun conf con ws => connectionWrites_le backend env conf ws con⟩

/-- A build with `mmap` and pages of 4096 bytes. -/
def mmapEnv : NetEnv := ⟨true, 4096, by decide, by decide⟩

/-- Two memory chunks. -/
def twoMemChunks : Chunkqueue :=
  chunkqueueAppendMem (chunkqueueAppendMem (chunkqueueInit 1048576 0) (str "ab")) (str "cdef")

/-- With a budget that ends between the chunks. -/
theorem networkWrite_budget_between :
    NetworkWriteOk .writev mmapEnv twoMemChunks 2 ↔
      NetBackend.writev = .write ∨ overrun (2 : ℤ).toNat twoMemChunks.chunks = 0 :=
  (networkWrite_budget_iff .writev mmapEnv).1 twoMemChunks 2 (by decide)

/-- With a budget that ends inside the second chunk, `writev` sends both. -/
theorem networkWrite_over_budget :
    ¬ ∀ (backend : NetBackend) (env : NetEnv) (cq : Chunkqueue) (maxBytes : ℤ), 0 < maxBytes →
      NetworkWriteOk backend env cq maxBytes := by
  intro h
  have hok := (networkWriteOk_iff .writev mmapEnv twoMemChunks (by decide)).mp
    (h .writev mmapEnv twoMemChunks 3 (by decide))
  exact absurd hok (by decide +kernel)

end Lighttpd
