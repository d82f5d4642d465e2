import Lighttpd.Buffer
import Lighttpd.HeaderEnd
import Lighttpd.Tempfile

/-!
# Reading a chunked request body

`connection_handle_read_post_chunked` decodes what is in the read queue and moves the octets of
the body to the queue of the request content. Between two calls only `te_chunked` is kept:
zero at a chunk header, otherwise the octets left of the chunk and the CRLF behind it.

A chunk header has to be in the first chunk of the queue; `connection_handle_read_post_cq_compact`
moves the bytes of the second chunk behind those of the first until it is.
-/

namespace Lighttpd

open CString

/-- The `MEM_CHUNK` `d` with the bytes of `c` before its own. -/
def mergeChunks (c d : Chunk) : Chunk :=
  { d with
    data := c.data ++ d.remaining
    offset := c.offset
    offset_le := by have := c.offset_le; simp; omega }

@[simp] theorem remaining_mergeChunks (c d : Chunk) :
    (mergeChunks c d).remaining = c.remaining ++ d.remaining :=
  List.drop_append_of_le_length c.offset_le

/-- The loop of `connection_handle_read_post_cq_compact` on the first chunk, when there is one,
and those behind it. Without a first chunk finished chunks are removed. -/
def compactLoop : Option Chunk → List Chunk → Option (Bool × List Chunk)
  | none, [] => some (false, [])
  | some c, [] => some (false, [c])
  | none, d :: cs => if d.remainingLength = 0 then compactLoop none cs else compactLoop (some d) cs
  | some c, d :: cs =>
    if c.type = .mem ∧ d.type = .mem then
      if d.remainingLength ≠ 0 then some (true, mergeChunks c d :: cs)
      else if c.remainingLength = 0 then compactLoop none cs
      else compactLoop (some (mergeChunks c d)) cs
    else none

theorem compactLoop_content :
    ∀ {c : Option Chunk} {cs : List Chunk} {r : Bool × List Chunk}, compactLoop c cs = some r →
      content r.2 = content (c.toList ++ cs)
  | none, [], r, h => by
    cases h
    rfl
  | some c, [], r, h => by
    cases h
    rfl
  | none, d :: cs, r, h => by
    rw [compactLoop] at h
    split_ifs at h with hd
    · rw [compactLoop_content h]
      simp [(Chunk.remaining_eq_nil_iff d).mpr hd]
    · rw [compactLoop_content h]
      simp
  | some c, d :: cs, r, h => by
    rw [compactLoop] at h
    split_ifs at h with hmem hd hc
    · cases h
      simp
    · rw [compactLoop_content h]
      simp [(Chunk.remaining_eq_nil_iff c).mpr hc, (Chunk.remaining_eq_nil_iff d).mpr (not_not.mp hd)]
    · rw [compactLoop_content h]
      simp

/-- `connection_handle_read_post_cq_compact`: whether it returned 1, and the queue. -/
def connectionHandleReadPostCqCompact (cq : Chunkqueue) : Option (Bool × Chunkqueue) :=
  match h : compactLoop cq.chunks.head? cq.chunks.tail with
  | none => none
  | some r =>
    some (r.1, { cq with
      chunks := r.2
      balanced := by
        have hc : cq.chunks.head?.toList ++ cq.chunks.tail = cq.chunks := by
          cases cq.chunks <;> rfl
        rw [compactLoop_content h, hc, cq.balanced] })

/-- The loop of `connection_handle_read_post_chunked_crlf` over the chunks behind a CR. -/
def crlfLoop : List Chunk → ℤ
  | [] => 0
  | c :: cs =>
    match c.remaining with
    | [] => crlfLoop cs
    | p :: _ => if p = LF then 1 else -1

/-- `connection_handle_read_post_chunked_crlf`. -/
def connectionHandleReadPostChunkedCrlf (cq : Chunkqueue) : ℤ :=
  match cq.chunks with
  | [] => 0
  | c :: cs =>
    match c.remaining with
    | [] => -1
    | [p] => if p = CR then crlfLoop cs else -1
    | p :: p' :: _ => if p = CR ∧ p' = LF then 1 else -1

/-- The digits of a chunk size, read behind `te`: the size and the bytes behind them. -/
def chunkSizeLoop (te : ℕ) : Bytes → Option (ℕ × Bytes)
  | [] => some (te, [])
  | u :: s =>
    if hex2int u = 255 then some (te, u :: s)
    else if te > 2 ^ 59 - 1 then none
    else chunkSizeLoop (te * 16 + (hex2int u).toNat) s

/-- The size in the chunk header at `s`, whose line has `hsz` octets; `none` is status 400. -/
def chunkSize (s : Bytes) (hsz : ℕ) : Option ℕ :=
  match chunkSizeLoop 0 s with
  | none => none
  | some (te, s) =>
    let s := s.dropWhile fun c => c = SP ∨ c = HT
    if s.head? ≠ some CR ∧ s.head? ≠ some 59 then none
    else if hsz ≥ 1024 then none
    else some te

/-! ## The connection -/

/-- What a call depends on apart from the connection. `address` is where the bytes of the first
chunk are in memory, `cacheFull` whether a chunk that compaction takes out of the queue is freed,
since the queue keeps enough unused chunks already. -/
structure ReadPostConf where
  maxRequestSize : ℕ
  maxRequestFieldSize : ℕ
  address : ℕ
  cacheFull : Bool
  maxRequestSize_lt : maxRequestSize < 2 ^ 32
  address_gt : 4 < address

/-- The fields of a connection that reading a request body uses. -/
structure ReadPostCon where
  readQueue : Chunkqueue
  requestContentQueue : Chunkqueue
  writeQueue : Chunkqueue
  teChunked : ℤ
  contentLength : ℤ
  keepAlive : Bool
  bytesHeader : ℕ
  httpStatus : ℕ
  mode : ℕ
  io : TempIo

/-- What a call returns. A failed `force_assert` is `aborted`; `undefined` is reading a chunk
that was freed. -/
inductive ReadPostResult
  | goOn (con : ReadPostCon)
  | finished (con : ReadPostCon)
  | error (con : ReadPostCon)
  | aborted
  | undefined

/-- `connection_handle_read_post_error`. -/
def connectionHandleReadPostError (con : ReadPostCon) (httpStatus : ℕ) : ReadPostResult :=
  let con := { con with keepAlive := false }
  if con.bytesHeader ≠ 0 then .error con
  else .finished { con with
    httpStatus := httpStatus
    mode := 0
    writeQueue := chunkqueueReset con.writeQueue }

/-- Where a part of the loop leads: on with `te_chunked`, out of the loop, or to a return. -/
inductive Phase
  | run (con : ReadPostCon) (te : ℤ)
  | leave (con : ReadPostCon) (te : ℤ)
  | stop (r : ReadPostResult)

/-- The part behind another one. -/
def Phase.andThen : Phase → (ReadPostCon → ℤ → Phase) → Phase
  | .run con te, f => f con te
  | .leave con te, _ => .leave con te
  | .stop r, _ => .stop r

/-- `chunkqueue_mark_written` on the read queue. -/
def markRead (con : ReadPostCon) (len : ℤ) (f : ReadPostCon → Phase) : Phase :=
  match chunkqueueMarkWritten con.readQueue len with
  | some cq => f { con with readQueue := cq }
  | none => .stop .aborted

/-- An `off_t` sum. -/
def wrap64 (n : ℤ) : ℤ := n.bmod (2 ^ 64)

/-- The last chunk and its trailers are consumed. -/
def finishBody (con : ReadPostCon) (hsz : ℤ) : Phase :=
  markRead con hsz fun con =>
    .leave { con with contentLength := con.requestContentQueue.bytesIn } 0

/-- `p`, `c` and the queue behind the loop that looks for the end of the trailers. `p` is an offset
in `c`. `c` is `none` when compaction took it out of the queue. -/
structure TrailerSearch where
  p : Option ℕ
  c : Option Chunk
  cq : Chunkqueue

/-- The loop that looks for the end of the trailers from `hsz` on. A compaction that returns 1
takes a chunk away, so that as many turns as there are chunks are enough. -/
def searchTrailers (hsz : ℕ) : ℕ → Chunkqueue → Option TrailerSearch
  | 0, cq => some ⟨none, cq.chunks.head?, cq⟩
  | turns + 1, cq =>
    match cq.chunks with
    | [] => none
    | c :: cs =>
      match strstr (c.remaining.drop hsz) crlfcrlf with
      | some j => some ⟨some (hsz + j), some c, cq⟩
      | none =>
        match connectionHandleReadPostCqCompact cq with
        | none => none
        | some (true, cq) => searchTrailers hsz turns cq
        | some (false, cq) =>
          some ⟨none, if cq.chunks.length = cs.length + 1 then some c else none, cq⟩

/-- What follows the search. A chunk out of the queue was reset, or freed. Without a match `p` is
a null pointer in the difference that gives `hsz`. -/
def endTrailers (conf : ReadPostConf) (con : ReadPostCon) (t : TrailerSearch) : Phase :=
  let con := { con with readQueue := t.cq }
  match t.p with
  | some p => finishBody con (p + 4)
  | none =>
    if t.c = none ∧ conf.cacheFull then .stop .undefined
    else if (t.c.map Chunk.remainingLength).getD 0 < conf.maxRequestFieldSize then .leave con 0
    else finishBody { con with keepAlive := false } (4 - conf.address)

/-- The last chunk, whose line at `s` has `hsz` octets. -/
def readLastChunk (conf : ReadPostConf) (con : ReadPostCon) (s : Bytes) (hsz : ℕ) : Phase :=
  if [CR, LF].isPrefixOf (s.drop (hsz - 1)) then finishBody con (hsz + 2)
  else
    match searchTrailers (hsz - 2) con.readQueue.chunks.length con.readQueue with
    | some t => endTrailers conf con t
    | none => .stop .aborted

/-! ## The loop -/

/-- The check against `max_request_size`, which is in kBytes. -/
def requestTooLong (conf : ReadPostConf) (bytesIn te : ℕ) : Bool :=
  let maxRequestSize := conf.maxRequestSize <<< 10
  maxRequestSize ≠ 0 ∧ (maxRequestSize < te ∨ maxRequestSize - te < bytesIn)

/-- A chunk header of `hsz` octets with the size `te`. -/
def consumeChunkHeader (conf : ReadPostConf) (con : ReadPostCon) (te hsz : ℕ) : Phase :=
  markRead con hsz fun con =>
    if requestTooLong conf con.requestContentQueue.bytesIn te then
      .stop (connectionHandleReadPostError con 413)
    else .run con (wrap64 (te + 2))

/-- The loop `while (0 == te_chunked)`. As for the trailers, a turn goes on with fewer chunks. -/
def readChunkHeader (conf : ReadPostConf) : ℕ → ReadPostCon → Phase
  | 0, con => .leave con 0
  | turns + 1, con =>
    match con.readQueue.chunks with
    | [] => .leave con 0
    | c :: _ =>
      if c.type ≠ .mem then .stop .aborted
      else
        match strchr c.remaining LF with
        | some p =>
          match chunkSize c.remaining (p + 1) with
          | none => .stop (connectionHandleReadPostError con 400)
          | some 0 => readLastChunk conf con c.remaining (p + 1)
          | some te => consumeChunkHeader conf con te (p + 1)
        | none =>
          if c.remainingLength ≥ 1024 then .stop (connectionHandleReadPostError con 400)
          else
            match connectionHandleReadPostCqCompact con.readQueue with
            | none => .stop .aborted
            | some (true, cq) => readChunkHeader conf turns { con with readQueue := cq }
            | some (false, cq) => .leave { con with readQueue := cq } 0

/-- `bytes_in - bytes_out` of the read queue. -/
def ReadPostCon.len (con : ReadPostCon) : ℤ := con.readQueue.bytesIn - con.readQueue.bytesOut

/-- The octets of the chunk that are there go to the request content: bodies of up to 64k in
memory, others to tempfiles. -/
def readChunkData (con : ReadPostCon) (te : ℤ) : Phase :=
  let len := min con.len (te - 2)
  if wrap64 (con.requestContentQueue.bytesIn + te) ≤ 64 * 1024 then
    let r := chunkqueueSteal con.requestContentQueue con.readQueue len
    .run { con with requestContentQueue := r.1, readQueue := r.2 } (te - len)
  else
    let r := chunkqueueStealWithTempfiles con.requestContentQueue con.readQueue len con.io
    let con := { con with requestContentQueue := r.1.queue, readQueue := r.2, io := r.1.io }
    if r.1.ok then .run con (te - len) else .stop (connectionHandleReadPostError con 500)

/-- The end of a chunk. -/
def endChunkData (con : ReadPostCon) (te : ℤ) : Phase :=
  if con.len < te then .leave con te
  else if te = 2 then
    if connectionHandleReadPostChunkedCrlf con.readQueue = -1 then
      .stop (connectionHandleReadPostError con 400)
    else markRead con 2 fun con => .run con 0
  else .run con te

/-- The body of the loop behind the chunk header. -/
def readChunk (con : ReadPostCon) (te : ℤ) : Phase :=
  (if te > 2 then readChunkData con te else .run con te).andThen endChunkData

/-- The body of the loop. -/
def readPostTurn (conf : ReadPostConf) (con : ReadPostCon) (te : ℤ) : Phase :=
  (if te = 0 then readChunkHeader conf (con.readQueue.chunks.length + 1) con
    else .run con te).andThen readChunk

/-- The turns of the loop; `none` while more than `turns` are needed. -/
def readPostLoop (conf : ReadPostConf) : ℕ → ReadPostCon → ℤ → Option ReadPostResult
  | 0, _, _ => none
  | turns + 1, con, te =>
    match readPostTurn conf con te with
    | .run con te =>
      if con.readQueue.isEmpty then some (.goOn { con with teChunked := te })
      else readPostLoop conf turns con te
    | .leave con te => some (.goOn { con with teChunked := te })
    | .stop r => some r

/-- `connection_handle_read_post_chunked`. -/
def connectionHandleReadPostChunked (conf : ReadPostConf) (turns : ℕ) (con : ReadPostCon) :
    Option ReadPostResult :=
  readPostLoop conf turns con con.teChunked

end Lighttpd
