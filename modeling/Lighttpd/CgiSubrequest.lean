import Lighttpd.GwRequest
import Lighttpd.Tempfile

/-!
# Starting a CGI program

`mod_cgi_handle_subrequest` is called until the response is there. It reads the body of the request,
has `cgi_create_env` create the files for the command server, writes the body to `body_file`, and
`cgi_send_command` starts the program. The program is started when a call finds the whole body in
the queue. A call that reads the end of the body itself waits for an event without starting the
program, and with `cgi.upgrade` a program with a body is not started at all.
-/

namespace Lighttpd

open CString

/-! ## Writing the body -/

/-- How the bytes of a `FILE_CHUNK` get into memory: mapped, read (this many of them), or not. -/
inductive FileSource
  | mapped
  | read (n : ℕ)
  | failed
  deriving DecidableEq, Repr

/-- What `write` on the body file does: this many bytes at most, `EAGAIN` or `EINTR`, `EPIPE` or
`ECONNRESET`, or another error. -/
inductive BodyWrite
  | written (n : ℕ)
  | again
  | reset
  | failed
  deriving DecidableEq, Repr

/-- A turn of the loop of `cgi_write_request`. -/
structure BodyIo where
  source : FileSource
  write : BodyWrite
  deriving DecidableEq, Repr

/-- What a turn leaves: the value `r`, the queue, and what was written. -/
structure BodyTurn where
  ret : ℤ
  queue : Chunkqueue
  out : Bytes

/-- `write` of the bytes `data` of the first chunk, which are marked as written. -/
def writeBodyData (cq : Chunkqueue) (mem : Bool) (data : Bytes) : BodyWrite → Option BodyTurn
  | .written n =>
    let n := min n data.length
    if mem ∧ n = 0 then some ⟨0, cq, []⟩
    else (chunkqueueMarkWritten cq n).map fun cq => ⟨n, cq, data.take n⟩
  | .again => some ⟨0, cq, []⟩
  | .reset => some ⟨-2, cq, []⟩
  | .failed => some ⟨-1, cq, []⟩

/-- The bytes of a `FILE_CHUNK` that are in memory; `none` is an error. -/
def fileData (c : Chunk) : FileSource → Option Bytes
  | .mapped => some c.remaining
  | .read n => if min n c.remainingLength = 0 then none else some (c.remaining.take (min n 65536))
  | .failed => none

/-- `cgi_write_file_chunk_mmap`. -/
def cgiWriteFileChunkMmap (cq : Chunkqueue) (c : Chunk) (io : BodyIo) : Option BodyTurn :=
  if c.remainingLength = 0 then some ⟨0, chunkqueueRemoveFinishedChunks cq, []⟩
  else
    match fileData c io.source with
    | none => some ⟨-1, cq, []⟩
    | some data => writeBodyData cq false data io.write

/-- The body of the loop of `cgi_write_request` on the first chunk. -/
def cgiWriteChunk (cq : Chunkqueue) (c : Chunk) (io : BodyIo) : Option BodyTurn :=
  match c.type with
  | .file => cgiWriteFileChunkMmap cq c io
  | .mem => writeBodyData cq true c.remaining io.write

/-- The loop of `cgi_write_request` with the results of its turns, and no success behind them:
whether it failed, the queue and the body file. -/
def cgiWriteLoop : List BodyIo → Chunkqueue → Bytes → Option (Bool × Chunkqueue × Bytes)
  | [], cq, file => some (false, cq, file)
  | io :: ios, cq, file =>
    match cq.chunks.head? with
    | none => some (false, cq, file)
    | some c =>
      match cgiWriteChunk cq c io with
      | none => none
      | some t =>
        if t.ret = 0 then some (false, t.queue, file)
        else if t.ret = -1 then some (true, t.queue, file)
        else if t.ret = -2 then
          match chunkqueueMarkWritten t.queue (chunkqueueLength t.queue) with
          | none => none
          | some cq => cgiWriteLoop ios cq file
        else cgiWriteLoop ios t.queue (file ++ t.out)

/-! ## Chunks with bytes -/

/-- No chunk is finished. -/
def Full (cs : List Chunk) : Prop := ∀ c ∈ cs, 0 < c.remainingLength

theorem full_nil : Full [] := fun _ h => absurd h List.not_mem_nil

variable {cs : List Chunk} {cq dest : Chunkqueue}

theorem full_cons {c : Chunk} : Full (c :: cs) ↔ 0 < c.remainingLength ∧ Full cs :=
  List.forall_mem_cons

theorem full_append {ds : List Chunk} : Full (cs ++ ds) ↔ Full cs ∧ Full ds :=
  List.forall_mem_append

/-- A queue of full chunks has no bytes only when it has no chunks. -/
theorem Full.eq_nil (h : Full cs) (hnil : content cs = []) : cs = [] := by
  cases cs with
  | nil => rfl
  | cons c cs =>
    have hc := (full_cons.mp h).1
    rw [content_cons, List.append_eq_nil_iff, Chunk.remaining_eq_nil_iff] at hnil
    omega

theorem Full.markWrittenLoop : ∀ {cs cs' : List Chunk} {n : ℕ}, Full cs →
    markWrittenLoop n cs = some cs' → Full cs'
  | [], cs', n, _, h => by
    rw [Lighttpd.markWrittenLoop] at h
    split_ifs at h
    cases h
    exact full_nil
  | c :: cs, cs', n, hfull, h => by
    rw [Lighttpd.markWrittenLoop] at h
    obtain ⟨hc, hcs⟩ := full_cons.mp hfull
    split_ifs at h with h0 hle
    · cases h
      exact hfull
    · exact hcs.markWrittenLoop h
    · cases h
      refine full_cons.mpr ⟨?_, hcs⟩
      have hlen := congrArg List.length (Chunk.remaining_advance c n (by omega))
      rw [Chunk.length_remaining, List.length_drop, Chunk.length_remaining] at hlen
      omega

theorem full_stealLoop : ∀ (n : ℕ) (cs : List Chunk), Full (stealLoop n cs).1
  | n, [] => by
    rw [stealLoop]
    exact full_nil
  | n, c :: cs => by
    rw [stealLoop]
    split_ifs with h0 hz hle
    · exact full_nil
    · exact full_stealLoop n cs
    · exact full_cons.mpr ⟨by omega, full_stealLoop _ cs⟩
    · refine full_cons.mpr ⟨?_, full_nil⟩
      have hlen : (c.remaining.take n).length = n := by
        rw [List.length_take, Chunk.length_remaining]
        omega
      cases c.type
      · rw [← Chunk.length_remaining, Chunk.remaining_ofMem]
        omega
      · rw [← Chunk.length_remaining, Chunk.remaining_ofFile]
        omega

/-- With every call succeeding, a new tempfile comes behind the chunks. -/
theorem getAppendTempfile_chunks (h : TempdirLeft cq) :
    (chunkqueueGetAppendTempfile cq .success).queue.chunks = cq.chunks ++ [.ofTemp []] := by
  obtain ⟨n, hn⟩ : ∃ n, (if cq.tempdirs ≠ 0 then cq.tempdirs - cq.tempdirIdx else 1) = n + 1 := by
    refine Nat.exists_eq_add_one.mpr ?_
    rcases h with h | h
    · rw [if_neg (not_not.mpr h)]
      exact Nat.one_pos
    · rw [if_pos (by omega)]
      omega
  unfold chunkqueueGetAppendTempfile
  rw [hn]
  rfl

theorem full_closeLast (h : Full cq.chunks) : Full (closeLast cq).chunks := by
  unfold closeLast
  split
  · next c hc =>
    rw [← List.dropLast_append_getLast? c hc] at h
    obtain ⟨hinit, hlast⟩ := full_append.mp h
    exact full_append.mpr ⟨hinit, full_cons.mpr ⟨(full_cons.mp hlast).1, full_nil⟩⟩
  · exact h

/-- Only the tempfile that is written to may have no bytes yet. -/
theorem openTempfile_chunks (hdir : TempdirLeft dest) (h : Full dest.chunks) :
    ∃ init c, (openTempfile dest .success).queue.chunks = init ++ [c] ∧ Full init := by
  unfold openTempfile
  split
  · next c hc =>
    split_ifs with hsize
    · dsimp only
      have hclose := closeLast_tempdirs dest
      have hdir' : TempdirLeft (closeLast dest) := by
        rw [TempdirLeft, hclose.1, hclose.2]
        exact hdir
      rw [if_pos (by rfl)]
      exact ⟨_, _, getAppendTempfile_chunks hdir', full_closeLast h⟩
    · unfold appendableTempfile at hc
      cases hlast : dest.chunks.getLast? with
      | none =>
        rw [hlast] at hc
        cases hc
      | some d =>
        have hsplit := List.dropLast_append_getLast? d hlast
        refine ⟨dest.chunks.dropLast, d, hsplit.symm, ?_⟩
        rw [← hsplit] at h
        exact (full_append.mp h).1
  · exact ⟨_, _, getAppendTempfile_chunks hdir, h⟩

theorem full_appendMemToTempfile (hdir : TempdirLeft dest) (h : Full dest.chunks) {mem : Bytes}
    (hmem : mem ≠ []) : Full (chunkqueueAppendMemToTempfile dest mem .success).queue.chunks := by
  obtain ⟨init, c, hchunks, hinit⟩ := openTempfile_chunks hdir h
  have hok := (openTempfile_success hdir).ok
  rw [chunkqueueAppendMemToTempfile, TempIo.success, appendMemToTempfileLoop]
  change Full (if (openTempfile dest .success).ok then { openTempfile dest .success with
    queue := appendToLast (openTempfile dest .success).queue mem }
    else openTempfile dest .success).queue.chunks
  rw [if_pos hok]
  dsimp only
  have hlast : (openTempfile dest .success).queue.chunks.getLast? = some c := by
    rw [hchunks, List.getLast?_concat]
  unfold appendToLast
  split
  · next d hd =>
    obtain rfl : c = d := Option.some.inj (hlast.symm.trans hd)
    dsimp only
    rw [hchunks, List.dropLast_concat]
    refine full_append.mpr ⟨hinit, full_cons.mpr ⟨?_, full_nil⟩⟩
    have hpos := List.length_pos_iff.mpr hmem
    have hle := c.offset_le
    simp only [Chunk.remainingLength, List.length_append]
    omega
  · next hnone =>
    rw [hlast] at hnone
    cases hnone

theorem full_stealTempPart (hdir : TempdirLeft dest) (h : Full dest.chunks) {n : ℕ} {c : Chunk}
    (hn : n ≠ 0) (hc : c.remainingLength ≠ 0) :
    Full (stealTempPart dest .success n c).queue.chunks := by
  have htake : c.remaining.take n ≠ [] := by
    rw [ne_eq, List.take_eq_nil_iff, Chunk.remaining_eq_nil_iff]
    omega
  have hpos := List.length_pos_iff.mpr htake
  unfold stealTempPart
  split
  · split_ifs with hle
    · exact full_append.mpr ⟨h, full_cons.mpr ⟨by omega, full_nil⟩⟩
    · rw [chunkqueueAppendFile, if_neg htake]
      refine full_append.mpr ⟨h, full_cons.mpr ⟨?_, full_nil⟩⟩
      rw [← Chunk.length_remaining, Chunk.remaining_ofFile]
      exact hpos
  · exact full_appendMemToTempfile hdir h htake

theorem full_stealTempLoop : ∀ {dest : Chunkqueue} (_ : TempdirLeft dest) (_ : Full dest.chunks)
    (n : ℕ) (cs : List Chunk), Full (stealTempLoop dest .success n cs).result.queue.chunks
  | dest, _, h, n, [] => h
  | dest, hdir, h, n, c :: cs => by
    have hpart := stealTempPart_success hdir n c
    rw [stealTempLoop]
    dsimp only
    split_ifs with h0 hz hok hle
    · exact h
    · exact full_stealTempLoop hdir h n cs
    · rw [hpart.io]
      exact full_stealTempLoop (hpart.tempdirLeft hdir) (full_stealTempPart hdir h h0 hz) _ cs
    · exact full_stealTempPart hdir h h0 hz
    · exact absurd hpart.ok hok

/-! ## The handler -/

/-- What the handler reads and writes: the queues, `stream_request_body`, and of `handler_ctx` the
setting `cgi.upgrade` for this request, whether `fd` is open, and whether it still belongs to the
connection. `bodyFile` is what was written to `body_file`, and `sent` counts the calls of
`cgi_send_command`. -/
structure CgiHctx where
  readQueue : Chunkqueue
  contentQueue : Chunkqueue
  contentLength : ℕ
  stream : Bool
  bufmin : Bool
  pollin : Bool
  upgrade : Bool
  fdOpen : Bool
  attached : Bool
  bodyFile : Bytes
  sent : ℕ

/-- What reading from the client gives: `is_readable` is not set, bytes, which go behind the last
chunk or, when that has no room, to a new one (`fresh`), the end, or an error. -/
inductive PostRead
  | notReadable
  | data (s : Bytes) (fresh : Bool)
  | closed
  | failed
  deriving DecidableEq, Repr

/-- A call of the handler with what it meets. `response` is what `cgi_recv_response` returns when
it is called and does not return `HANDLER_GO_ON`: the response is finished or there is a local
redirect. `continueFails` says that `100 Continue` is asked for and cannot be sent; `handlerFound`,
`socketOpens` and `fileOpens` are the outcome of `stat`, `socket` and `open` in
`cgi_create_env`. -/
structure CgiCall where
  response : Option Bool
  read : PostRead
  continueFails : Bool
  io : TempIo
  handlerFound : Bool
  socketOpens : Bool
  fileOpens : Bool
  writes : List BodyIo

namespace CgiHctx

/-- `con->network_read`: what it returns, and the read queue. -/
def networkRead (h : CgiHctx) : PostRead → Option (ℤ × Chunkqueue)
  | .notReadable => some (0, h.readQueue)
  | .data s fresh =>
    let fresh := fresh || !h.readQueue.chunks.getLast?.any fun c => c.type = .mem
    (chunkqueueUseMemory (chunkqueueGetMemory h.readQueue fresh) s).map fun cq => (0, cq)
  | .closed => some (-2, h.readQueue)
  | .failed => some (-1, h.readQueue)

/-- The bytes of the body go from the read queue to the queue of the request; `none` when that
fails. -/
def stealBody (h : CgiHctx) (io : TempIo) : Option CgiHctx :=
  let len : ℤ := h.contentLength - h.contentQueue.bytesIn
  if h.contentLength ≤ 64 * 1024 then
    let s := chunkqueueSteal h.contentQueue h.readQueue len
    some { h with contentQueue := s.1, readQueue := s.2 }
  else
    let s := chunkqueueStealWithTempfiles h.contentQueue h.readQueue len io
    if s.1.ok then some { h with contentQueue := s.1.queue, readQueue := s.2 } else none

/-- `connection_handle_read_post_state` for a body of known length. -/
def connectionHandleReadPostState (h : CgiHctx) (call : CgiCall) : Option (HandlerT × CgiHctx) :=
  match h.networkRead call.read with
  | none => none
  | some (ret, cq) =>
    if ret = -1 then some (.error, { h with readQueue := cq })
    else
      let h := { h with readQueue := chunkqueueRemoveFinishedChunks cq }
      if h.readQueue.isEmpty ∧ h.contentQueue.bytesIn = 0 ∧ call.continueFails then some (.error, h)
      else
        match h.stealBody call.io with
        | none => some (.finished, { h with attached := false })
        | some h =>
          let h := { h with readQueue := chunkqueueRemoveFinishedChunks h.readQueue }
          if h.contentQueue.bytesIn = h.contentLength then some (.goOn, { h with pollin := false })
          else if ret = -2 then some (.error, h)
          else some (if h.stream then .goOn else .waitForEvent, { h with pollin := true })

/-- `cgi_write_request`: whether it failed. -/
def cgiWriteRequest (h : CgiHctx) (writes : List BodyIo) : Option (Bool × CgiHctx) :=
  (cgiWriteLoop writes h.contentQueue h.bodyFile).map fun r =>
    let h := { h with contentQueue := r.2.1, bodyFile := r.2.2 }
    if r.1 then (true, h)
    else if h.contentQueue.bytesOut = h.contentLength ∧ ¬ h.upgrade then
      (false, { h with sent := h.sent + 1 })
    else if h.contentQueue.bytesIn ≠ h.contentLength ∧
        h.contentQueue.bytesIn - h.contentQueue.bytesOut < 65536 - 16384 then
      (false, { h with pollin := true })
    else (false, h)

/-- `cgi_create_env`: whether it failed. -/
def cgiCreateEnv (h : CgiHctx) (call : CgiCall) : Option (Bool × CgiHctx) :=
  if ¬ call.handlerFound then some (true, h)
  else
    let h := { h with fdOpen := call.socketOpens }
    if h.contentLength ≠ 0 then
      if ¬ call.fileOpens then some (true, h) else h.cgiWriteRequest call.writes
    else some (false, { h with sent := h.sent + 1 })

/-- The end of `mod_cgi_handle_subrequest`, behind the part that reads the body. -/
def startOrWrite (h : CgiHctx) (call : CgiCall) : Option (HandlerT × CgiHctx) :=
  if ¬ h.fdOpen then
    (h.cgiCreateEnv call).map fun r =>
      if r.1 then (.finished, { r.2 with attached := false }) else (.waitForEvent, r.2)
  else if ¬ h.contentQueue.isEmpty then
    (h.cgiWriteRequest call.writes).map fun r =>
      if r.1 then (.error, { r.2 with attached := false }) else (.waitForEvent, r.2)
  else some (.waitForEvent, h)

/-- The handler does not read while this much is pending. -/
def Holds (h : CgiHctx) : Prop :=
  65536 - 4096 < h.contentQueue.bytesIn - h.contentQueue.bytesOut ∧ h.bufmin = true

instance : DecidablePred Holds := fun _ => inferInstanceAs (Decidable (_ ∧ _))

/-- `mod_cgi_handle_subrequest`. -/
def modCgiHandleSubrequest (h : CgiHctx) (call : CgiCall) : Option (HandlerT × CgiHctx) :=
  if ¬ h.attached then some (.goOn, h)
  else
    match call.response with
    | some redirect =>
      some (if redirect then .comeback else .finished, { h with attached := false })
    | none =>
      if h.contentQueue.bytesIn ≠ h.contentLength then
        if h.Holds then
          let h := { h with pollin := false }
          if h.fdOpen then some (.waitForEvent, h) else h.startOrWrite call
        else
          match h.connectionHandleReadPostState call with
          | none => none
          | some (rc, h) =>
            if ¬ h.contentQueue.isEmpty then some (if rc = .goOn then .waitForEvent else rc, h)
            else if rc ≠ .goOn then some (rc, h)
            else h.startOrWrite call
      else h.startOrWrite call

end CgiHctx

end Lighttpd
