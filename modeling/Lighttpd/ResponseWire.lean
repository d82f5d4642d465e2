import Lighttpd.HttpChunk
import Lighttpd.NetworkWrite
import Lighttpd.Lib.PartialRuns

/-!
# A chunked response on the wire

While a handler appends to the response with the functions of `http_chunk.c`, the network writer
sends from the front of the queue, in any order of the two, with any budgets and whatever the system
calls do. No byte is lost, sent twice or sent out of order: what was sent and what is still queued
are the header and a chunked message of what was appended (`responseWire_chunkedMessage`).
-/

namespace Lighttpd

open CString ChunkedCoding

/-- A call that appends to the response, or a turn of the network writer. -/
inductive WireEvent
  | append (op : HttpChunkOp)
  | write (maxBytes : ℤ) (io : ℕ → ChunkIo)

/-- The write queue, the outcomes of system calls on tempfiles to come, and what was sent. -/
structure Wire where
  queue : Chunkqueue
  io : TempIo
  sent : Bytes

section Run

variable (backend : NetBackend) (env : NetEnv) (conf : HttpChunkConf)

/-- One event. The response ends where a tempfile cannot be written or the writer reports an error. -/
def Wire.step (w : Wire) : WireEvent → Option Wire
  | .append op =>
    let r := op.run conf w.queue w.io
    if op.isData ∧ ¬ r.ok then none else some { w with queue := r.queue, io := r.io }
  | .write maxBytes io =>
    (networkWriteChunkqueue backend env w.queue maxBytes io).bind fun r =>
      if r.ret < 0 then none else some { w with queue := r.cq, sent := w.sent ++ r.sent }

/-- The bytes of the response, sent or not. -/
def Wire.bytes (w : Wire) : Bytes := w.sent ++ w.queue.bytes

/-- The piece that an event appends. -/
def WireEvent.piece : WireEvent → Bytes
  | .append op => op.piece
  | .write .. => []

/-- The event is a turn of the writer, or it appends a range that is not empty. -/
def WireEvent.NonemptyRange : WireEvent → Prop
  | .append op => op.NonemptyRange
  | .write .. => True

variable {backend env conf}

/-- An event appends its piece to the response as a chunk, and what was sent stays in front. -/
theorem Wire.bytes_step (hconf : conf.chunked) {w w' : Wire} {e : WireEvent} (he : e.NonemptyRange)
    (h : w.step backend env conf e = some w') : w'.bytes = w.bytes ++ chunksOf [e.piece] := by
  cases e with
  | append op =>
    rw [step] at h
    split_ifs at h with hok
    obtain rfl := Option.some.inj h
    have hrun : (op.run conf w.queue w.io).queue.bytes = w.queue.bytes ++ chunksOf [op.piece] :=
      HttpChunkOp.bytes_run hconf he fun hdata => not_not.mp fun hfail => hok ⟨hdata, hfail⟩
    rw [bytes, hrun, ← List.append_assoc]
    rfl
  | write maxBytes io =>
    obtain ⟨r, hr, h⟩ := Option.bind_eq_some_iff.mp h
    split_ifs at h
    obtain rfl := Option.some.inj h
    obtain ⟨r', more, hr', hsent, hmore, -⟩ := networkWriteLoop_spec backend env
      (w.queue.chunks.length + w.queue.bytes.length + 1) io w.queue maxBytes [] (Nat.lt_succ_self _)
    obtain rfl := Option.some.inj (hr.symm.trans hr')
    simp only [bytes, hsent, List.nil_append, List.append_assoc, hmore]
    simp [WireEvent.piece, chunksOf]

theorem Wire.bytes_run (hconf : conf.chunked) {es : List WireEvent} {w w' : Wire}
    (hes : ∀ e ∈ es, e.NonemptyRange) (h : PartialRuns.run (step backend env conf) es w = some w') :
    w'.bytes = w.bytes ++ chunksOf (es.map WireEvent.piece) := by
  induction es generalizing w with
  | nil =>
    obtain rfl := Option.some.inj h
    simp [chunksOf]
  | cons e es ih =>
    obtain ⟨w₁, h₁, hrest⟩ := PartialRuns.run_cons.mp h
    rw [ih (fun e he => hes e (List.mem_cons_of_mem _ he)) hrest,
      Wire.bytes_step hconf (hes e List.mem_cons_self) h₁, List.append_assoc, ← chunksOf_append]
    rfl

end Run

/-- A response of which `cq` is queued when it becomes chunked, with its header in front. -/
def startWire (cq : Chunkqueue) (head : Bytes) (io : TempIo) : Wire :=
  ⟨chunkqueuePrependBuffer (initialChunk cq) head, io, []⟩

/-- The response and `http_chunk_close`. -/
def Wire.close (conf : HttpChunkConf) (w : Wire) : Wire :=
  { w with queue := httpChunkClose conf w.queue }

/-- Whatever the order of appending and sending, the bytes of a response that is closed are its
header and a chunked message, whose body is what was queued and appended. -/
theorem responseWire_chunkedMessage (backend : NetBackend) (env : NetEnv) (bufmin : Bool)
    (cq : Chunkqueue) (head : Bytes) (io : TempIo) (es after : List WireEvent) (w w' : Wire)
    (hes : ∀ e ∈ es, e.NonemptyRange) (hafter : ∀ e ∈ after, ∃ n k, e = .write n k)
    (hrun : PartialRuns.run (Wire.step backend env ⟨true, bufmin⟩) es (startWire cq head io) = some w)
    (hrun' : PartialRuns.run (Wire.step backend env ⟨true, bufmin⟩) after (w.close ⟨true, bufmin⟩) =
      some w') :
    ∃ wire, w'.bytes = head ++ wire ∧
      ∀ body, ChunkedMessage wire body ↔ body = cq.bytes ++ es.flatMap WireEvent.piece := by
  have hnone : chunksOf (after.map WireEvent.piece) = [] := by
    rw [chunksOf, List.filter_eq_nil_iff.mpr, List.flatMap_nil]
    intro d hd
    obtain ⟨e, he, rfl⟩ := List.mem_map.mp hd
    obtain ⟨n, k, rfl⟩ := hafter e he
    simp [WireEvent.piece]
  have hwrites : ∀ e ∈ after, e.NonemptyRange := by
    intro e he
    obtain ⟨n, k, rfl⟩ := hafter e he
    trivial
  have hclose : (w.close ⟨true, bufmin⟩).bytes = w.bytes ++ str "0\r\n\r\n" := by
    rw [Wire.close, Wire.bytes, httpChunkClose, if_pos rfl, bytes_appendMem, ← List.append_assoc]
    rfl
  have hstart : (startWire cq head io).bytes = head ++ chunksOf [cq.bytes] := by
    rw [startWire, Wire.bytes, bytes_prependBuffer, bytes_initialChunk, List.nil_append]
  have hpieces := chunksOf_append [cq.bytes] (es.map WireEvent.piece)
  refine ⟨chunksOf ([cq.bytes] ++ es.map WireEvent.piece) ++ str "0\r\n\r\n", ?_, fun body => ?_⟩
  · rw [Wire.bytes_run rfl hwrites hrun', hnone, List.append_nil, hclose,
      Wire.bytes_run rfl hes hrun, hstart, hpieces]
    simp only [List.append_assoc]
  · have hmessage := chunkedMessage_chunksOf ([cq.bytes] ++ es.map WireEvent.piece)
    rw [List.singleton_append, List.flatten_cons, ← List.flatMap_def] at hmessage
    exact ⟨fun h => h.unique hmessage, fun h => h ▸ hmessage⟩

/-- A write that takes four bytes. -/
def fourBytes : ChunkIo := ⟨true, true, 0, none, false, false, true, none, .wrote 4, .sent 4⟩

/-- Five bytes are appended to two, with a write in between. -/
def helloWire : Option Wire :=
  PartialRuns.run (Wire.step .write mmapEnv ⟨true, false⟩)
    [.write 4 fun _ => fourBytes, .append (.appendMem (str "hello"))]
    (startWire (chunkqueueAppendMem (chunkqueueInit 1024 0) (str "hi")) (str "head") .success)

theorem responseWire_chunkedMessage_hello : ∃ w w', helloWire = some w ∧
    PartialRuns.run (Wire.step .write mmapEnv ⟨true, false⟩) [.write 9 fun _ => fourBytes]
      (w.close ⟨true, false⟩) = some w' ∧
    ∃ wire, w'.bytes = str "head" ++ wire ∧
      ∀ body, ChunkedMessage wire body ↔ body = str "hi" ++ (str "hello" ++ []) := by
  have hsome : (helloWire.bind fun w => PartialRuns.run (Wire.step .write mmapEnv ⟨true, false⟩)
      [.write 9 fun _ => fourBytes] (w.close ⟨true, false⟩)).isSome := by
    decide +kernel
  obtain ⟨w', hw'⟩ := Option.isSome_iff_exists.mp hsome
  obtain ⟨w, hw, hafter⟩ := Option.bind_eq_some_iff.mp hw'
  exact ⟨w, w', hw, hafter, responseWire_chunkedMessage .write mmapEnv false _ _ _ _ _ w w'
    (by simp [WireEvent.NonemptyRange, HttpChunkOp.NonemptyRange]) (by simp) hw hafter⟩

end Lighttpd
