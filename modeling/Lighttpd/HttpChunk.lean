import Lighttpd.Buffer
import Lighttpd.Tempfile
import Lighttpd.Lib.ChunkedCoding
import Mathlib.Tactic.Ring

/-!
# Chunked responses

The functions of `http_chunk.c` that append to the `write_queue` of a connection, and the initial
chunk that `connection_handle_write_prepare` makes of what is queued already. While the response
is chunked each of them appends one chunk, in memory, with a part of a file or in a tempfile.

`httpChunkRun_chunkedMessage`: in the end the queue is a chunked message whose body is what was
queued and what was appended.
-/

namespace Lighttpd

open CString ChunkedCoding

/-! ## The size of a chunk -/

/-- `hex_chars[n]`. -/
def hexChar (n : ℕ) : UInt8 := if n < 10 then 48 + n.toUInt8 else 87 + n.toUInt8

/-- The bits that `buffer_append_uint_hex` writes, two digits for each octet of the value. -/
def uintHexShift (value : ℕ) : ℕ :=
  if h : value >>> 8 = 0 then 8 else uintHexShift (value >>> 8) + 8
  decreasing_by
    have : value >>> 8 = value / 256 := Nat.shiftRight_eq_div_pow value 8
    omega

/-- The loop of `buffer_append_uint_hex`, with the digits that are left to write. -/
def uintHexLoop (value : ℕ) : ℕ → Bytes
  | 0 => []
  | digits + 1 => hexChar (value >>> (4 * digits) &&& 15) :: uintHexLoop value digits

/-- What `buffer_append_uint_hex` appends. -/
def bufferAppendUintHex (value : ℕ) : Bytes := uintHexLoop value (uintHexShift value >>> 2)

theorem hexDigit_hexChar {n : ℕ} (h : n < 16) : hexDigit (hexChar n) = some n := by
  interval_cases n <;> rfl

theorem uintHexShift_spec (value : ℕ) :
    value < 2 ^ uintHexShift value ∧ 8 ≤ uintHexShift value ∧ uintHexShift value % 8 = 0 := by
  induction value using uintHexShift.induct with
  | case1 value h =>
    rw [uintHexShift, dif_pos h]
    rw [Nat.shiftRight_eq_div_pow] at h
    omega
  | case2 value h ih =>
    rw [uintHexShift, dif_neg h, pow_add]
    obtain ⟨hlt, hle, hmod⟩ := ih
    have hdiv : value >>> 8 = value / 256 := Nat.shiftRight_eq_div_pow value 8
    refine ⟨?_, by omega, by omega⟩
    generalize 2 ^ uintHexShift (value >>> 8) = p at hlt ⊢
    omega

theorem isSome_hexDigit_uintHexLoop (value : ℕ) :
    ∀ (digits : ℕ), ∀ c ∈ uintHexLoop value digits, (hexDigit c).isSome
  | 0, c, h => absurd h (by simp [uintHexLoop])
  | digits + 1, c, h => by
    rw [uintHexLoop, List.mem_cons] at h
    rcases h with rfl | h
    · rw [hexDigit_hexChar (Nat.and_lt_two_pow _ (by decide : 15 < 2 ^ 4))]
      rfl
    · exact isSome_hexDigit_uintHexLoop value digits c h

/-- The digits from the given one on are the value modulo the power of sixteen. -/
theorem foldl_uintHexLoop (value : ℕ) :
    ∀ (digits n : ℕ), (uintHexLoop value digits).foldl (fun n c => n * 16 + (hexDigit c).getD 0) n =
      n * 16 ^ digits + value % 16 ^ digits
  | 0, n => by simp [uintHexLoop, Nat.mod_one]
  | digits + 1, n => by
    have hand : value >>> (4 * digits) &&& 15 = value / 16 ^ digits % 16 := by
      rw [show 15 = 2 ^ 4 - 1 from rfl, Nat.and_two_pow_sub_one_eq_mod,
        Nat.shiftRight_eq_div_pow, pow_mul]
      rfl
    have hmod : value % 16 ^ (digits + 1) =
        value % 16 ^ digits + 16 ^ digits * (value / 16 ^ digits % 16) := by
      rw [pow_succ, Nat.mod_mul]
    rw [uintHexLoop, List.foldl_cons, foldl_uintHexLoop value digits, hand,
      hexDigit_hexChar (Nat.mod_lt _ (by decide)), Option.getD_some, hmod, pow_succ]
    ring

/-- `buffer_append_uint_hex` writes the value in hex. -/
theorem hexNumber_bufferAppendUintHex (value : ℕ) :
    IsHex (bufferAppendUintHex value) ∧ hexNumber (bufferAppendUintHex value) = value := by
  obtain ⟨hlt, hle, hmod⟩ := uintHexShift_spec value
  have hdigits : uintHexShift value >>> 2 = uintHexShift value / 4 :=
    Nat.shiftRight_eq_div_pow _ 2
  have hpow : 16 ^ (uintHexShift value / 4) = 2 ^ uintHexShift value := by
    rw [show 16 = 2 ^ 4 from rfl, ← pow_mul]
    congr 1
    omega
  refine ⟨⟨?_, isSome_hexDigit_uintHexLoop value _⟩, ?_⟩
  · obtain ⟨n, hn⟩ := Nat.exists_eq_add_one.mpr (show 0 < uintHexShift value >>> 2 by omega)
    rw [bufferAppendUintHex, hn, uintHexLoop]
    exact List.cons_ne_nil _ _
  · rw [hexNumber, bufferAppendUintHex, foldl_uintHexLoop, hdigits, hpow, Nat.zero_mul,
      Nat.zero_add, Nat.mod_eq_of_lt hlt]

/-! ## Appending to the write queue -/

/-- What the functions read of a connection: whether the response is chunked, and whether the
memory for it is kept small (`FDEVENT_STREAM_RESPONSE_BUFMIN`). -/
structure HttpChunkConf where
  chunked : Bool
  bufmin : Bool
  deriving DecidableEq, Repr

/-- The octets of a response that are kept in memory. -/
def HttpChunkConf.memLimit (conf : HttpChunkConf) : ℕ := 1024 * (if conf.bufmin then 128 else 64)

/-- `tmp_chunk_len` with the size of a chunk. -/
def chunkLen (len : ℕ) : Bytes := bufferAppendUintHex len ++ [CR, LF]

/-- `http_chunk_append_len`. -/
def httpChunkAppendLen (cq : Chunkqueue) (len : ℕ) : Chunkqueue :=
  chunkqueueAppendMem cq (chunkLen len)

/-- A `FILE_CHUNK` of an open file whose part holds `s`. -/
def Chunk.ofFileFd (s : Bytes) : Chunk := { Chunk.ofFile s with fd := true }

/-- `chunkqueue_append_file_fd` of a part that holds `part`. -/
def chunkqueueAppendFileFd (cq : Chunkqueue) (part : Bytes) : Chunkqueue :=
  if part = [] then cq else chunkqueueAppendChunk cq (.ofFileFd part)

/-- `http_chunk_append_file_fd_range` of a part that holds `part`. -/
def httpChunkAppendFileFdRange (conf : HttpChunkConf) (cq : Chunkqueue) (part : Bytes) :
    Chunkqueue :=
  let cq := if conf.chunked then httpChunkAppendLen cq part.length else cq
  let cq := chunkqueueAppendFileFd cq part
  if conf.chunked then chunkqueueAppendMem cq [CR, LF] else cq

/-- `http_chunk_append_file_range` of a file with the octets `file`, `none` when it cannot be
opened: the queue, and whether it returned zero. A length of -1 is the rest of the file. -/
def httpChunkAppendFileRange (conf : HttpChunkConf) (cq : Chunkqueue) (file : Option Bytes)
    (offset : ℕ) (len : ℤ) : Bool × Chunkqueue :=
  match file with
  | none => (false, cq)
  | some st =>
    if len = -1 then
      if offset ≥ st.length then (offset = st.length, cq)
      else (true, httpChunkAppendFileFdRange conf cq (st.drop offset))
    else if st.length - offset < len then (false, cq)
    else (true, httpChunkAppendFileFdRange conf cq ((st.drop offset).take len.toNat))

/-- `http_chunk_append_file`. -/
def httpChunkAppendFile (conf : HttpChunkConf) (cq : Chunkqueue) (file : Option Bytes) :
    Bool × Chunkqueue :=
  match file with
  | none => (false, cq)
  | some st => (true, if st.length ≠ 0 then httpChunkAppendFileFdRange conf cq st else cq)

/-- `http_chunk_append_to_tempfile`. -/
def httpChunkAppendToTempfile (conf : HttpChunkConf) (cq : Chunkqueue) (mem : Bytes)
    (io : TempIo) : TempResult :=
  let r := if conf.chunked then chunkqueueAppendMemToTempfile cq (chunkLen mem.length) io
    else ⟨true, cq, io⟩
  if ¬ r.ok then r
  else
    let r := chunkqueueAppendMemToTempfile r.queue mem r.io
    if ¬ r.ok then r
    else if conf.chunked then chunkqueueAppendMemToTempfile r.queue [CR, LF] r.io
    else r

/-- `c && c->type == FILE_CHUNK && c->file.is_temp` for the last chunk. -/
def lastIsTempfile (cq : Chunkqueue) : Bool :=
  (cq.chunks.getLast?.map fun c => decide (c.type = .file ∧ c.isTemp)).getD false

/-- `http_chunk_append_data`, the body of `http_chunk_append_buffer` and `http_chunk_append_mem`. -/
def httpChunkAppendData (conf : HttpChunkConf) (cq : Chunkqueue) (mem : Bytes) (io : TempIo) :
    TempResult :=
  if mem.length = 0 then ⟨true, cq, io⟩
  else if lastIsTempfile cq ∨
      cq.bytesIn - cq.bytesOut + mem.length > conf.memLimit then
    httpChunkAppendToTempfile conf cq mem io
  else
    let cq := if conf.chunked then httpChunkAppendLen cq mem.length else cq
    let cq := chunkqueueAppendMem cq mem
    ⟨true, if conf.chunked then chunkqueueAppendMem cq [CR, LF] else cq, io⟩

/-- `http_chunk_append_buffer`. -/
def httpChunkAppendBuffer (conf : HttpChunkConf) (cq : Chunkqueue) (mem : Buffer) (io : TempIo) :
    TempResult := httpChunkAppendData conf cq mem.string io

/-- `http_chunk_append_mem`. -/
def httpChunkAppendMem (conf : HttpChunkConf) (cq : Chunkqueue) (mem : Bytes) (io : TempIo) :
    TempResult := httpChunkAppendData conf cq mem io

/-- `http_chunk_close`. -/
def httpChunkClose (conf : HttpChunkConf) (cq : Chunkqueue) : Chunkqueue :=
  if conf.chunked then chunkqueueAppendMem cq (str "0\r\n\r\n") else cq

/-- The initial `Transfer-Encoding: chunked` segment, with which
`connection_handle_write_prepare` frames what is queued. -/
def initialChunk (cq : Chunkqueue) : Chunkqueue :=
  let qlen := chunkqueueLength cq
  if qlen ≠ 0 then chunkqueueAppendMem (chunkqueuePrependBuffer cq (chunkLen qlen)) [CR, LF]
  else cq

/-! ## What is appended -/

/-- The pieces `data` one behind the other as chunks. -/
def chunksOf (data : List Bytes) : Bytes :=
  (data.filter (· ≠ [])).flatMap fun d => chunkLen d.length ++ d ++ [CR, LF]

theorem isChunk_chunkLen (d : Bytes) : IsChunk (chunkLen d.length ++ d ++ [CR, LF]) d := by
  obtain ⟨hex, hnum⟩ := hexNumber_bufferAppendUintHex d.length
  exact ⟨bufferAppendUintHex d.length, hex, hnum, rfl⟩

@[simp] theorem chunksOf_append (ds es : List Bytes) :
    chunksOf (ds ++ es) = chunksOf ds ++ chunksOf es := by
  simp [chunksOf]

theorem chunksOf_singleton {d : Bytes} (h : d ≠ []) :
    chunksOf [d] = chunkLen d.length ++ d ++ [CR, LF] := by
  simp [chunksOf, h]

/-- Pieces as chunks and the last chunk are a chunked message. -/
theorem chunkedMessage_chunksOf (ds : List Bytes) :
    ChunkedMessage (chunksOf ds ++ str "0\r\n\r\n") ds.flatten := by
  induction ds with
  | nil => exact @ChunkedMessage.last [48] ⟨by simp, by simp [hexDigit]⟩ rfl
  | cons d ds ih =>
    rw [← List.singleton_append, chunksOf_append, List.append_assoc, List.flatten_append]
    by_cases h : d = []
    · subst h
      exact ih
    · rw [chunksOf_singleton h, List.flatten_singleton]
      exact ChunkedMessage.chunk (isChunk_chunkLen d) h ih

@[simp] theorem bytes_appendFileFd (cq : Chunkqueue) (part : Bytes) :
    (chunkqueueAppendFileFd cq part).bytes = cq.bytes ++ part := by
  unfold chunkqueueAppendFileFd
  split_ifs with h
  · simp [h]
  · exact bytes_appendChunk cq _

variable {conf : HttpChunkConf} {mem : Bytes} {io : TempIo} {cq : Chunkqueue}

theorem bytes_httpChunkAppendFileFdRange (hconf : conf.chunked) (cq : Chunkqueue) {part : Bytes}
    (h : part ≠ []) :
    (httpChunkAppendFileFdRange conf cq part).bytes = cq.bytes ++ chunksOf [part] := by
  simp [httpChunkAppendFileFdRange, httpChunkAppendLen, hconf, chunksOf_singleton h]

/-- What is appended to a tempfile is in the queue when zero is returned. -/
theorem bytes_appendMemToTempfile {dest : Chunkqueue}
    (h : (chunkqueueAppendMemToTempfile dest mem io).ok) :
    (chunkqueueAppendMemToTempfile dest mem io).queue.bytes = dest.bytes ++ mem := by
  obtain ⟨n, happ, hn⟩ := appendMemToTempfileLoop_spec io.writes dest mem io.opens io.closes
  rw [chunkqueueAppendMemToTempfile, happ.1, List.take_of_length_le (hn h)]

theorem bytes_httpChunkAppendToTempfile (hconf : conf.chunked) (hmem : mem ≠ [])
    (h : (httpChunkAppendToTempfile conf cq mem io).ok) :
    (httpChunkAppendToTempfile conf cq mem io).queue.bytes = cq.bytes ++ chunksOf [mem] := by
  unfold httpChunkAppendToTempfile at h ⊢
  simp only [hconf, if_true] at h ⊢
  by_cases hlen : (chunkqueueAppendMemToTempfile cq (chunkLen mem.length) io).ok
  · rw [if_neg (not_not.mpr hlen)] at h ⊢
    have hq := bytes_appendMemToTempfile hlen
    generalize chunkqueueAppendMemToTempfile cq (chunkLen mem.length) io = r at h hq ⊢
    by_cases hdata : (chunkqueueAppendMemToTempfile r.queue mem r.io).ok
    · rw [if_neg (not_not.mpr hdata)] at h ⊢
      rw [bytes_appendMemToTempfile h, bytes_appendMemToTempfile hdata, hq,
        chunksOf_singleton hmem]
      simp
    · rw [if_pos hdata] at h
      exact absurd h hdata
  · rw [if_pos hlen] at h
    exact absurd h hlen

theorem bytes_httpChunkAppendData (hconf : conf.chunked)
    (h : (httpChunkAppendData conf cq mem io).ok) :
    (httpChunkAppendData conf cq mem io).queue.bytes = cq.bytes ++ chunksOf [mem] := by
  unfold httpChunkAppendData at h ⊢
  split_ifs at h ⊢ with hnil htemp
  · simp [List.length_eq_zero_iff.mp hnil, chunksOf]
  · exact bytes_httpChunkAppendToTempfile hconf (fun hmem => hnil (by simp [hmem])) h
  · have hmem : mem ≠ [] := fun hmem => hnil (by simp [hmem])
    simp [httpChunkAppendLen, chunksOf_singleton hmem]

theorem bytes_initialChunk (cq : Chunkqueue) :
    (initialChunk cq).bytes = chunksOf [cq.bytes] := by
  unfold initialChunk
  dsimp only
  rw [chunkqueueLength_eq]
  split_ifs with h
  · rw [chunksOf_singleton fun hnil => h (by simp [hnil])]
    simp
  · simp [chunksOf, List.length_eq_zero_iff.mp (not_not.mp h)]

/-! ## A chunked response -/

/-- A call that appends to the response. -/
inductive HttpChunkOp
  | appendMem (mem : Bytes)
  | appendBuffer (mem : Buffer)
  | appendFileRange (file : Option Bytes) (offset : ℕ) (len : ℤ)
  | appendFile (file : Option Bytes)

/-- The call: whether it returned zero, the queue and the system calls to come. -/
def HttpChunkOp.run (conf : HttpChunkConf) (cq : Chunkqueue) (io : TempIo) :
    HttpChunkOp → TempResult
  | appendMem mem => httpChunkAppendMem conf cq mem io
  | appendBuffer mem => httpChunkAppendBuffer conf cq mem io
  | appendFileRange file offset len =>
    let r := httpChunkAppendFileRange conf cq file offset len
    ⟨r.1, r.2, io⟩
  | appendFile file =>
    let r := httpChunkAppendFile conf cq file
    ⟨r.1, r.2, io⟩

/-- The range of a call is not empty: it has a length, or is the rest of the file. -/
def HttpChunkOp.NonemptyRange : HttpChunkOp → Prop
  | appendFileRange _ _ len => len = -1 ∨ 0 < len
  | _ => True

/-- The piece of the body that a call appends; a range that is not in the file, and a file that
cannot be opened, append nothing. -/
def HttpChunkOp.piece : HttpChunkOp → Bytes
  | appendMem mem => mem
  | appendBuffer mem => mem.string
  | appendFileRange file offset len =>
    if len = -1 then (file.getD []).drop offset
    else if offset + len ≤ (file.getD []).length then
      ((file.getD []).drop offset).take len.toNat
    else []
  | appendFile file => file.getD []

/-- The call writes to memory or a tempfile, so that only the tempfile can make it fail. -/
def HttpChunkOp.isData : HttpChunkOp → Bool
  | appendMem _ | appendBuffer _ => true
  | _ => false

/-- The calls one after another, as long as the writes to tempfiles succeed: the queue and the
system calls to come. -/
def httpChunkRun (conf : HttpChunkConf) (cq : Chunkqueue) (io : TempIo) :
    List HttpChunkOp → Option (Chunkqueue × TempIo)
  | [] => some (cq, io)
  | op :: ops =>
    let r := op.run conf cq io
    if op.isData ∧ ¬ r.ok then none else httpChunkRun conf r.queue r.io ops

theorem bytes_httpChunkAppendFileRange (hconf : conf.chunked) (cq : Chunkqueue)
    (file : Option Bytes) (offset : ℕ) {len : ℤ} (hlen : len = -1 ∨ 0 < len) :
    (httpChunkAppendFileRange conf cq file offset len).2.bytes =
      cq.bytes ++ chunksOf [(HttpChunkOp.appendFileRange file offset len).piece] := by
  rcases file with _ | st
  · simp [httpChunkAppendFileRange, HttpChunkOp.piece, chunksOf]
  · unfold httpChunkAppendFileRange HttpChunkOp.piece
    dsimp only [Option.getD_some]
    by_cases hrest : len = -1
    · rw [if_pos hrest, if_pos hrest]
      split_ifs with hoff
      · simp [List.drop_of_length_le hoff, chunksOf]
      · exact bytes_httpChunkAppendFileFdRange hconf cq (by simpa using hoff)
    · rw [if_neg hrest, if_neg hrest]
      by_cases hin : (st.length : ℤ) - offset < len
      · rw [if_pos hin, if_neg (by omega)]
        simp [chunksOf]
      · rw [if_neg hin, if_pos (by omega)]
        refine bytes_httpChunkAppendFileFdRange hconf cq ?_
        rw [← List.length_pos_iff, List.length_take, List.length_drop]
        omega

/-- A call appends its piece as a chunk, and nothing when the piece is empty. -/
theorem HttpChunkOp.bytes_run (hconf : conf.chunked) {op : HttpChunkOp} (hop : op.NonemptyRange)
    (hok : op.isData → (op.run conf cq io).ok) :
    (op.run conf cq io).queue.bytes = cq.bytes ++ chunksOf [op.piece] := by
  cases op with
  | appendMem mem => exact bytes_httpChunkAppendData hconf (hok rfl)
  | appendBuffer mem => exact bytes_httpChunkAppendData hconf (hok rfl)
  | appendFileRange file offset len =>
    exact bytes_httpChunkAppendFileRange hconf cq file offset hop
  | appendFile file =>
    rcases file with _ | st
    · simp [run, httpChunkAppendFile, piece, chunksOf]
    · simp only [run, httpChunkAppendFile, piece, Option.getD_some]
      split_ifs with hnil
      · exact bytes_httpChunkAppendFileFdRange hconf cq fun h => hnil (by simp [h])
      · simp [List.length_eq_zero_iff.mp (not_not.mp hnil), chunksOf]

theorem bytes_httpChunkRun (hconf : conf.chunked) :
    ∀ {ops : List HttpChunkOp} {cq : Chunkqueue} {io : TempIo} {r : Chunkqueue × TempIo},
      (∀ op ∈ ops, op.NonemptyRange) → httpChunkRun conf cq io ops = some r →
        r.1.bytes = cq.bytes ++ chunksOf (ops.map HttpChunkOp.piece)
  | [], cq, io, r, _, h => by
    cases h
    simp [chunksOf]
  | op :: ops, cq, io, r, hops, h => by
    rw [httpChunkRun] at h
    split_ifs at h with hok
    have hstep := HttpChunkOp.bytes_run hconf (hops op List.mem_cons_self) fun hdata =>
      not_not.mp fun hfail => hok ⟨hdata, hfail⟩
    rw [bytes_httpChunkRun hconf (fun o ho => hops o (List.mem_cons_of_mem _ ho)) h, hstep,
      List.append_assoc, ← chunksOf_append, List.map_cons, List.singleton_append]

/-! ## When writing to tempfiles succeeds -/

theorem tempdirLeft_appendMem (h : TempdirLeft cq) (mem : Bytes) :
    TempdirLeft (chunkqueueAppendMem cq mem) := by
  unfold chunkqueueAppendMem
  split_ifs <;> exact h

theorem tempdirLeft_initialChunk (h : TempdirLeft cq) : TempdirLeft (initialChunk cq) := by
  have hprepend : TempdirLeft (chunkqueuePrependBuffer cq (chunkLen (chunkqueueLength cq))) := by
    unfold chunkqueuePrependBuffer
    split_ifs <;> exact h
  unfold initialChunk
  dsimp only
  split_ifs
  · exact tempdirLeft_appendMem hprepend _
  · exact h

theorem tempdirLeft_httpChunkAppendFileFdRange (h : TempdirLeft cq) (conf : HttpChunkConf)
    (part : Bytes) : TempdirLeft (httpChunkAppendFileFdRange conf cq part) := by
  have hfd : ∀ cq', TempdirLeft cq' → TempdirLeft (chunkqueueAppendFileFd cq' part) := by
    intro cq' h'
    unfold chunkqueueAppendFileFd
    split_ifs <;> exact h'
  unfold httpChunkAppendFileFdRange
  dsimp only
  split_ifs
  · exact tempdirLeft_appendMem (hfd _ (tempdirLeft_appendMem h _)) _
  · exact hfd _ h

/-- The call returned zero, and the next one finds no failing system call either. -/
def TempResult.Succeeds (r : TempResult) : Prop := r.ok ∧ r.io = .success ∧ TempdirLeft r.queue

theorem appendMemToTempfile_succeeds (h : TempdirLeft cq) (hio : io = .success) (mem : Bytes) :
    (chunkqueueAppendMemToTempfile cq mem io).Succeeds := by
  subst hio
  have hstored := appendMemToTempfile_success h mem
  exact ⟨hstored.ok, hstored.io, hstored.tempdirLeft h⟩

theorem httpChunkAppendToTempfile_succeeds (h : TempdirLeft cq) (conf : HttpChunkConf) (mem : Bytes) :
    (httpChunkAppendToTempfile conf cq mem .success).Succeeds := by
  have hlen : (if conf.chunked then chunkqueueAppendMemToTempfile cq (chunkLen mem.length) .success
      else ⟨true, cq, .success⟩).Succeeds := by
    split_ifs
    · exact appendMemToTempfile_succeeds h rfl _
    · exact ⟨rfl, rfl, h⟩
  unfold httpChunkAppendToTempfile
  dsimp only
  generalize (if conf.chunked then chunkqueueAppendMemToTempfile cq (chunkLen mem.length) .success
      else ⟨true, cq, .success⟩) = r at hlen ⊢
  have hdata := appendMemToTempfile_succeeds hlen.2.2 hlen.2.1 mem
  rw [if_neg (not_not.mpr hlen.1), if_neg (not_not.mpr hdata.1)]
  split_ifs
  · exact appendMemToTempfile_succeeds hdata.2.2 hdata.2.1 _
  · exact hdata

/-- Without chunked coding `http_chunk_append_mem` appends the bytes. -/
theorem stored_httpChunkAppendMem (hconf : conf.chunked = false) (h : TempdirLeft cq) (mem : Bytes) :
    Stored cq (httpChunkAppendMem conf cq mem .success) mem := by
  unfold httpChunkAppendMem httpChunkAppendData
  split_ifs with hnil htemp hchunked
  · rw [List.length_eq_zero_iff.mp hnil]
    exact ⟨rfl, rfl, .refl cq, rfl, rfl⟩
  · have hstored := appendMemToTempfile_success h mem
    have heq : httpChunkAppendToTempfile conf cq mem .success =
        chunkqueueAppendMemToTempfile cq mem .success := by
      simp [httpChunkAppendToTempfile, hconf]
    rw [heq]
    exact hstored
  · rw [hconf] at hchunked
    cases hchunked
  · have hmem : mem ≠ [] := fun hmem => hnil (by rw [hmem]; rfl)
    have heq : chunkqueueAppendMem cq mem = chunkqueueAppendChunk cq (.ofMem mem) := if_neg hmem
    refine ⟨rfl, rfl, ⟨bytes_appendMem cq mem, ?_⟩, ?_, ?_⟩ <;> dsimp only <;> rw [heq] <;> rfl

theorem httpChunkAppendData_succeeds (h : TempdirLeft cq) (conf : HttpChunkConf) (mem : Bytes) :
    (httpChunkAppendData conf cq mem .success).Succeeds := by
  unfold httpChunkAppendData
  split_ifs
  · exact ⟨rfl, rfl, h⟩
  · exact httpChunkAppendToTempfile_succeeds h conf mem
  · refine ⟨rfl, rfl, ?_⟩
    dsimp only
    exact tempdirLeft_appendMem (tempdirLeft_appendMem (tempdirLeft_appendMem h _) _) _
  · exact ⟨rfl, rfl, tempdirLeft_appendMem h _⟩

/-- Every sequence of calls runs to its end when no system call on a tempfile fails. -/
theorem httpChunkRun_success (conf : HttpChunkConf) :
    ∀ {cq : Chunkqueue} (_ : TempdirLeft cq) (ops : List HttpChunkOp),
      ∃ r, httpChunkRun conf cq .success ops = some r
  | cq, _, [] => ⟨_, rfl⟩
  | cq, h, op :: ops => by
    have hstep : (op.isData → (op.run conf cq .success).ok) ∧
        (op.run conf cq .success).io = .success ∧ TempdirLeft (op.run conf cq .success).queue := by
      cases op with
      | appendMem mem =>
        have hdata := httpChunkAppendData_succeeds h conf mem
        exact ⟨fun _ => hdata.1, hdata.2⟩
      | appendBuffer mem =>
        have hdata := httpChunkAppendData_succeeds h conf mem.string
        exact ⟨fun _ => hdata.1, hdata.2⟩
      | appendFileRange file offset len =>
        refine ⟨fun hdata => absurd hdata (by simp [HttpChunkOp.isData]), rfl, ?_⟩
        simp only [HttpChunkOp.run, httpChunkAppendFileRange]
        split
        · exact h
        · split_ifs
          all_goals first | exact h | exact tempdirLeft_httpChunkAppendFileFdRange h conf _
      | appendFile file =>
        refine ⟨fun hdata => absurd hdata (by simp [HttpChunkOp.isData]), rfl, ?_⟩
        simp only [HttpChunkOp.run, httpChunkAppendFile]
        split
        · exact h
        · split_ifs
          all_goals first | exact h | exact tempdirLeft_httpChunkAppendFileFdRange h conf _
    rw [httpChunkRun, if_neg fun hfail => hfail.2 (hstep.1 hfail.1), hstep.2.1]
    exact httpChunkRun_success conf hstep.2.2 ops

/-- A response that `connection_handle_write_prepare` makes chunked, that is appended to and then
closed, is a chunked message, and its body is what was queued and the pieces in order. -/
theorem httpChunkRun_chunkedMessage (bufmin : Bool) (cq : Chunkqueue) (io : TempIo)
    (ops : List HttpChunkOp) (hops : ∀ op ∈ ops, op.NonemptyRange) (r : Chunkqueue × TempIo)
    (hrun : httpChunkRun ⟨true, bufmin⟩ (initialChunk cq) io ops = some r) (body : Bytes) :
    ChunkedMessage (httpChunkClose ⟨true, bufmin⟩ r.1).bytes body ↔
      body = cq.bytes ++ ops.flatMap HttpChunkOp.piece := by
  have hbytes : (httpChunkClose ⟨true, bufmin⟩ r.1).bytes =
      chunksOf (cq.bytes :: ops.map HttpChunkOp.piece) ++ str "0\r\n\r\n" := by
    rw [httpChunkClose, if_pos rfl, bytes_appendMem, bytes_httpChunkRun rfl hops hrun,
      bytes_initialChunk, ← chunksOf_append, List.singleton_append]
  have hmessage := chunkedMessage_chunksOf (cq.bytes :: ops.map HttpChunkOp.piece)
  rw [← hbytes, List.flatten_cons, ← List.flatMap_def] at hmessage
  exact ⟨fun h => h.unique hmessage, fun h => h ▸ hmessage⟩

theorem httpChunkRun_chunkedMessage_hello :
    ∃ r, httpChunkRun ⟨true, false⟩
        (initialChunk (chunkqueueAppendMem (chunkqueueInit 1024 0) (str "hi"))) .success
        [.appendMem (str "hello"), .appendBuffer none, .appendFileRange (some (str "abc")) 1 (-1)] =
          some r ∧
      ChunkedMessage (httpChunkClose ⟨true, false⟩ r.1).bytes (str "hihellobc") := by
  obtain ⟨r, hr⟩ := httpChunkRun_success ⟨true, false⟩
    (tempdirLeft_initialChunk
      (tempdirLeft_appendMem (Or.inl rfl : TempdirLeft (chunkqueueInit 1024 0)) (str "hi")))
    [.appendMem (str "hello"), .appendBuffer none, .appendFileRange (some (str "abc")) 1 (-1)]
  exact ⟨r, hr, (httpChunkRun_chunkedMessage false _ _ _
    (by simp [HttpChunkOp.NonemptyRange]) r hr _).mpr (by decide)⟩

end Lighttpd
