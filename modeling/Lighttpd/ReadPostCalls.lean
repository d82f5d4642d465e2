import Lighttpd.ReadPostTurns

/-!
# Calls that read a chunked body

A call of `connection_handle_read_post_chunked` returns `HANDLER_GO_ON` or an error response. It
does not when trailers that have no end in the read queue are as long as `max_request_field_size`:
the search leaves a null pointer in `p`, and `hsz` is computed from it
(`readPost_not_responds`). `readPostReach_responds` says that this and a chunk of 2^63-2 octets or
more, to whose size two is added, are all that goes wrong, over any reads and calls.
-/

namespace Lighttpd

open CString

/-- A call that starts with `received` octets of the body, `te_chunked` and the bytes of the read
queue comes to a chunk header at `b'` with `received'` octets. -/
inductive ChunkBoundary (conf : ReadPostConf) : ℕ → ℤ → Bytes → ℕ → Bytes → Prop
  | here (received : ℕ) (b : Bytes) : ChunkBoundary conf received 0 b received b
  | chunk {received te hsz received' : ℕ} {b b' : Bytes} (header : chunkHeader b = .size te hsz)
      (short : requestTooLong conf received te = false)
      (rest : ChunkBoundary conf received (te + 2) (b.drop hsz) received' b') :
      ChunkBoundary conf received 0 b received' b'
  | data {received n received' : ℕ} {b b' : Bytes} (hlen : n + 2 ≤ b.length)
      (hcrlf : [CR, LF] <+: b.drop n)
      (rest : ChunkBoundary conf (received + n) 0 (b.drop (n + 2)) received' b') :
      ChunkBoundary conf received (n + 2) b received' b'

/-- The last chunk of the queue is empty. -/
def lastEmpty (cs : List Chunk) : Bool := cs.getLast?.any fun c => c.remainingLength = 0

/-- The header at `b` is one that the code does not cope with: unfinished trailers that are too
long, or a size to which two cannot be added. -/
def BreaksAt (conf : ReadPostConf) (e : Bool) (received : ℕ) (b : Bytes) : Prop :=
  (chunkHeader b = .unfinished ∧ cutsTrailers conf e b = true) ∨
    ∃ te hsz, chunkHeader b = .size te hsz ∧ requestTooLong conf received te = false ∧
      2 ^ 63 - 2 ≤ te

/-- No chunk header in the bytes of the read queue is such a one. -/
def CopesWith (conf : ReadPostConf) (con : ReadPostCon) : Prop :=
  ∀ received b, ChunkBoundary conf con.requestContentQueue.bytesIn con.teChunked
    con.readQueue.bytes received b → ¬ BreaksAt conf (lastEmpty con.readQueue.chunks) received b

/-- `HANDLER_GO_ON`, or an error response. -/
def ReadPostResult.IsResponse (r : ReadPostResult) : Prop :=
  (∃ con, r = .goOn con) ∨ ∃ con httpStatus, r = connectionHandleReadPostError con httpStatus

/-- What holds between two calls. -/
structure Ready (con : ReadPostCon) : Prop where
  arranged : ∃ e, Arranged e con.readQueue.chunks
  teChunked : con.teChunked = 0 ∨ ∃ n : ℕ, con.teChunked = n + 2

/-- The loop returns, with a response. -/
def Responds (conf : ReadPostConf) (con : ReadPostCon) (te : ℤ) : Prop :=
  ∃ turns r, readPostLoop conf turns con te = some r ∧ r.IsResponse ∧
    ∀ con', r = .goOn con' → Ready con'

section Responds

variable {conf : ReadPostConf} {e : Bool} {con con' con₁ : ReadPostCon} {te te' : ℤ}
  {httpStatus : ℕ}

theorem responds_leave (h : readPostTurn conf con te = .leave con' te')
    (hr : Ready { con' with teChunked := te' }) : Responds conf con te := by
  refine ⟨1, _, by rw [readPostLoop, h], .inl ⟨_, rfl⟩, fun con'' heq => ?_⟩
  cases heq
  exact hr

theorem responds_error
    (h : readPostTurn conf con te = .stop (connectionHandleReadPostError con' httpStatus)) :
    Responds conf con te :=
  ⟨1, _, by rw [readPostLoop, h], .inr ⟨_, _, rfl⟩, fun _ heq =>
    absurd heq ((connectionHandleReadPostError_ne _ _).1 _)⟩

theorem responds_run (h : readPostTurn conf con te = .run con' te')
    (hr : Ready { con' with teChunked := te' }) (hrest : Responds conf con' te') :
    Responds conf con te := by
  by_cases hempty : con'.readQueue.isEmpty
  · refine ⟨1, .goOn { con' with teChunked := te' }, ?_, .inl ⟨_, rfl⟩, fun con'' heq => ?_⟩
    · rw [readPostLoop, h]
      exact if_pos hempty
    · cases heq
      exact hr
  · obtain ⟨turns, r, hloop, hresp⟩ := hrest
    refine ⟨turns + 1, r, ?_, hresp⟩
    rw [readPostLoop, h]
    exact (if_neg hempty).trans hloop

theorem responds_data {n : ℕ} (harr : Arranged e con₁.readQueue.chunks)
    (hturn : readPostTurn conf con te = readChunk con₁ (n + 2))
    (hrest : ∀ con', n + 2 ≤ con₁.readQueue.bytes.length → [CR, LF] <+: con₁.readQueue.bytes.drop n →
      Moved con₁ n (n + 2) con' → Responds conf con' 0) : Responds conf con te := by
  have hdata := readChunk_spec harr n
  rw [← hturn] at hdata
  generalize hph : readPostTurn conf con te = ph at hdata
  cases hdata with
  | short con' hlen moved =>
    refine responds_leave hph ⟨⟨e, moved.arranged e harr⟩, .inr ?_⟩
    exact ⟨n - min con₁.readQueue.bytes.length n, by push_cast; omega⟩
  | failed con' => exact responds_error hph
  | noCrlf con' => exact responds_error hph
  | crlf con' hlen hcrlf moved =>
    exact responds_run hph ⟨⟨e, moved.arranged e harr⟩, .inl rfl⟩ (hrest con' hlen hcrlf moved)

theorem boundary_data {n received : ℕ} {b : Bytes} (hlen : n + 2 ≤ con₁.readQueue.bytes.length)
    (hcrlf : [CR, LF] <+: con₁.readQueue.bytes.drop n) (moved : Moved con₁ n (n + 2) con')
    (h : ChunkBoundary conf con'.requestContentQueue.bytesIn 0 con'.readQueue.bytes received b) :
    ChunkBoundary conf con₁.requestContentQueue.bytesIn (n + 2) con₁.readQueue.bytes received b := by
  refine .data hlen hcrlf ?_
  rw [moved.stored.2, List.length_take, min_eq_left (by omega), moved.bytes] at h
  exact h

/-- The turns of a loop whose headers are all right. The induction is on the bytes of the read queue:
a turn that goes on has read a CRLF. -/
theorem responds_of_boundaries (k : ℕ) :
    ∀ {con : ReadPostCon} {te : ℤ}, con.readQueue.bytes.length = k →
      Arranged e con.readQueue.chunks → (te = 0 ∨ ∃ n : ℕ, te = n + 2) →
      (∀ received b, ChunkBoundary conf con.requestContentQueue.bytesIn te con.readQueue.bytes
        received b → ¬ BreaksAt conf e received b) → Responds conf con te := by
  induction k using Nat.strong_induction_on with
  | _ k ih =>
    intro con te hk harr hte hcopes
    rcases hte with rfl | ⟨n, rfl⟩
    · obtain ⟨ph, hturn, hheader⟩ := readPostTurn_header conf harr
      have hhere := hcopes _ _ (.here _ _)
      cases hheader with
      | incomplete q header bytes arranged =>
        exact responds_leave hturn ⟨arranged, .inl rfl⟩
      | refused q header => exact responds_error hturn
      | unfinished q header uncut bytes arranged =>
        exact responds_leave hturn ⟨arranged, .inl rfl⟩
      | cut r header cuts hr => exact absurd (.inl ⟨header, cuts⟩) hhere
      | last q hsz header bytes arranged => exact responds_leave hturn ⟨arranged, .inl rfl⟩
      | tooLong q te hsz header long => exact responds_error hturn
      | size q te hsz header short bytes arranged =>
        have hte : wrap64 (te + 2) = te + 2 := by
          by_contra hwrap
          refine hhere (.inr ⟨te, hsz, header, short, ?_⟩)
          by_contra hlt
          exact hwrap (by rw [wrap64, Int.bmod_eq_of_le] <;> omega)
        rw [hte] at hturn
        refine responds_data arranged hturn fun con' hlen hcrlf moved => ?_
        have hshorter : con'.readQueue.bytes.length < k := by
          rw [moved.bytes, List.length_drop, bytes, List.length_drop]
          rw [bytes, List.length_drop] at hlen
          omega
        refine ih _ hshorter rfl (moved.arranged e arranged) (.inl rfl) fun received b hb => ?_
        have hb' := boundary_data hlen hcrlf moved hb
        exact hcopes received b (.chunk header short (bytes ▸ hb'))
    · refine responds_data harr (readPostTurn_data conf con n) fun con' hlen hcrlf moved => ?_
      have hshorter : con'.readQueue.bytes.length < k := by
        rw [moved.bytes, List.length_drop]
        omega
      refine ih _ hshorter rfl (moved.arranged e harr) (.inl rfl) fun received b hb => ?_
      exact hcopes received b (boundary_data hlen hcrlf moved hb)

end Responds

theorem Arranged.lastEmpty : ∀ {e : Bool} {cs : List Chunk}, Arranged e cs →
    Arranged (lastEmpty cs) cs
  | _, [], _ => trivial
  | e, [c], h => ⟨h.1, by simp [Lighttpd.lastEmpty]⟩
  | e, c :: d :: cs, h => ⟨h.1, h.2.1, by
    have hcs : Lighttpd.lastEmpty (c :: d :: cs) = Lighttpd.lastEmpty (d :: cs) := rfl
    rw [hcs]
    exact h.2.2.lastEmpty⟩

/-- The connections between the calls of a request: a read puts bytes behind those of the read
queue, and anything may happen to the other fields; a call met only headers it copes with. -/
inductive ReadPostReach : ReadPostCon → Prop
  | start (con : ReadPostCon) (teChunked : con.teChunked = 0)
      (arranged : ∃ e, Arranged e con.readQueue.chunks) : ReadPostReach con
  | read {con : ReadPostCon} (con' : ReadPostCon) (h : ReadPostReach con)
      (teChunked : con'.teChunked = con.teChunked)
      (bytes : con.readQueue.bytes <+: con'.readQueue.bytes)
      (arranged : ∃ e, Arranged e con'.readQueue.chunks) : ReadPostReach con'
  | call {con : ReadPostCon} (con' : ReadPostCon) (conf : ReadPostConf) (turns : ℕ)
      (h : ReadPostReach con) (copes : CopesWith conf con)
      (goOn : connectionHandleReadPostChunked conf turns con = some (.goOn con')) :
      ReadPostReach con'

variable {con : ReadPostCon}

theorem Ready.responds {conf : ReadPostConf} (h : Ready con) (copes : CopesWith conf con) :
    Responds conf con con.teChunked := by
  obtain ⟨e, harr⟩ := h.arranged
  exact responds_of_boundaries _ rfl harr.lastEmpty h.teChunked copes

theorem ReadPostReach.ready (h : ReadPostReach con) : Ready con := by
  induction h with
  | start con teChunked arranged => exact ⟨arranged, .inl teChunked⟩
  | read con' h teChunked bytes arranged ih => exact ⟨arranged, teChunked ▸ ih.teChunked⟩
  | call con' conf turns h copes goOn ih =>
    obtain ⟨turns', r, hloop, -, hready⟩ := ih.responds copes
    exact hready con' (readPostLoop_unique hloop goOn)

/-- A call that meets only headers it copes with ends, and returns `HANDLER_GO_ON` or an error
response: no assertion of `chunk.c` fails, and `hsz` is not computed from a null pointer. -/
theorem readPostReach_responds (conf : ReadPostConf) (con : ReadPostCon) (h : ReadPostReach con)
    (copes : CopesWith conf con) :
    ∃ turns r, connectionHandleReadPostChunked conf turns con = some r ∧ r.IsResponse := by
  obtain ⟨turns, r, hloop, hresp, -⟩ := h.ready.responds copes
  exact ⟨turns, r, hloop, hresp⟩

/-- A new chunked request whose read queue holds `b`. -/
def chunkedBodyCon (b : Bytes) : ReadPostCon where
  readQueue := chunkqueueAppendMem (chunkqueueInit 0 0) b
  requestContentQueue := chunkqueueInit 0 0
  writeQueue := chunkqueueInit 0 0
  teChunked := 0
  contentLength := -1
  keepAlive := true
  bytesHeader := 0
  httpStatus := 0
  mode := 0
  io := .success

/-- No limit for bodies, and 8 octets for a header field. -/
def smallFieldConf : ReadPostConf := ⟨0, 8, 4096, false, by decide, by decide⟩

theorem readPostReach_responds_last :
    ∃ turns r, connectionHandleReadPostChunked smallFieldConf turns
      (chunkedBodyCon (str "0\r\na: b\r\n\r\n")) = some r ∧ r.IsResponse := by
  refine readPostReach_responds _ _ (.start _ rfl ⟨false, rfl, by decide⟩) fun received b hb => ?_
  have hheader : chunkHeader (str "0\r\na: b\r\n\r\n") = .last 11 := by decide
  cases hb with
  | here =>
    rintro (⟨h, -⟩ | ⟨te, hsz, h, -⟩)
    · exact absurd (hheader.symm.trans h) (by simp)
    · exact absurd (hheader.symm.trans h) (by simp)
  | chunk header => exact absurd (hheader.symm.trans header) (by simp)

/-- Trailers of which more octets than `max_request_field_size` are there, and not their end. -/
theorem readPost_not_responds :
    ReadPostReach (chunkedBodyCon (str "0\r\na: bbbb")) ∧
      ¬ ∃ turns r, connectionHandleReadPostChunked smallFieldConf turns
        (chunkedBodyCon (str "0\r\na: bbbb")) = some r ∧ r.IsResponse := by
  have harr : Arranged false (chunkedBodyCon (str "0\r\na: bbbb")).readQueue.chunks :=
    ⟨rfl, by decide⟩
  refine ⟨.start _ rfl ⟨false, harr⟩, ?_⟩
  rintro ⟨turns, r, hr, ⟨con', rfl⟩ | ⟨con', httpStatus, rfl⟩⟩
  · rcases readPostLoop_cut harr (by decide) (by decide) hr with h | h <;> cases h
  · rcases readPostLoop_cut harr (by decide) (by decide) hr with h | h
    · exact (connectionHandleReadPostError_ne _ _).2.1 h
    · exact (connectionHandleReadPostError_ne _ _).2.2 h

end Lighttpd
