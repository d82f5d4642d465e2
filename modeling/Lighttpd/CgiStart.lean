import Lighttpd.CgiSubrequest

/-!
# When a CGI program is started

The body file, the queue of the request and the read queue together always hold what was received,
and the program is started at most once, with the whole body in the file. It is started by the first
call that finds the whole body in the queue and a body file that takes it, unless the request is to
be upgraded.
-/

namespace Lighttpd

open CString

/-! ## Writing the body -/

/-- What was written and what is left is what there was. -/
structure GoesOut (cq cq' : Chunkqueue) (out : Bytes) : Prop where
  full : Full cq'.chunks
  bytes : out ++ cq'.bytes = cq.bytes
  bytesIn : cq'.bytesIn = cq.bytesIn
  tempdirs : TempdirLeft cq → TempdirLeft cq'

variable {cq : Chunkqueue}

theorem GoesOut.refl (h : Full cq.chunks) : GoesOut cq cq [] :=
  ⟨h, rfl, rfl, id⟩

theorem GoesOut.trans {cq cq' cq'' : Chunkqueue} {out out' : Bytes} (h : GoesOut cq cq' out)
    (h' : GoesOut cq' cq'' out') : GoesOut cq cq'' (out ++ out') where
  full := h'.full
  bytes := by rw [List.append_assoc, h'.bytes, h.bytes]
  bytesIn := h'.bytesIn.trans h.bytesIn
  tempdirs := fun hdir => h'.tempdirs (h.tempdirs hdir)

theorem goesOut_markWritten (hfull : Full cq.chunks) {n : ℕ} (hn : n ≤ cq.bytes.length) :
    ∃ cq', chunkqueueMarkWritten cq n = some cq' ∧ GoesOut cq cq' (cq.bytes.take n) := by
  have hsome := (markWritten_isSome_iff cq n).mpr ⟨by omega, by rw [chunkqueueLength_eq]; omega⟩
  obtain ⟨cq', hcq'⟩ := Option.isSome_iff_exists.mp hsome
  obtain ⟨-, -, hbytes, hin, hloop⟩ := markWritten_eq_some hcq'
  rw [Int.toNat_natCast] at hbytes hloop
  refine ⟨cq', hcq', hfull.markWrittenLoop hloop, ?_, hin, fun hdir => ?_⟩
  · rw [hbytes, List.take_append_drop]
  · unfold chunkqueueMarkWritten at hcq'
    split_ifs at hcq'
    split at hcq'
    · cases hcq'
    · cases hcq'
      exact hdir

/-- The body file takes some bytes. -/
def BodyIo.Accepts (io : BodyIo) : Prop :=
  (io.source = .mapped ∨ ∃ n, io.source = .read (n + 1)) ∧ ∃ n, io.write = .written (n + 1)

/-- A turn writes the first bytes of the queue, or fails without writing. -/
structure TurnGoesOut (cq : Chunkqueue) (io : BodyIo) (t : BodyTurn) : Prop where
  goesOut : GoesOut cq t.queue t.out
  ret : t.ret = t.out.length ∨ t.ret = -1 ∧ t.out = []
  accepts : io.Accepts → t.out ≠ []

theorem turn_writeBodyData (hfull : Full cq.chunks) (mem : Bool) {data rest : Bytes}
    (hbytes : cq.bytes = data ++ rest) (hdata : data ≠ []) {io : BodyIo}
    (hreset : io.write ≠ .reset) :
    ∃ t, writeBodyData cq mem data io.write = some t ∧ TurnGoesOut cq io t := by
  have hrefused : (∀ n, io.write ≠ .written (n + 1)) → ¬ io.Accepts := by
    rintro h ⟨-, n, hn⟩
    exact h n hn
  cases hwrite : io.write with
  | written n =>
    rw [writeBodyData]
    split_ifs with hmem
    · have hn : n = 0 := by
        have := List.length_pos_iff.mpr hdata
        omega
      refine ⟨_, rfl, .refl hfull, .inl rfl, fun h => absurd h (hrefused ?_)⟩
      intro k hk
      rw [hwrite, hn] at hk
      cases hk
    · obtain ⟨cq', hmark, hout⟩ := goesOut_markWritten hfull (n := min n data.length) (by
        rw [hbytes, List.length_append]
        omega)
      have htake : cq.bytes.take (min n data.length) = data.take (min n data.length) := by
        rw [hbytes, List.take_append_of_le_length (by omega)]
      refine ⟨_, by rw [hmark]; rfl, by rw [← htake]; exact hout, .inl ?_, ?_⟩
      · simp
      · rintro ⟨-, k, hk⟩
        rw [hwrite] at hk
        cases hk
        have := List.length_pos_iff.mpr hdata
        refine List.ne_nil_of_length_pos ?_
        simp only [List.length_take]
        omega
  | again =>
    refine ⟨_, rfl, .refl hfull, .inl rfl, fun h => absurd h (hrefused ?_)⟩
    intro k hk
    rw [hwrite] at hk
    cases hk
  | reset => exact absurd hwrite hreset
  | failed =>
    refine ⟨_, rfl, .refl hfull, .inr ⟨rfl, rfl⟩, fun h => absurd h (hrefused ?_)⟩
    intro k hk
    rw [hwrite] at hk
    cases hk

theorem turn_cgiWriteChunk {c : Chunk} {cs : List Chunk} (hchunks : cq.chunks = c :: cs)
    (hfull : Full cq.chunks) {io : BodyIo} (hreset : io.write ≠ .reset) :
    ∃ t, cgiWriteChunk cq c io = some t ∧ TurnGoesOut cq io t := by
  have hbytes : cq.bytes = c.remaining ++ content cs := by
    rw [Chunkqueue.bytes, hchunks, content_cons]
  have hc : 0 < c.remainingLength := by
    rw [hchunks] at hfull
    exact (full_cons.mp hfull).1
  have hne : c.remaining ≠ [] := by
    rw [ne_eq, Chunk.remaining_eq_nil_iff]
    omega
  unfold cgiWriteChunk
  cases c.type with
  | mem => exact turn_writeBodyData hfull true hbytes hne hreset
  | file =>
    dsimp only
    rw [cgiWriteFileChunkMmap, if_neg (by omega)]
    cases hdata : fileData c io.source with
    | none =>
      refine ⟨_, rfl, .refl hfull, .inr ⟨rfl, rfl⟩, ?_⟩
      rintro ⟨hmapped | ⟨n, hread⟩, -⟩
      · rw [hmapped] at hdata
        cases hdata
      · rw [hread, fileData, if_neg (by omega)] at hdata
        cases hdata
    | some data =>
      dsimp only
      have hpre : ∃ rest, c.remaining = data ++ rest ∧ data ≠ [] := by
        cases hsource : io.source with
        | mapped =>
          rw [hsource] at hdata
          cases hdata
          exact ⟨[], by simp, hne⟩
        | read n =>
          rw [hsource, fileData] at hdata
          split_ifs at hdata with hzero
          cases hdata
          refine ⟨_, (List.take_append_drop _ _).symm, List.ne_nil_of_length_pos ?_⟩
          rw [List.length_take, Chunk.length_remaining]
          omega
        | failed =>
          rw [hsource] at hdata
          cases hdata
      obtain ⟨rest, hrest, hdata⟩ := hpre
      exact turn_writeBodyData hfull false (by rw [hbytes, hrest, List.append_assoc]) hdata hreset

/-- The loop writes the first bytes of the queue, and all of them when the file takes them. -/
theorem cgiWriteLoop_spec : ∀ (ios : List BodyIo) {cq : Chunkqueue} (_ : Full cq.chunks)
    (_ : ∀ io ∈ ios, io.write ≠ .reset) (file : Bytes),
    ∃ failed cq' out, cgiWriteLoop ios cq file = some (failed, cq', file ++ out) ∧
      GoesOut cq cq' out ∧
      ((∀ io ∈ ios, io.Accepts) → cq.bytes.length ≤ ios.length → failed = false ∧ cq'.bytes = [])
  | [], cq, hfull, _, file =>
    ⟨false, cq, [], by rw [cgiWriteLoop, List.append_nil], .refl hfull,
      fun _ h => ⟨rfl, List.length_eq_zero_iff.mp (Nat.le_zero.mp h)⟩⟩
  | io :: ios, cq, hfull, hreset, file => by
    cases hchunks : cq.chunks with
    | nil =>
      refine ⟨false, cq, [], by rw [cgiWriteLoop, hchunks, List.append_nil]; rfl, .refl hfull,
        fun _ _ => ⟨rfl, ?_⟩⟩
      rw [Chunkqueue.bytes, hchunks]
      rfl
    | cons c cs =>
      obtain ⟨t, ht, hout, hret, haccepts⟩ :=
        turn_cgiWriteChunk hchunks hfull (hreset io List.mem_cons_self)
      rw [cgiWriteLoop, hchunks]
      dsimp only [List.head?_cons]
      rw [ht]
      dsimp only
      rcases hret with hret | ⟨hret, hnil⟩
      · by_cases hzero : t.out = []
        · rw [if_pos (by rw [hret, hzero]; rfl)]
          rw [hzero] at hout
          exact ⟨_, _, [], by rw [List.append_nil], hout,
            fun h => absurd hzero (haccepts (h io List.mem_cons_self))⟩
        · have hpos := List.length_pos_iff.mpr hzero
          rw [if_neg (by omega), if_neg (by omega), if_neg (by omega)]
          obtain ⟨failed, cq', out, hrun, hout', hall⟩ := cgiWriteLoop_spec ios hout.full
            (fun io h => hreset io (List.mem_cons_of_mem _ h)) (file ++ t.out)
          refine ⟨failed, cq', t.out ++ out, by rw [hrun, List.append_assoc], hout.trans hout',
            fun h hlen => hall (fun io hio => h io (List.mem_cons_of_mem _ hio)) ?_⟩
          have hlength := congrArg List.length hout.bytes
          rw [List.length_append] at hlength
          rw [List.length_cons] at hlen
          omega
      · rw [if_neg (by omega), if_pos hret]
        rw [hnil] at hout
        exact ⟨_, _, [], by rw [List.append_nil], hout,
          fun h => absurd hnil (haccepts (h io List.mem_cons_self))⟩

/-! ## Reading the body -/

/-- The bytes that come from the client. -/
def PostRead.bytes : PostRead → Bytes
  | .data s _ => s
  | .notReadable => []
  | .closed => []
  | .failed => []

theorem useMemory_getMemory (cq : Chunkqueue) (fresh : Bool) (s : Bytes) :
    ∃ cq', chunkqueueUseMemory (chunkqueueGetMemory cq
        (fresh || !cq.chunks.getLast?.any fun c => c.type = .mem)) s = some cq' ∧
      cq'.bytes = cq.bytes ++ s := by
  generalize hfresh : (fresh || !cq.chunks.getLast?.any fun c => decide (c.type = .mem)) = new
  have hlast : ∃ c, (chunkqueueGetMemory cq new).chunks.getLast? = some c ∧ c.type = .mem := by
    unfold chunkqueueGetMemory
    split_ifs with hnew
    · exact ⟨.ofMem [], List.getLast?_concat, rfl⟩
    · rw [Bool.not_eq_true] at hnew
      rw [hnew, Bool.or_eq_false_iff, Bool.not_eq_false'] at hfresh
      obtain ⟨c, hc, hmem⟩ := (Option.any_eq_true _ _).mp hfresh.2
      exact ⟨c, hc, of_decide_eq_true hmem⟩
  obtain ⟨c, hc, hmem⟩ := hlast
  have hsome : (chunkqueueUseMemory (chunkqueueGetMemory cq new) s).isSome := by
    unfold chunkqueueUseMemory
    split
    · next d hd =>
      obtain rfl : c = d := Option.some.inj (hc.symm.trans hd)
      rw [if_pos hmem]
      rfl
    · next hnone =>
      rw [hc] at hnone
      cases hnone
  obtain ⟨cq', hcq'⟩ := Option.isSome_iff_exists.mp hsome
  exact ⟨cq', hcq', by rw [bytes_useMemory hcq', bytes_getMemory]⟩

theorem isEmpty_removeFinishedChunks (cq : Chunkqueue) :
    (chunkqueueRemoveFinishedChunks cq).isEmpty ↔ cq.bytes = [] := by
  rw [Chunkqueue.isEmpty, List.isEmpty_iff, chunkqueueRemoveFinishedChunks, Chunkqueue.bytes]
  dsimp only
  constructor
  · intro h
    rw [← content_dropWhile, h, content_nil]
  · intro h
    refine List.dropWhile_eq_nil_iff.mpr fun c hc => decide_eq_true ?_
    rw [← Chunk.remaining_eq_nil_iff]
    exact List.flatMap_eq_nil_iff.mp h c hc

/-- The files can be created, and the body file is no connection that could be reset. -/
structure CgiCall.Succeeds (call : CgiCall) : Prop where
  io : call.io = .success
  socketOpens : call.socketOpens = true
  fileOpens : call.fileOpens = true
  writes : ∀ io ∈ call.writes, io.write ≠ .reset

/-- The body file takes a body of this length. -/
def CgiCall.Accepts (call : CgiCall) (n : ℕ) : Prop :=
  (∀ io ∈ call.writes, io.Accepts) ∧ n ≤ call.writes.length

namespace CgiHctx

variable {h h' : CgiHctx}

theorem networkRead_spec (h : CgiHctx) (read : PostRead) :
    ∃ ret cq, h.networkRead read = some (ret, cq) ∧ cq.bytes = h.readQueue.bytes ++ read.bytes ∧
      (ret = -1 ↔ read = .failed) := by
  cases read with
  | notReadable => exact ⟨0, h.readQueue, rfl, by simp [PostRead.bytes], by simp⟩
  | data s fresh =>
    obtain ⟨cq, hcq, hbytes⟩ := useMemory_getMemory h.readQueue fresh s
    refine ⟨0, cq, ?_, hbytes, by simp⟩
    rw [networkRead, hcq]
    rfl
  | closed => exact ⟨-2, h.readQueue, rfl, by simp [PostRead.bytes], by simp⟩
  | failed => exact ⟨-1, h.readQueue, rfl, by simp [PostRead.bytes], by simp⟩

/-- Bytes have moved from the read queue to the queue of the request, and nothing else. -/
structure BodyRead (h h' : CgiHctx) (s : Bytes) : Prop where
  bytes : h'.contentQueue.bytes ++ h'.readQueue.bytes =
    h.contentQueue.bytes ++ (h.readQueue.bytes ++ s)
  bytesOut : h'.contentQueue.bytesOut = h.contentQueue.bytesOut
  le : h'.contentQueue.bytesIn ≤ h'.contentLength
  full : Full h'.contentQueue.chunks
  tempdirs : TempdirLeft h'.contentQueue
  contentLength : h'.contentLength = h.contentLength
  upgrade : h'.upgrade = h.upgrade
  fdOpen : h'.fdOpen = h.fdOpen
  attached : h'.attached = h.attached
  bodyFile : h'.bodyFile = h.bodyFile
  sent : h'.sent = h.sent

theorem stealBody_spec (hfull : Full h.contentQueue.chunks) (hdir : TempdirLeft h.contentQueue)
    (hle : h.contentQueue.bytesIn ≤ h.contentLength) :
    ∃ h', h.stealBody .success = some h' ∧ BodyRead h h' [] ∧
      h'.contentQueue.bytesIn = min h.contentLength (h.contentQueue.bytesIn +
        h.readQueue.bytes.length) ∧ h'.pollin = h.pollin ∧ h'.stream = h.stream := by
  generalize hlen : ((h.contentLength : ℤ) - h.contentQueue.bytesIn) = len
  have hnat : len.toNat = h.contentLength - h.contentQueue.bytesIn := by omega
  have hin : ∀ cq : Chunkqueue,
      cq.bytes = h.contentQueue.bytes ++ h.readQueue.bytes.take len.toNat →
      cq.bytesOut = h.contentQueue.bytesOut → cq.bytesIn = min h.contentLength
        (h.contentQueue.bytesIn + h.readQueue.bytes.length) := by
    intro cq hbytes hout
    have h1 := bytesIn_eq cq
    have h2 := bytesIn_eq h.contentQueue
    rw [hbytes, List.length_append, List.length_take, hnat, hout] at h1
    omega
  by_cases hsmall : h.contentLength ≤ 64 * 1024
  · have hsteal : h.stealBody .success = some { h with
        contentQueue := (chunkqueueSteal h.contentQueue h.readQueue len).1
        readQueue := (chunkqueueSteal h.contentQueue h.readQueue len).2 } := by
      rw [stealBody, hlen]
      dsimp only
      rw [if_pos hsmall]
    refine ⟨_, hsteal, ?_, ?_, rfl, rfl⟩
    · refine ⟨?_, rfl, ?_, ?_, hdir, rfl, rfl, rfl, rfl, rfl, rfl⟩
      · simp [List.take_append_drop]
      · have := hin (chunkqueueSteal h.contentQueue h.readQueue len).1 (by simp) rfl
        dsimp only
        omega
      · exact full_append.mpr ⟨hfull, full_stealLoop _ _⟩
    · exact hin _ (by simp) rfl
  · have hsteal := stealTempLoop_success hdir len.toNat h.readQueue.chunks
    have hok : (chunkqueueStealWithTempfiles h.contentQueue h.readQueue len .success).1.ok :=
      hsteal.1
    obtain ⟨⟨happ, happIn⟩, hmoved⟩ := stealTempLoop_ok hsteal.1
    have hleft := stealTempLoop_content h.contentQueue .success len.toNat h.readQueue.chunks
    have hbytes :
        (chunkqueueStealWithTempfiles h.contentQueue h.readQueue len .success).1.queue.bytes =
          h.contentQueue.bytes ++ h.readQueue.bytes.take len.toNat := happ
    have hrest : (chunkqueueStealWithTempfiles h.contentQueue h.readQueue len .success).2.bytes =
        h.readQueue.bytes.drop len.toNat := by
      refine hleft.2.trans ?_
      rw [hmoved]
      change h.readQueue.bytes.drop (min len.toNat h.readQueue.bytes.length) = _
      rcases Nat.le_total len.toNat h.readQueue.bytes.length with hl | hl
      · rw [Nat.min_eq_left hl]
      · rw [Nat.min_eq_right hl, List.drop_length, List.drop_of_length_le hl]
    have hout :
        (chunkqueueStealWithTempfiles h.contentQueue h.readQueue len .success).1.queue.bytesOut =
          h.contentQueue.bytesOut := by
      have h1 := bytesIn_eq (chunkqueueStealWithTempfiles h.contentQueue h.readQueue len
        .success).1.queue
      have h2 := bytesIn_eq h.contentQueue
      have h3 : (chunkqueueStealWithTempfiles h.contentQueue h.readQueue len
        .success).1.queue.bytesIn = _ := happIn
      rw [hbytes, List.length_append] at h1
      have hlength : ((content h.readQueue.chunks).take len.toNat).length =
        (h.readQueue.bytes.take len.toNat).length := rfl
      omega
    have heq : h.stealBody .success = some { h with
        contentQueue :=
          (chunkqueueStealWithTempfiles h.contentQueue h.readQueue len .success).1.queue
        readQueue :=
          (chunkqueueStealWithTempfiles h.contentQueue h.readQueue len .success).2 } := by
      rw [stealBody, hlen]
      dsimp only
      rw [if_neg hsmall, if_pos hok]
    refine ⟨_, heq, ?_, hin _ hbytes hout, rfl, rfl⟩
    refine ⟨?_, hout, ?_, full_stealTempLoop hdir hfull _ _, hsteal.2.2, rfl, rfl, rfl, rfl, rfl,
      rfl⟩
    · dsimp only
      rw [hbytes, hrest, List.append_assoc, List.take_append_drop, List.append_nil]
    · have := hin _ hbytes hout
      dsimp only
      omega

/-- What the call reads completes the body. -/
def Completes (h : CgiHctx) (call : CgiCall) : Prop :=
  call.read ≠ .failed ∧
    h.contentLength ≤ h.contentQueue.bytesIn + (h.readQueue.bytes ++ call.read.bytes).length

variable {call : CgiCall} {received : Bytes}

/-- `connection_handle_read_post_state` moves what it reads and, when that completes the body, says
so. -/
theorem connectionHandleReadPostState_spec (hio : call.io = .success)
    (hfull : Full h.contentQueue.chunks) (hdir : TempdirLeft h.contentQueue)
    (hle : h.contentQueue.bytesIn < h.contentLength) :
    ∃ rc h', h.connectionHandleReadPostState call = some (rc, h') ∧
      BodyRead h h' call.read.bytes ∧ (rc = .goOn ∨ rc = .waitForEvent ∨ rc = .error) ∧
      (h.Completes call → rc = .goOn ∧ h'.contentQueue.bytesIn = h.contentLength) ∧
      (h'.contentQueue.bytesIn = h.contentLength → h.Completes call) := by
  obtain ⟨ret, cq, hread, hbytes, hfailed⟩ := h.networkRead_spec call.read
  rw [connectionHandleReadPostState, hread]
  dsimp only
  by_cases hret : ret = -1
  · rw [if_pos hret]
    refine ⟨_, _, rfl, ⟨?_, rfl, hle.le, hfull, hdir, rfl, rfl, rfl, rfl, rfl, rfl⟩,
      .inr (.inr rfl), fun hc => absurd (hfailed.mp hret) hc.1, fun heq => ?_⟩
    · dsimp only
      rw [hbytes]
    · dsimp only at heq
      omega
  rw [if_neg hret]
  have hq : (chunkqueueRemoveFinishedChunks cq).bytes = h.readQueue.bytes ++ call.read.bytes := by
    rw [bytes_removeFinishedChunks, hbytes]
  by_cases hcontinue : (chunkqueueRemoveFinishedChunks cq).isEmpty ∧
      h.contentQueue.bytesIn = 0 ∧ call.continueFails
  · rw [if_pos hcontinue]
    refine ⟨_, _, rfl, ⟨?_, rfl, hle.le, hfull, hdir, rfl, rfl, rfl, rfl, rfl, rfl⟩,
      .inr (.inr rfl), fun hc => ?_, fun heq => ?_⟩
    · dsimp only
      rw [hq]
    · have hnil := (isEmpty_removeFinishedChunks cq).mp hcontinue.1
      have hlen := hc.2
      rw [← hbytes, hnil, List.length_nil] at hlen
      omega
    · dsimp only at heq
      omega
  · rw [if_neg hcontinue]
    obtain ⟨h', hsteal, hbody, hin, -, -⟩ := stealBody_spec
      (h := { h with readQueue := chunkqueueRemoveFinishedChunks cq }) hfull hdir hle.le
    rw [hio, hsteal]
    dsimp only at hin ⊢
    rw [hq] at hin
    have hlength := hbody.contentLength
    dsimp only at hlength
    have hcompletes : h.Completes call ↔ h'.contentQueue.bytesIn = h.contentLength := by
      unfold Completes
      rw [hin]
      refine ⟨fun hc => by have := hc.2; omega, fun heq => ⟨fun hf => hret (hfailed.mpr hf), ?_⟩⟩
      omega
    have hmoved : ∀ x : CgiHctx, x.contentQueue = h'.contentQueue →
        x.readQueue = chunkqueueRemoveFinishedChunks h'.readQueue →
        x.contentLength = h'.contentLength → x.upgrade = h'.upgrade → x.fdOpen = h'.fdOpen →
        x.attached = h'.attached → x.bodyFile = h'.bodyFile → x.sent = h'.sent →
        BodyRead h x call.read.bytes := by
      intro x h1 h2 h3 h4 h5 h6 h7 h8
      have hb := hbody.bytes
      dsimp only at hb
      refine ⟨?_, ?_, ?_, ?_, ?_, h3.trans hlength, h4.trans hbody.upgrade, h5.trans hbody.fdOpen,
        h6.trans hbody.attached, h7.trans hbody.bodyFile, h8.trans hbody.sent⟩
      · rw [h1, h2, bytes_removeFinishedChunks, hb, hq, List.append_nil]
      · rw [h1]
        exact hbody.bytesOut
      · rw [h1, h3]
        exact hbody.le
      · rw [h1]
        exact hbody.full
      · rw [h1]
        exact hbody.tempdirs
    rw [hlength]
    by_cases hdone : h'.contentQueue.bytesIn = h.contentLength
    · rw [if_pos hdone]
      exact ⟨_, _, rfl, hmoved _ rfl rfl hlength.symm rfl rfl rfl rfl rfl, .inl rfl,
        fun _ => ⟨rfl, hdone⟩, fun _ => hcompletes.mpr hdone⟩
    · have hmore : ¬ h.Completes call := fun hc => hdone (hcompletes.mp hc)
      rw [if_neg hdone]
      by_cases hclosed : ret = -2
      · rw [if_pos hclosed]
        exact ⟨_, _, rfl, hmoved _ rfl rfl hlength.symm rfl rfl rfl rfl rfl, .inr (.inr rfl),
          fun hc => absurd hc hmore, fun heq => absurd heq hdone⟩
      · rw [if_neg hclosed]
        refine ⟨_, _, rfl, hmoved _ rfl rfl hlength.symm rfl rfl rfl rfl rfl, ?_,
          fun hc => absurd hc hmore, fun heq => absurd heq hdone⟩
        split_ifs
        · exact .inl rfl
        · exact .inr (.inl rfl)

/-! ## Calls of the handler -/

/-- What was received is in the body file, the queue of the request and the read queue, and the
program was started at most once, with the whole body in the file. -/
structure Sound (received : Bytes) (h : CgiHctx) : Prop where
  full : Full h.contentQueue.chunks
  tempdirs : TempdirLeft h.contentQueue
  bytes : h.bodyFile ++ (h.contentQueue.bytes ++ h.readQueue.bytes) = received
  written : h.bodyFile.length = h.contentQueue.bytesOut
  le : h.contentQueue.bytesIn ≤ h.contentLength
  once : h.sent = 0 ∨ h.sent = 1 ∧ h.contentQueue.bytesOut = h.contentLength
  upgrade : h.upgrade → h.contentLength ≠ 0 → h.sent = 0

/-- Until the files are there, nothing is written or started; behind that the program is started
when the body is written. -/
structure Underway (received : Bytes) (h : CgiHctx) : Prop extends Sound received h where
  fresh : h.attached → h.fdOpen = false → h.contentQueue.bytesOut = 0 ∧ h.sent = 0
  started : h.attached → h.fdOpen → h.contentQueue.bytesOut = h.contentLength →
    h.upgrade ∧ h.contentLength ≠ 0 ∨ h.sent = 1

/-- Nothing of what was received is lost, and a program that was started has its body. -/
theorem Sound.bodyFile (h : Sound received h') :
    h'.bodyFile <+: received.take h'.contentLength ∧
      (h'.sent = 1 → h'.bodyFile = received.take h'.contentLength) := by
  have hin := bytesIn_eq h'.contentQueue
  have hwritten := h.written
  have hle := h.le
  have htake : received.take h'.contentLength = h'.bodyFile ++
      (h'.contentQueue.bytes ++ h'.readQueue.bytes).take
        (h'.contentLength - h'.bodyFile.length) := by
    rw [← h.bytes, List.take_append, List.take_of_length_le (by omega)]
  rw [htake]
  refine ⟨List.prefix_append _ _, fun hsent => ?_⟩
  rcases h.once with h0 | ⟨-, hout⟩
  · omega
  · rw [hwritten, hout, Nat.sub_self, List.take_zero, List.append_nil]

/-- The parts that stay when the handler writes. -/
structure SameRequest (h h' : CgiHctx) : Prop where
  contentLength : h'.contentLength = h.contentLength
  bytesIn : h'.contentQueue.bytesIn = h.contentQueue.bytesIn
  upgrade : h'.upgrade = h.upgrade
  fdOpen : h'.fdOpen = h.fdOpen
  attached : h'.attached = h.attached

/-- The request is started when the last byte of the body is written. -/
def StartedWhenWritten (h h' : CgiHctx) : Prop :=
  h'.contentQueue.bytesOut = h.contentLength → h.upgrade ∨ h'.sent = 1

/-- `cgi_write_request` keeps what was received, and starts the program with the last byte. -/
theorem cgiWriteRequest_spec (hs : Sound received h) (hsent : h.sent = 0) {writes : List BodyIo}
    (hwrites : ∀ io ∈ writes, io.write ≠ .reset) :
    ∃ failed h', h.cgiWriteRequest writes = some (failed, h') ∧ Sound received h' ∧
      SameRequest h h' ∧ (failed = false → StartedWhenWritten h h') ∧
      ((∀ io ∈ writes, io.Accepts) → h.contentLength ≤ writes.length →
        failed = false ∧ h'.contentQueue.bytes = []) := by
  obtain ⟨failed, cq, out, hloop, hout, hall⟩ := cgiWriteLoop_spec writes hs.full hwrites h.bodyFile
  have hin := bytesIn_eq h.contentQueue
  have hin' := bytesIn_eq cq
  have hbytes := congrArg List.length hout.bytes
  have hcqin := hout.bytesIn
  have hle := hs.le
  rw [List.length_append] at hbytes
  have hwritten : (h.bodyFile ++ out).length = cq.bytesOut := by
    rw [List.length_append, hs.written]
    omega
  have hreceived : h.bodyFile ++ out ++ (cq.bytes ++ h.readQueue.bytes) = received := by
    rw [← hs.bytes, ← hout.bytes]
    simp
  have hcqle : cq.bytesIn ≤ h.contentLength := by omega
  have hdone : (∀ io ∈ writes, io.Accepts) → h.contentLength ≤ writes.length →
      failed = false ∧ cq.bytes = [] := fun ha hl => hall ha (by omega)
  rw [cgiWriteRequest, hloop, Option.map_some]
  dsimp only
  cases failed with
  | true =>
    rw [if_pos rfl]
    exact ⟨true, _, rfl, ⟨hout.full, hout.tempdirs hs.tempdirs, hreceived, hwritten, hcqle,
      .inl hsent, fun _ _ => hsent⟩, ⟨rfl, hout.bytesIn, rfl, rfl, rfl⟩, (fun h => by cases h),
      hdone⟩
  | false =>
    rw [if_neg Bool.false_ne_true]
    by_cases hstart : cq.bytesOut = h.contentLength ∧ ¬ h.upgrade
    · rw [if_pos hstart]
      refine ⟨false, _, rfl, ⟨hout.full, hout.tempdirs hs.tempdirs, hreceived, hwritten, hcqle,
        .inr ⟨by dsimp only; omega, hstart.1⟩, fun hu _ => absurd hu hstart.2⟩,
        ⟨rfl, hout.bytesIn, rfl, rfl, rfl⟩, fun _ _ => .inr (by dsimp only; omega), hdone⟩
    · rw [if_neg hstart]
      have hlater : cq.bytesOut = h.contentLength → h.upgrade ∨ h.sent = 1 := fun heq =>
        .inl (not_not.mp fun hu => hstart ⟨heq, hu⟩)
      split_ifs
      all_goals
        exact ⟨false, _, rfl, ⟨hout.full, hout.tempdirs hs.tempdirs, hreceived, hwritten, hcqle,
          .inl hsent, fun _ _ => hsent⟩, ⟨rfl, hout.bytesIn, rfl, rfl, rfl⟩, fun _ => hlater,
          hdone⟩

/-- A request that is not pending any more is over for the handler. -/
theorem Underway.detach (hs : Sound received h) :
    Underway received { h with attached := false } where
  full := hs.full
  tempdirs := hs.tempdirs
  bytes := hs.bytes
  written := hs.written
  le := hs.le
  once := hs.once
  upgrade := hs.upgrade
  fresh := fun ha => by cases ha
  started := fun ha => by cases ha

/-- The call leaves the program started, when it waits with the whole body. -/
def StartsBody (h h' : CgiHctx) (rc : HandlerT) : Prop :=
  rc = .waitForEvent → h'.contentQueue.bytesIn = h.contentLength → h'.sent = 1

/-- What `startOrWrite` promises of what a call comes to. -/
def StartsOrWrites (received : Bytes) (h : CgiHctx) (call : CgiCall)
    (r : Option (HandlerT × CgiHctx)) : Prop :=
  ∃ rc h', r = some (rc, h') ∧ Underway received h' ∧ h'.contentLength = h.contentLength ∧
    h'.contentQueue.bytesIn = h.contentQueue.bytesIn ∧
    (call.Accepts h.contentLength → h.contentQueue.bytesIn = h.contentLength →
      (StartsBody h h' rc ↔
        ¬ (h.upgrade ∧ h.contentLength ≠ 0 ∧ (h.fdOpen ∨ call.handlerFound))))

/-- The body is written to a program that runs, and the request is over when that fails. -/
theorem startsOrWrites_cgiWriteRequest (hcall : call.Succeeds) (hne : h.contentLength ≠ 0)
    (hopen : h.fdOpen ∨ call.handlerFound) {x : CgiHctx} (hx : Sound received x) (hx0 : x.sent = 0)
    (hxlen : x.contentLength = h.contentLength) (hxcq : x.contentQueue = h.contentQueue)
    (hxup : x.upgrade = h.upgrade) (hxfd : x.fdOpen = true) (rc : HandlerT) :
    StartsOrWrites received h call ((x.cgiWriteRequest call.writes).map fun r =>
      if r.1 then (rc, { r.2 with attached := false }) else (.waitForEvent, r.2)) := by
  obtain ⟨failed, h', hrun, hsound, hsame, hstarted, hall⟩ :=
    cgiWriteRequest_spec hx hx0 hcall.writes
  have hlen := hsame.contentLength.trans hxlen
  have hin : h'.contentQueue.bytesIn = h.contentQueue.bytesIn := by rw [hsame.bytesIn, hxcq]
  have hdone : call.Accepts h.contentLength → failed = false ∧ h'.contentQueue.bytes = [] :=
    fun haccepts => hall haccepts.1 (by rw [hxlen]; exact haccepts.2)
  rw [hrun, Option.map_some]
  cases failed with
  | true =>
    exact ⟨_, _, rfl, .detach hsound, hlen, hin,
      fun haccepts _ => absurd (hdone haccepts).1 (by decide)⟩
  | false =>
    refine ⟨_, _, rfl, ⟨hsound, fun _ hfd => ?_, fun _ _ hout => ?_⟩, hlen, hin,
      fun haccepts hbody => ?_⟩
    · rw [hsame.fdOpen, hxfd] at hfd
      cases hfd
    · rw [hlen] at hout ⊢
      rcases hstarted rfl (by rw [hxlen]; exact hout) with hu | h1
      · exact .inl ⟨by rw [hsame.upgrade]; exact hu, hne⟩
      · exact .inr h1
    · have hin' := bytesIn_eq h'.contentQueue
      rw [(hdone haccepts).2, List.length_nil, hin] at hin'
      constructor
      · rintro hstarts ⟨hu, -, -⟩
        have h0 := hsound.upgrade (by rw [hsame.upgrade, hxup]; exact hu) (by rw [hlen]; exact hne)
        exact absurd (h0.symm.trans (hstarts rfl (hin.trans hbody))) (by decide)
      · intro hnot _ _
        rcases hstarted rfl (by omega) with hu | h1
        · rw [hxup] at hu
          exact absurd ⟨hu, hne, hopen⟩ hnot
        · exact h1

theorem startOrWrite_spec (hs : Underway received h) (ha : h.attached) (hcall : call.Succeeds) :
    StartsOrWrites received h call (h.startOrWrite call) := by
  have hin := bytesIn_eq h.contentQueue
  unfold startOrWrite
  by_cases hfd : h.fdOpen
  · rw [if_neg (not_not.mpr hfd)]
    by_cases hempty : h.contentQueue.isEmpty
    · rw [if_neg (not_not.mpr hempty)]
      refine ⟨_, _, rfl, hs, rfl, rfl, fun _ hdone => ?_⟩
      have hnil : h.contentQueue.bytes = [] := by
        rw [Chunkqueue.bytes, List.isEmpty_iff.mp hempty, content_nil]
      rw [hnil, List.length_nil] at hin
      constructor
      · rintro hstarts ⟨hu, hne, -⟩
        have h0 := hs.upgrade hu hne
        have h1 := hstarts rfl hdone
        omega
      · intro hnot _ _
        rcases hs.started ha hfd (by omega) with ⟨hu, hne⟩ | h1
        · exact absurd ⟨hu, hne, .inl hfd⟩ hnot
        · exact h1
    · rw [if_pos hempty]
      have hpos : 0 < h.contentQueue.bytes.length := by
        rw [List.length_pos_iff]
        intro hnil
        exact hempty (List.isEmpty_iff.mpr (hs.full.eq_nil hnil))
      have hle := hs.le
      have hsent : h.sent = 0 := by
        rcases hs.once with h0 | ⟨-, hout⟩
        · exact h0
        · omega
      exact startsOrWrites_cgiWriteRequest hcall (by omega) (.inl hfd) hs.toSound hsent rfl
        rfl rfl hfd .error
  · rw [if_pos hfd, cgiCreateEnv]
    have hclosed : h.fdOpen = false := by simpa using hfd
    obtain ⟨hout, hsent⟩ := hs.fresh ha hclosed
    by_cases hfound : call.handlerFound
    · rw [if_neg (not_not.mpr hfound)]
      dsimp only
      by_cases hne : h.contentLength ≠ 0
      · rw [if_pos hne, if_neg (not_not.mpr hcall.fileOpens)]
        have hx : Sound received { h with fdOpen := call.socketOpens } :=
          ⟨hs.full, hs.tempdirs, hs.bytes, hs.written, hs.le, hs.once, hs.upgrade⟩
        exact startsOrWrites_cgiWriteRequest hcall hne (.inr hfound) hx hsent rfl rfl rfl
          hcall.socketOpens .finished
      · rw [if_neg hne, Option.map_some]
        have hzero : h.contentLength = 0 := not_not.mp hne
        refine ⟨_, _, rfl, ?_, rfl, rfl,
          fun _ _ => iff_of_true (fun _ _ => ?_) fun hc => hne hc.2.1⟩
        · refine ⟨⟨hs.full, hs.tempdirs, hs.bytes, hs.written, hs.le, .inr ⟨?_, ?_⟩,
            fun _ hn => absurd hzero hn⟩, fun _ hopen => ?_, fun _ _ _ => .inr ?_⟩
          · simp [hsent]
          · simp [hout, hzero]
          · exact absurd (hcall.socketOpens.symm.trans hopen) (by decide)
          · simp [hsent]
        · simp [hsent]
    · rw [if_pos hfound]
      refine ⟨_, _, rfl, .detach hs.toSound, rfl, rfl,
        fun _ _ => iff_of_true (fun hrc => by cases hrc) ?_⟩
      rintro ⟨-, -, hopen | hf⟩
      · exact hfd hopen
      · exact hfound hf

/-- The call gets to read from the client. -/
def Reads (h : CgiHctx) (call : CgiCall) : Prop :=
  h.attached = true ∧ call.response = none ∧ h.contentQueue.bytesIn ≠ h.contentLength ∧ ¬ h.Holds

instance (h : CgiHctx) (call : CgiCall) : Decidable (h.Reads call) :=
  inferInstanceAs (Decidable (_ ∧ _))

/-- The bytes that a call reads. -/
def callReads (h : CgiHctx) (call : CgiCall) : Bytes := if h.Reads call then call.read.bytes else []

/-- The call reads the end of the body, or it finds the whole body of a request that is to be
upgraded. -/
def WaitsUnstarted (h : CgiHctx) (call : CgiCall) : Prop :=
  h.Reads call ∧ h.Completes call ∨
    h.attached = true ∧ call.response = none ∧ h.contentQueue.bytesIn = h.contentLength ∧
      h.upgrade ∧ h.contentLength ≠ 0 ∧ (h.fdOpen ∨ call.handlerFound)

theorem modCgiHandleSubrequest_spec (hs : Underway received h) (hcall : call.Succeeds) :
    ∃ rc h', h.modCgiHandleSubrequest call = some (rc, h') ∧
      Underway (received ++ h.callReads call) h' ∧ h'.contentLength = h.contentLength ∧
      (call.Accepts h.contentLength → (StartsBody h h' rc ↔ ¬ h.WaitsUnstarted call)) := by
  have hquiet : ¬ h.Reads call → received ++ h.callReads call = received := fun hr => by
    rw [callReads, if_neg hr, List.append_nil]
  unfold modCgiHandleSubrequest
  by_cases ha : h.attached
  swap
  · have hr : ¬ h.Reads call := fun hr => ha hr.1
    rw [if_pos ha, hquiet hr]
    refine ⟨_, _, rfl, hs, rfl, fun _ => iff_of_true (fun hrc => by cases hrc) ?_⟩
    rintro (⟨hr', -⟩ | ⟨ha', -⟩)
    · exact hr hr'
    · exact ha ha'
  rw [if_neg (not_not.mpr ha)]
  cases hresponse : call.response with
  | some redirect =>
    have hnone : call.response ≠ none := by
      rw [hresponse]
      exact Option.some_ne_none _
    have hr : ¬ h.Reads call := fun hr => hnone hr.2.1
    rw [hquiet hr]
    refine ⟨_, _, rfl, .detach hs.toSound, rfl, fun _ => iff_of_true (fun hrc => ?_) ?_⟩
    · cases redirect <;> cases hrc
    · rintro (⟨hr', -⟩ | ⟨-, hn, -⟩)
      · exact hr hr'
      · exact hnone hn
  | none =>
    dsimp only
    by_cases hdone : h.contentQueue.bytesIn = h.contentLength
    · -- the whole body was there before the call
      have hr : ¬ h.Reads call := fun hr => hr.2.2.1 hdone
      rw [if_neg (not_not.mpr hdone), hquiet hr]
      obtain ⟨rc, h', hrun, hunder, hlen, -, hiff⟩ := startOrWrite_spec hs ha hcall
      refine ⟨rc, h', hrun, hunder, hlen,
        fun haccepts => (hiff haccepts hdone).trans (not_congr ?_)⟩
      refine ⟨fun hc => .inr ⟨ha, hresponse, hdone, hc⟩, ?_⟩
      rintro (⟨hr', -⟩ | ⟨-, -, -, hc⟩)
      · exact absurd hr' hr
      · exact hc
    rw [if_pos hdone]
    have hmissing : ∀ {rc : HandlerT} {x : CgiHctx},
        x.contentQueue.bytesIn = h.contentQueue.bytesIn → StartsBody h x rc :=
      fun hin _ heq => absurd (hin.symm.trans heq) hdone
    by_cases hhold : h.Holds
    · have hr : ¬ h.Reads call := fun hr => hr.2.2.2 hhold
      have hnot : ¬ h.WaitsUnstarted call := by
        rintro (⟨hr', -⟩ | ⟨-, -, heq, -⟩)
        · exact hr hr'
        · exact hdone heq
      have hs' : Underway received { h with pollin := false } :=
        ⟨⟨hs.full, hs.tempdirs, hs.bytes, hs.written, hs.le, hs.once, hs.upgrade⟩, hs.fresh,
          hs.started⟩
      rw [if_pos hhold, hquiet hr]
      by_cases hfd : h.fdOpen
      · rw [if_pos hfd]
        exact ⟨_, _, rfl, hs', rfl, fun _ => iff_of_true (hmissing rfl) hnot⟩
      · rw [if_neg hfd]
        obtain ⟨rc, h', hrun, hunder, hlen, hin, -⟩ := startOrWrite_spec hs' ha hcall
        exact ⟨rc, h', hrun, hunder, hlen, fun _ => iff_of_true (hmissing hin) hnot⟩
    -- the call reads
    have hr : h.Reads call := ⟨ha, hresponse, hdone, hhold⟩
    have hlt : h.contentQueue.bytesIn < h.contentLength := Nat.lt_of_le_of_ne hs.le hdone
    have hin := bytesIn_eq h.contentQueue
    have hsent : h.sent = 0 := by
      rcases hs.once with h0 | ⟨-, hout⟩
      · exact h0
      · omega
    obtain ⟨rc, h', hread, hbody, hrc, hcomplete, hcompleted⟩ :=
      connectionHandleReadPostState_spec hcall.io hs.full hs.tempdirs hlt
    have hlen := hbody.contentLength
    have hreads : h.callReads call = call.read.bytes := if_pos hr
    have hs' : Underway (received ++ h.callReads call) h' := by
      have hbytes := hbody.bytes
      refine ⟨⟨hbody.full, hbody.tempdirs, ?_, ?_, hbody.le, .inl ?_, fun _ _ => ?_⟩,
        fun _ hfd => ?_, fun _ _ hout => ?_⟩
      · rw [hbody.bodyFile, hbytes, hreads, ← hs.bytes]
        simp
      · rw [hbody.bodyFile, hbody.bytesOut, hs.written]
      · rw [hbody.sent, hsent]
      · rw [hbody.sent, hsent]
      · rw [hbody.fdOpen] at hfd
        rw [hbody.bytesOut, hbody.sent]
        exact hs.fresh ha hfd
      · rw [hbody.bytesOut, hlen] at hout
        omega
    have hnothing : ¬ h.Completes call → ∀ {rc : HandlerT} {x : CgiHctx},
        x.contentQueue.bytesIn = h'.contentQueue.bytesIn →
        (StartsBody h x rc ↔ ¬ h.WaitsUnstarted call) := by
      intro hnot rc x hx
      refine iff_of_true (fun _ heq => absurd (hcompleted (hx.symm.trans heq)) hnot) ?_
      rintro (⟨-, hc⟩ | ⟨-, -, heq, -⟩)
      · exact hnot hc
      · exact hdone heq
    rw [if_neg hhold, hread]
    dsimp only
    by_cases hempty : h'.contentQueue.isEmpty
    · have hnot : ¬ h.Completes call := by
        intro hc
        have hin' := bytesIn_eq h'.contentQueue
        have hnil : h'.contentQueue.bytes = [] := by
          rw [Chunkqueue.bytes, List.isEmpty_iff.mp hempty, content_nil]
        rw [hnil, List.length_nil, (hcomplete hc).2, hbody.bytesOut] at hin'
        omega
      rw [if_neg (not_not.mpr hempty)]
      by_cases hgo : rc = .goOn
      · rw [if_neg (not_not.mpr hgo)]
        obtain ⟨rc', h'', hrun, hunder, hlen', hin', -⟩ :=
          startOrWrite_spec hs' (by rw [hbody.attached]; exact ha) hcall
        exact ⟨rc', h'', hrun, hunder, hlen'.trans hlen, fun _ => hnothing hnot hin'⟩
      · rw [if_pos hgo]
        exact ⟨rc, h', rfl, hs', hlen, fun _ => hnothing hnot rfl⟩
    · rw [if_pos hempty]
      refine ⟨_, h', rfl, hs', hlen, fun _ => ?_⟩
      by_cases hc : h.Completes call
      · obtain ⟨rfl, hwhole⟩ := hcomplete hc
        rw [if_pos rfl]
        refine iff_of_false (fun hstarts => ?_) (not_not.mpr (.inl ⟨hr, hc⟩))
        have h1 := hstarts rfl hwhole
        rw [hbody.sent] at h1
        omega
      · exact hnothing hc rfl

/-! ## Runs -/

/-- The body file has the beginning of the body, and the program was started at most once, with the
whole body in the file. -/
def OnceWithBody (received : Bytes) (h : CgiHctx) : Prop :=
  h.bodyFile <+: received.take h.contentLength ∧
    (h.sent = 0 ∨ h.sent = 1 ∧ h.bodyFile = received.take h.contentLength ∧
      h.bodyFile.length = h.contentLength)

/-- In every state of a run the program was started at most once, with the whole body, and no call
waits for an event with the whole body received, a body file that takes it, and the program not
started. -/
def StartsOnce : Bytes → CgiHctx → List CgiCall → Prop
  | received, h, [] => OnceWithBody received h
  | received, h, call :: calls =>
    OnceWithBody received h ∧ ∃ rc h', h.modCgiHandleSubrequest call = some (rc, h') ∧
      (call.Accepts h.contentLength → StartsBody h h' rc) ∧
      StartsOnce (received ++ h.callReads call) h' calls

/-- No call of the run with a body file that takes the body reads its end, or has an upgrade. -/
def FindsWholeBody : CgiHctx → List CgiCall → Prop
  | _, [] => True
  | h, call :: calls =>
    (call.Accepts h.contentLength → ¬ h.WaitsUnstarted call) ∧
      ∀ rc h', h.modCgiHandleSubrequest call = some (rc, h') → FindsWholeBody h' calls

/-- A request for which `cgi_is_handled` has set up the handler. -/
structure Handled (h : CgiHctx) : Prop where
  attached : h.attached = true
  fdOpen : h.fdOpen = false
  bodyFile : h.bodyFile = []
  sent : h.sent = 0
  bytesOut : h.contentQueue.bytesOut = 0
  le : h.contentQueue.bytesIn ≤ h.contentLength
  full : Full h.contentQueue.chunks
  tempdirs : TempdirLeft h.contentQueue

theorem Handled.underway (hh : Handled h) :
    Underway (h.contentQueue.bytes ++ h.readQueue.bytes) h where
  full := hh.full
  tempdirs := hh.tempdirs
  bytes := by rw [hh.bodyFile, List.nil_append]
  written := by rw [hh.bodyFile, hh.bytesOut, List.length_nil]
  le := hh.le
  once := .inl hh.sent
  upgrade := fun _ _ => hh.sent
  fresh := fun _ _ => ⟨hh.bytesOut, hh.sent⟩
  started := fun _ hfd => absurd (hh.fdOpen.symm.trans hfd) (by decide)

theorem Sound.onceWithBody (hs : Sound received h) : OnceWithBody received h := by
  refine ⟨hs.bodyFile.1, ?_⟩
  rcases hs.once with h0 | ⟨h1, hout⟩
  · exact .inl h0
  · exact .inr ⟨h1, hs.bodyFile.2 h1, hs.written.trans hout⟩

theorem startsOnce_iff : ∀ (calls : List CgiCall) {received : Bytes} {h : CgiHctx},
    Underway received h → (∀ call ∈ calls, call.Succeeds) →
    (StartsOnce received h calls ↔ FindsWholeBody h calls)
  | [], _, _, hs, _ => iff_of_true hs.onceWithBody trivial
  | call :: calls, received, h, hs, hcalls => by
    obtain ⟨rc, h', hrun, hunder, -, hiff⟩ :=
      modCgiHandleSubrequest_spec hs (hcalls call List.mem_cons_self)
    have ih := startsOnce_iff calls hunder fun c hc => hcalls c (List.mem_cons_of_mem call hc)
    rw [StartsOnce, FindsWholeBody]
    constructor
    · rintro ⟨-, rc', h'', hrun', hstarts, hrest⟩
      obtain ⟨rfl, rfl⟩ := Prod.mk.inj (Option.some.inj (hrun.symm.trans hrun'))
      refine ⟨fun haccepts => (hiff haccepts).mp (hstarts haccepts), fun rc' h'' hrun'' => ?_⟩
      obtain ⟨rfl, rfl⟩ := Prod.mk.inj (Option.some.inj (hrun.symm.trans hrun''))
      exact ih.mp hrest
    · rintro ⟨hnot, hrest⟩
      exact ⟨hs.onceWithBody, rc, h', hrun, fun haccepts => (hiff haccepts).mpr (hnot haccepts),
        ih.mpr (hrest rc h' hrun)⟩

/-- A CGI program is started once and with its body, exactly in the runs in which no call reads the
end of the body itself and no request with a body is to be upgraded. -/
theorem cgiCalls_startsOnce_iff (hh : Handled h) {calls : List CgiCall}
    (hcalls : ∀ call ∈ calls, call.Succeeds) :
    StartsOnce (h.contentQueue.bytes ++ h.readQueue.bytes) h calls ↔ FindsWholeBody h calls :=
  startsOnce_iff calls hh.underway hcalls

/-- A request with a body of one byte. -/
def oneByteRequest (contentQueue : Chunkqueue) : CgiHctx where
  readQueue := chunkqueueInit 0 0
  contentQueue := contentQueue
  contentLength := 1
  stream := false
  bufmin := false
  pollin := true
  upgrade := false
  fdOpen := false
  attached := true
  bodyFile := []
  sent := 0

/-- A call that reads these bytes, with a body file that takes a byte. -/
def readingCall (s : Bytes) : CgiCall where
  response := none
  read := .data s true
  continueFails := false
  io := .success
  handlerFound := true
  socketOpens := true
  fileOpens := true
  writes := [⟨.mapped, .written 1⟩]

theorem succeeds_readingCall (s : Bytes) : (readingCall s).Succeeds where
  io := rfl
  socketOpens := rfl
  fileOpens := rfl
  writes := fun io hio => by
    rw [List.mem_singleton.mp hio]
    exact fun h => nomatch h

theorem accepts_readingCall (s : Bytes) : (readingCall s).Accepts 1 := by
  refine ⟨fun io hio => ?_, le_refl 1⟩
  rw [List.mem_singleton.mp hio]
  exact ⟨.inl rfl, 0, rfl⟩

/-- The byte is in the queue when the handler is called. -/
theorem startsOnce_oneByte : StartsOnce [120]
    (oneByteRequest (chunkqueueAppendMem (chunkqueueInit 0 0) [120])) [readingCall []] := by
  have hhandled :
      Handled (oneByteRequest (chunkqueueAppendMem (chunkqueueInit 0 0) [120])) := by
    refine ⟨rfl, rfl, rfl, rfl, rfl, le_refl 1, fun c hc => ?_, .inl rfl⟩
    rw [List.mem_singleton.mp hc]
    decide
  have hcalls : ∀ call ∈ [readingCall []], call.Succeeds := fun call hcall => by
    rw [List.mem_singleton.mp hcall]
    exact succeeds_readingCall []
  refine (cgiCalls_startsOnce_iff hhandled hcalls).mpr ?_
  rw [FindsWholeBody]
  refine ⟨fun _ => ?_, fun _ _ _ => trivial⟩
  rintro (⟨hr, -⟩ | ⟨-, -, -, hu, -⟩)
  · exact hr.2.2.1 rfl
  · cases hu

/-- The call that reads the byte waits, and the program is not started. -/
theorem not_cgiCalls_startsOnce : ¬ ∀ (h : CgiHctx) (calls : List CgiCall), Handled h →
    (∀ call ∈ calls, call.Succeeds) →
      StartsOnce (h.contentQueue.bytes ++ h.readQueue.bytes) h calls := by
  intro hall
  have hhandled : Handled (oneByteRequest (chunkqueueInit 0 0)) :=
    ⟨rfl, rfl, rfl, rfl, rfl, Nat.zero_le 1, full_nil, .inl rfl⟩
  have hcalls : ∀ call ∈ [readingCall [120]], call.Succeeds := fun call hcall => by
    rw [List.mem_singleton.mp hcall]
    exact succeeds_readingCall [120]
  have hstarts := hall _ _ hhandled hcalls
  have hfinds := (startsOnce_iff _ hhandled.underway hcalls).mp hstarts
  refine hfinds.1 (accepts_readingCall [120]) (.inl ⟨⟨rfl, rfl, ?_, ?_⟩, ?_, ?_⟩) <;> decide

end CgiHctx

end Lighttpd
