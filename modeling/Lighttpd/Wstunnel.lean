import Lighttpd.HttpChunk
import Lighttpd.Lib.WebSocket

/-!
# WebSocket frames from the client

`recv_rfc_6455` reads the frames of a client from the `request_content_queue`, hands the payload of
the data frames to the backend and answers each ping with a pong. The frame it is in the middle of
is kept between two calls. However the frames are cut into chunks and calls, the backend gets the
payloads and the client its pongs (`wsRun_clientFrames`).

The connection is one of a version of the protocol from 8 on, so that `mod_wstunnel_frame_send` is
`send_rfc_6455`; the system calls on tempfiles succeed.
-/

namespace Lighttpd

open CString WebSocket

/-! ## The state of a frame -/

/-- `mod_wstunnel_frame_state_t`. -/
inductive WsFrameState
  | init
  | readLength
  | readExLength
  | readMask
  | readPayload
  deriving DecidableEq, Repr

/-- `mod_wstunnel_frame_type_t`. -/
inductive WsFrameType
  | text
  | bin
  | close
  | ping
  | pong
  deriving DecidableEq, Repr

/-- `mod_wstunnel_frame_control_t`. -/
structure WsFrameControl where
  siz : ℕ
  sizCnt : ℤ
  maskCnt : Fin 4
  mask : Key
  deriving DecidableEq, Repr

/-- `mod_wstunnel_frame_t` without the type of the frames from the backend. -/
structure WsFrame where
  state : WsFrameState
  ctl : WsFrameControl
  type : WsFrameType
  typeBefore : WsFrameType
  payload : Bytes
  deriving DecidableEq, Repr

/-- The `handler_ctx` with its queue to the backend, and of its connection the queues and what the
system calls on tempfiles do. -/
structure WsHandler where
  frame : WsFrame
  wb : Chunkqueue
  requestContentQueue : Chunkqueue
  writeQueue : Chunkqueue
  io : TempIo

/-- The frame that `wstunnel_handler_setup` leaves; `binary` says that the frames of the backend
are binary. -/
def wstunnelHandlerSetup (binary : Bool) : WsFrame where
  state := .init
  ctl := ⟨0, 0, 0, Vector.replicate 4 0⟩
  type := if binary then .bin else .text
  typeBefore := if binary then .bin else .text
  payload := []

/-- How a call ends that does not return 0: it returned -1, or an assertion failed. -/
inductive WsStop
  | returned (hctx : WsHandler)
  | aborted

/-- `MOD_WEBSOCKET_BUFMAX`. -/
def MOD_WEBSOCKET_BUFMAX : ℕ := 0x0fffff

/-- The first byte of a frame to the client. -/
def wsFirstByte : WsFrameType → UInt8
  | .text => 0x80 ||| 0x01
  | .bin => 0x80 ||| 0x02
  | .ping => 0x80 ||| 0x09
  | .pong => 0x80 ||| 0x0A
  | .close => 0x80 ||| 0x08

/-- `mem` of `send_rfc_6455`, the header of a frame with a payload of `siz` bytes. -/
def wsHeader (type : WsFrameType) (siz : ℕ) : Bytes :=
  let byte (shift : ℕ) : UInt8 := UInt8.ofNat (siz >>> shift &&& 0xff)
  if siz < 0x7E then [wsFirstByte type, UInt8.ofNat siz]
  else if siz ≤ 65535 then [wsFirstByte type, 0x7E, byte 8, byte 0]
  else [wsFirstByte type, 0x7F, 0, 0, 0, 0, byte 24, byte 16, byte 8, byte 0]

/-- `send_rfc_6455`: whether it returned 0, and the queue to the client. What
`http_chunk_append_mem` returns is ignored. -/
def sendRfc6455 (conf : HttpChunkConf) (cq : Chunkqueue) (io : TempIo) (type : WsFrameType)
    (payload : Option Bytes) : TempResult :=
  if payload = none ∧ (type = .text ∨ type = .bin) then ⟨false, cq, io⟩
  else
    let payload := payload.getD []
    let r := httpChunkAppendMem conf cq (wsHeader type payload.length) io
    let r := if payload.length ≠ 0 then httpChunkAppendMem conf r.queue payload r.io else r
    { r with ok := true }

/-- `mod_wstunnel_frame_send`, whose result is ignored. -/
def WsHandler.frameSend (conf : HttpChunkConf) (hctx : WsHandler) (type : WsFrameType)
    (payload : Option Bytes) : WsHandler :=
  let r := sendRfc6455 conf hctx.writeQueue hctx.io type payload
  { hctx with writeQueue := r.queue, io := r.io }

/-! ## Receiving -/

/-- The loop of `unmask_payload`: the payload, and `mask_cnt`. -/
def unmaskLoop (mask : Key) : Fin 4 → Bytes → Bytes × Fin 4
  | maskCnt, [] => ([], maskCnt)
  | maskCnt, c :: cs =>
    let r := unmaskLoop mask (maskCnt + 1) cs
    ((c ^^^ mask.get maskCnt) :: r.1, r.2)

/-- `unmask_payload`. -/
def unmaskPayload (f : WsFrame) : WsFrame :=
  let r := unmaskLoop f.ctl.mask f.ctl.maskCnt f.payload
  { f with payload := r.1, ctl := { f.ctl with maskCnt := r.2 } }

/-- `MOD_WEBSOCKET_FRAME_STATE_INIT` on the byte `c`; the error is the frame when -1 is returned. -/
def recvInit (f : WsFrame) (c : UInt8) : Except WsFrame WsFrame :=
  let f' := { f with state := .readLength }
  match (c &&& 0x0f).toNat with
  | 0x00 => .ok { f' with type := f.typeBefore }
  | 0x01 => .ok { f' with type := .text, typeBefore := .text }
  | 0x02 => .ok { f' with type := .bin, typeBefore := .bin }
  | 0x09 => .ok { f' with type := .ping }
  | 0x0A => .ok { f' with type := .pong }
  | 0x08 => .error { f with type := .close }
  | _ => .error f

/-- `MOD_WEBSOCKET_FRAME_STATE_READ_LENGTH` on the byte `c`. -/
def recvLength (f : WsFrame) (c : UInt8) : Except WsFrame WsFrame :=
  if c &&& 0x80 ≠ 0x80 then .error f
  else
    let siz := (c &&& 0x7f).toNat
    let ctl := { f.ctl with maskCnt := 0, siz := siz }
    if siz = 0 then .ok { f with state := .readMask, ctl := ctl }
    else if siz = 0x7E then
      .ok { f with state := .readExLength, ctl := { ctl with siz := 0, sizCnt := 2 } }
    else if siz = 0x7F then
      .ok { f with state := .readExLength, ctl := { ctl with siz := 0, sizCnt := 8 } }
    else .ok { f with state := .readMask, ctl := ctl }

/-- `MOD_WEBSOCKET_FRAME_STATE_READ_EX_LENGTH` on the byte `c`. -/
def recvExLength (f : WsFrame) (c : UInt8) : Except WsFrame WsFrame :=
  let siz := (f.ctl.siz <<< 8 % 2 ^ 64 + c.toNat) % 2 ^ 64
  let sizCnt := f.ctl.sizCnt - 1
  let f := { f with ctl := { f.ctl with siz := siz, sizCnt := sizCnt } }
  if sizCnt ≤ 0 then
    if f.type = .ping ∧ siz > MOD_WEBSOCKET_BUFMAX then .error f
    else .ok { f with state := .readMask }
  else .ok f

/-- `MOD_WEBSOCKET_FRAME_STATE_READ_MASK` on the byte `c`: the frame, and whether a pong without
payload is sent. -/
def recvMask (f : WsFrame) (c : UInt8) : WsFrame × Bool :=
  let mask := f.ctl.mask.set f.ctl.maskCnt c f.ctl.maskCnt.isLt
  if f.ctl.maskCnt.val + 1 ≥ 4 then
    let f := { f with ctl := { f.ctl with mask := mask, maskCnt := 0 } }
    ({ f with state := if f.ctl.siz = 0 then .init else .readPayload },
      f.type = .ping ∧ f.ctl.siz = 0)
  else ({ f with ctl := { f.ctl with mask := mask, maskCnt := f.ctl.maskCnt + 1 } }, false)

/-- The part of `MOD_WEBSOCKET_FRAME_STATE_READ_PAYLOAD` that appends to the payload, with the rest
of the chunk in `frame`. -/
def recvPayloadBytes (f : WsFrame) (frame : Bytes) : WsFrame × Bytes :=
  if f.ctl.siz ≤ frame.length then
    ({ f with payload := f.payload ++ frame.take f.ctl.siz, ctl := { f.ctl with siz := 0 },
              state := .init }, frame.drop f.ctl.siz)
  else
    ({ f with payload := f.payload ++ frame,
              ctl := { f.ctl with siz := f.ctl.siz - frame.length } }, [])

/-- The last chunk of a queue has `len` bytes of memory left; how much memory the chunks have is
up to `space`. -/
def hasSpace (space : Chunkqueue → ℕ) (cq : Chunkqueue) (len : ℕ) : Bool :=
  (cq.chunks.getLast?.map fun c => decide (c.type = .mem ∧ len ≤ space cq)).getD false

/-- `chunkqueue_get_memory`, `memcpy` and `chunkqueue_use_memory`. -/
def wbAppend (space : Chunkqueue → ℕ) (wb : Chunkqueue) (s : Bytes) : Option Chunkqueue :=
  chunkqueueUseMemory (chunkqueueGetMemory wb (!hasSpace space wb s.length)) s

/-- What `MOD_WEBSOCKET_FRAME_STATE_READ_PAYLOAD` does with the payload. -/
def recvPayloadUse (conf : HttpChunkConf) (space : Chunkqueue → ℕ) (hctx : WsHandler) :
    Except WsStop WsHandler :=
  let f := hctx.frame
  let reset (f : WsFrame) : WsFrame := { f with payload := [] }
  match f.type with
  | .text | .bin =>
    let f := unmaskPayload f
    match wbAppend space hctx.wb f.payload with
    | some wb => .ok { hctx with frame := reset f, wb := wb }
    | none => .error .aborted
  | .ping =>
    if f.ctl.siz = 0 then
      let f := unmaskPayload f
      .ok { hctx.frameSend conf .pong (some f.payload) with frame := reset f }
    else .ok hctx
  | .pong => .ok { hctx with frame := reset f }
  | .close => .error (.returned hctx)

/-- `recvPayloadUse` leaves the state of the frame. -/
theorem state_recvPayloadUse {conf : HttpChunkConf} {space : Chunkqueue → ℕ}
    {hctx hctx' : WsHandler} (h : recvPayloadUse conf space hctx = .ok hctx') :
    hctx'.frame.state = hctx.frame.state := by
  unfold recvPayloadUse at h
  dsimp only at h
  split at h
  case h_3 =>
    split_ifs at h <;> cases h <;> rfl
  case h_4 =>
    cases h
    rfl
  case h_5 => cases h
  all_goals
    split at h
    · cases h
      rfl
    · cases h

/-- A turn on the payload takes a byte of the chunk, or the frame ends. -/
theorem recvPayloadBytes_lt (f : WsFrame) (c : UInt8) (cs : Bytes) :
    (recvPayloadBytes f (c :: cs)).2.length ≤ cs.length ∨
      (recvPayloadBytes f (c :: cs)).1.state = .init ∧
        (recvPayloadBytes f (c :: cs)).2.length = cs.length + 1 := by
  unfold recvPayloadBytes
  by_cases h : f.ctl.siz ≤ (c :: cs).length
  · rw [if_pos h, List.length_drop, List.length_cons]
    rcases Nat.eq_zero_or_pos f.ctl.siz with h0 | h0
    · exact .inr ⟨rfl, by omega⟩
    · exact .inl (by omega)
  · rw [if_neg h]
    exact .inl (Nat.zero_le _)

/-- What the loop of `recv_rfc_6455` counts down: the bytes left, and the turn that ends a
frame. -/
def recvMeasure (hctx : WsHandler) (frame : Bytes) : ℕ :=
  2 * frame.length + if hctx.frame.state = .readPayload then 1 else 0

theorem recvMeasure_le (hctx : WsHandler) (frame : Bytes) :
    recvMeasure hctx frame ≤ 2 * frame.length + 1 := by
  unfold recvMeasure
  split_ifs <;> omega

/-- The loop of `recv_rfc_6455` over the bytes of a chunk. -/
def recvLoop (conf : HttpChunkConf) (space : Chunkqueue → ℕ) (hctx : WsHandler) (frame : Bytes) :
    Except WsStop WsHandler :=
  match frame with
  | [] => .ok hctx
  | c :: cs =>
    match _hs : hctx.frame.state with
    | .init =>
      match recvInit hctx.frame c with
      | .ok f => recvLoop conf space { hctx with frame := f } cs
      | .error f => .error (.returned { hctx with frame := f })
    | .readLength =>
      match recvLength hctx.frame c with
      | .ok f => recvLoop conf space { hctx with frame := f } cs
      | .error f => .error (.returned { hctx with frame := f })
    | .readExLength =>
      match recvExLength hctx.frame c with
      | .ok f => recvLoop conf space { hctx with frame := f } cs
      | .error f => .error (.returned { hctx with frame := f })
    | .readMask =>
      let r := recvMask hctx.frame c
      let hctx := { hctx with frame := r.1 }
      recvLoop conf space (if r.2 then hctx.frameSend conf .pong none else hctx) cs
    | .readPayload =>
      let r := recvPayloadBytes hctx.frame (c :: cs)
      match _hr : recvPayloadUse conf space { hctx with frame := r.1 } with
      | .ok hctx' => recvLoop conf space hctx' r.2
      | .error e => .error e
  termination_by recvMeasure hctx frame
  decreasing_by
    all_goals try exact Nat.lt_of_le_of_lt (recvMeasure_le _ _) (by
      unfold recvMeasure
      rw [List.length_cons]
      omega)
    rw [recvMeasure, recvMeasure, _hs, if_pos rfl, state_recvPayloadUse _hr, List.length_cons]
    dsimp only
    rcases recvPayloadBytes_lt hctx.frame c cs with h | ⟨hinit, hlen⟩
    · split_ifs <;> omega
    · rw [hinit, hlen, if_neg (by decide)]
      omega

/-- The loop of `recv_rfc_6455` over the chunks. -/
def recvChunks (conf : HttpChunkConf) (space : Chunkqueue → ℕ) (hctx : WsHandler) :
    List Chunk → Except WsStop WsHandler
  | [] => .ok hctx
  | c :: cs =>
    if c.type ≠ .mem then .error .aborted
    else
      match recvLoop conf space hctx c.remaining with
      | .ok hctx => recvChunks conf space hctx cs
      | .error e => .error e

/-- `recv_rfc_6455`; the result is `ok` when it returns 0. -/
def recvRfc6455 (conf : HttpChunkConf) (space : Chunkqueue → ℕ) (hctx : WsHandler) :
    Except WsStop WsHandler :=
  match recvChunks conf space hctx hctx.requestContentQueue.chunks with
  | .ok hctx =>
    match chunkqueueMarkWritten hctx.requestContentQueue
        (chunkqueueLength hctx.requestContentQueue) with
    | some cq => .ok { hctx with requestContentQueue := cq }
    | none => .error .aborted
  | .error e => .error e

/-! ## Byte by byte -/

/-- What an observer sees of the handler: the frame, and what was appended to the queues to the
backend and to the client. -/
structure WsView where
  frame : WsFrame
  data : Bytes
  queued : Bytes
  deriving DecidableEq

/-- The bytes `s` of a payload. -/
def wsPayload (v : WsView) (s : Bytes) : Option WsView :=
  let siz := v.frame.ctl.siz - s.length
  let f := { v.frame with
    ctl := { v.frame.ctl with siz := siz }, state := if siz = 0 then .init else .readPayload }
  match v.frame.type with
  | .text | .bin =>
    let r := unmaskLoop f.ctl.mask f.ctl.maskCnt s
    some { v with
      frame := { f with ctl := { f.ctl with maskCnt := r.2 } }, data := v.data ++ r.1 }
  | .ping =>
    if siz = 0 then
      let r := unmaskLoop f.ctl.mask f.ctl.maskCnt (v.frame.payload ++ s)
      some { v with
        frame := { f with payload := [], ctl := { f.ctl with maskCnt := r.2 } }
        queued := v.queued ++ (wsHeader .pong r.1.length ++ r.1) }
    else some { v with frame := { f with payload := v.frame.payload ++ s } }
  | .pong => some { v with frame := f }
  | .close => none

/-- One byte of the stream, `none` when the frame is refused. -/
def wsByte (v : WsView) (c : UInt8) : Option WsView :=
  match v.frame.state with
  | .init => (recvInit v.frame c).toOption.map fun f => { v with frame := f }
  | .readLength => (recvLength v.frame c).toOption.map fun f => { v with frame := f }
  | .readExLength => (recvExLength v.frame c).toOption.map fun f => { v with frame := f }
  | .readMask =>
    let r := recvMask v.frame c
    some { v with
      frame := r.1, queued := if r.2 then v.queued ++ wsHeader .pong 0 else v.queued }
  | .readPayload => wsPayload v [c]

/-- Between two turns: a payload that is read has bytes to come, and only that of a ping is
kept. -/
structure WsFrame.Valid (f : WsFrame) : Prop where
  siz : f.state = .readPayload → 0 < f.ctl.siz
  payload : f.payload ≠ [] → f.state = .readPayload ∧ f.type = .ping

variable {f f' : WsFrame} {c : UInt8} {v v' : WsView} {s : Bytes}

theorem WsFrame.Valid.payload_eq_nil (h : f.Valid) (hf : f.state ≠ .readPayload ∨
    f.type ≠ .ping) : f.payload = [] := by
  by_contra hne
  obtain ⟨h1, h2⟩ := h.payload hne
  rcases hf with hf | hf
  · exact hf h1
  · exact hf h2

theorem eq_ok_of_toOption {ε α : Type} {x : Except ε α} {a : α} (h : x.toOption = some a) :
    x = .ok a := by
  cases x with
  | ok b => exact congrArg _ (Option.some.inj h)
  | error e => cases h

theorem valid_recvInit (hp : f.payload = []) (h : recvInit f c = .ok f') : f'.Valid := by
  unfold recvInit at h
  dsimp only at h
  split at h <;> cases h <;> exact ⟨fun hs => (nomatch hs), fun hne => absurd hp hne⟩

theorem valid_recvLength (hp : f.payload = []) (h : recvLength f c = .ok f') : f'.Valid := by
  unfold recvLength at h
  dsimp only at h
  split_ifs at h <;> cases h <;> exact ⟨fun hs => (nomatch hs), fun hne => absurd hp hne⟩

theorem valid_recvExLength (hp : f.payload = []) (hs : f.state = .readExLength)
    (h : recvExLength f c = .ok f') : f'.Valid := by
  unfold recvExLength at h
  dsimp only at h
  split_ifs at h <;> cases h
  · exact ⟨fun hs => (nomatch hs), fun hne => absurd hp hne⟩
  · exact ⟨fun hs' => by simp [hs] at hs', fun hne => absurd hp hne⟩

theorem valid_recvMask (c : UInt8) (hp : f.payload = []) (hs : f.state = .readMask) :
    (recvMask f c).1.Valid := by
  unfold recvMask
  dsimp only
  split_ifs with h h0
  · exact ⟨fun hs => (nomatch hs), fun hne => absurd hp hne⟩
  · exact ⟨fun _ => Nat.pos_of_ne_zero h0, fun hne => absurd hp hne⟩
  · exact ⟨fun hs' => by simp [hs] at hs', fun hne => absurd hp hne⟩

theorem valid_wsPayload (hv : v.frame.Valid) (h : wsPayload v s = some v') : v'.frame.Valid := by
  have hstate : ∀ siz : ℕ, (if siz = 0 then WsFrameState.init else .readPayload) = .readPayload →
      0 < siz := by
    intro siz hs
    by_contra h0
    rw [if_pos (by omega)] at hs
    cases hs
  unfold wsPayload at h
  dsimp only at h
  split at h
  case h_3 ht =>
    split_ifs at h with h0
    · cases h
      exact ⟨fun hs => (nomatch hs), fun hne => absurd rfl hne⟩
    · cases h
      exact ⟨fun _ => Nat.pos_of_ne_zero h0, fun _ => ⟨rfl, ht⟩⟩
  case h_5 => cases h
  all_goals
    next ht =>
      cases h
      exact ⟨hstate _, fun hne => absurd (hv.payload_eq_nil (.inr (by rw [ht]; decide))) hne⟩

theorem valid_wsByte (hv : v.frame.Valid) (h : wsByte v c = some v') : v'.frame.Valid := by
  have hnil : v.frame.state ≠ .readPayload → v.frame.payload = [] :=
    fun hs => hv.payload_eq_nil (.inl hs)
  unfold wsByte at h
  split at h
  case h_4 hs =>
    cases h
    exact valid_recvMask c (hnil (by rw [hs]; decide)) hs
  case h_5 => exact valid_wsPayload hv h
  all_goals
    next hs =>
      obtain ⟨f, hf, rfl⟩ := Option.map_eq_some_iff.mp h
      replace hf := eq_ok_of_toOption hf
      first
        | exact valid_recvInit (hnil (by rw [hs]; decide)) hf
        | exact valid_recvLength (hnil (by rw [hs]; decide)) hf
        | exact valid_recvExLength (hnil (by rw [hs]; decide)) hs hf

theorem unmaskLoop_append (mask : Key) : ∀ (i : Fin 4) (s t : Bytes),
    unmaskLoop mask i (s ++ t) =
      ((unmaskLoop mask i s).1 ++ (unmaskLoop mask (unmaskLoop mask i s).2 t).1,
        (unmaskLoop mask (unmaskLoop mask i s).2 t).2)
  | _, [], _ => rfl
  | i, c :: cs, t => by
    rw [List.cons_append, unmaskLoop, unmaskLoop_append mask (i + 1) cs t]
    rfl

/-- `unmask_payload` takes the mask off. -/
theorem unmaskLoop_fst (key : Key) : ∀ (i : Fin 4) (s : Bytes), (unmaskLoop key i s).1 = mask key i s
  | _, [] => rfl
  | i, _ :: cs => congrArg _ (unmaskLoop_fst key (i + 1) cs)

theorem wsPayload_append {t : Bytes} (hst : s.length < v.frame.ctl.siz)
    (h : wsPayload v s = some v') : v'.frame.state = .readPayload ∧
      v'.frame.ctl.siz = v.frame.ctl.siz - s.length ∧ wsPayload v' t = wsPayload v (s ++ t) := by
  have hne : ¬ v.frame.ctl.siz - s.length = 0 := by omega
  have hsub : v.frame.ctl.siz - (s ++ t).length = v.frame.ctl.siz - s.length - t.length := by
    rw [List.length_append]
    omega
  unfold wsPayload at h
  dsimp only at h
  rw [if_neg hne] at h
  cases ht : v.frame.type with
  | text | bin =>
    rw [ht] at h
    cases h
    refine ⟨rfl, rfl, ?_⟩
    simp only [wsPayload, ht, hsub, unmaskLoop_append, List.append_assoc]
  | ping =>
    rw [ht] at h
    dsimp only at h
    rw [if_neg hne] at h
    cases h
    refine ⟨rfl, rfl, ?_⟩
    simp only [wsPayload, ht, hsub, List.append_assoc]
  | pong =>
    rw [ht] at h
    cases h
    refine ⟨rfl, rfl, ?_⟩
    simp only [wsPayload, ht, hsub]
  | close =>
    rw [ht] at h
    cases h

theorem foldlM_wsPayload : ∀ (s : Bytes) (v : WsView), s ≠ [] → v.frame.state = .readPayload →
    s.length ≤ v.frame.ctl.siz → s.foldlM wsByte v = wsPayload v s
  | [], _, hne, _, _ => absurd rfl hne
  | c :: cs, v, _, hs, hle => by
    have hc : wsByte v c = wsPayload v [c] := by rw [wsByte, hs]
    rw [List.foldlM_cons, hc]
    rw [List.length_cons] at hle
    rcases List.eq_nil_or_concat cs with rfl | ⟨_, _, hcs⟩
    · cases wsPayload v [c] <;> rfl
    · have hne : cs ≠ [] := by simp [hcs]
      have hpos := List.length_pos_of_ne_nil hne
      cases h : wsPayload v [c] with
      | some v' =>
        obtain ⟨hs', hsiz, happ⟩ := wsPayload_append (t := cs)
          (show [c].length < v.frame.ctl.siz by rw [List.length_singleton]; omega) h
        rw [List.length_singleton] at hsiz
        exact (foldlM_wsPayload cs v' hne hs' (by omega)).trans happ
      | none =>
        have htype : v.frame.type = .close := by
          cases ht : v.frame.type with
          | close => rfl
          | text | bin | ping | pong =>
            exfalso
            unfold wsPayload at h
            rw [ht] at h
            dsimp only at h
            try split_ifs at h
        unfold wsPayload
        rw [htype]
        rfl

/-! ## The handler and what is seen of it -/

/-- `chunkqueue_get_memory` finds memory for the bytes. -/
theorem appended_useMemory (space : Chunkqueue → ℕ) (wb : Chunkqueue) (len : ℕ) (s : Bytes) :
    ∃ wb', chunkqueueUseMemory (chunkqueueGetMemory wb (!hasSpace space wb len)) s = some wb' ∧
      Appended wb wb' s := by
  have hlast : ∃ c, (chunkqueueGetMemory wb (!hasSpace space wb len)).chunks.getLast? = some c ∧
      c.type = .mem := by
    cases h : hasSpace space wb len with
    | true =>
      unfold hasSpace at h
      cases hl : wb.chunks.getLast? with
      | some c =>
        rw [hl] at h
        exact ⟨c, hl, (of_decide_eq_true h).1⟩
      | none =>
        rw [hl] at h
        cases h
    | false => exact ⟨.ofMem [], by simp [chunkqueueGetMemory, chunkqueueAppendChunk], rfl⟩
  obtain ⟨c, hc, htype⟩ := hlast
  have hin : (chunkqueueGetMemory wb (!hasSpace space wb len)).bytesIn = wb.bytesIn := by
    cases hasSpace space wb len <;> rfl
  have hbytes := bytes_getMemory wb (!hasSpace space wb len)
  generalize chunkqueueGetMemory wb (!hasSpace space wb len) = cq at hc hin hbytes ⊢
  cases h : chunkqueueUseMemory cq s with
  | some wb' =>
    refine ⟨wb', rfl, (bytes_useMemory h).trans (by rw [hbytes]), ?_⟩
    unfold chunkqueueUseMemory at h
    split at h
    · split_ifs at h
      cases h
      exact congrArg (· + s.length) hin
    · cases h
  | none =>
    unfold chunkqueueUseMemory at h
    split at h
    · next c' hc' =>
      have : c' = c := Option.some.inj (hc'.symm.trans hc)
      rw [if_pos (this ▸ htype)] at h
      cases h
    · next hnone =>
      rw [hnone] at hc
      cases hc

theorem appended_wbAppend (space : Chunkqueue → ℕ) (wb : Chunkqueue) (s : Bytes) :
    ∃ wb', wbAppend space wb s = some wb' ∧ Appended wb wb' s :=
  appended_useMemory space wb s.length s

/-- The handler `hctx`, where it began as `start`, looks like `v`, and tempfiles can be written. -/
structure Looks (start hctx : WsHandler) (v : WsView) : Prop where
  frame : hctx.frame = v.frame
  wb : Appended start.wb hctx.wb v.data
  writeQueue : Appended start.writeQueue hctx.writeQueue v.queued
  requestContentQueue : hctx.requestContentQueue = start.requestContentQueue
  io : hctx.io = .success
  tempdirLeft : TempdirLeft hctx.writeQueue

section

variable {conf : HttpChunkConf} {space : Chunkqueue → ℕ} {start hctx : WsHandler} {v v' : WsView}

theorem Looks.frameSend (hconf : conf.chunked = false) (h : Looks start hctx v)
    (payload : Option Bytes) : Looks start (hctx.frameSend conf .pong payload)
      { v with queued := v.queued ++ (wsHeader .pong (payload.getD []).length ++
        payload.getD []) } := by
  have hheader := stored_httpChunkAppendMem hconf h.tempdirLeft
    (wsHeader .pong (payload.getD []).length)
  have hpayload := stored_httpChunkAppendMem hconf (hheader.tempdirLeft h.tempdirLeft)
    (payload.getD [])
  have hsend : Stored hctx.writeQueue
      (sendRfc6455 conf hctx.writeQueue .success .pong payload)
      (wsHeader .pong (payload.getD []).length ++ payload.getD []) := by
    unfold sendRfc6455
    rw [if_neg fun hn => absurd hn.2 (by decide)]
    dsimp only
    split_ifs with hlen
    · rw [hheader.io]
      have hboth := hheader.trans hpayload
      exact ⟨rfl, hboth.io, hboth.appended, hboth.tempdirs, hboth.tempdirIdx⟩
    · rw [List.length_eq_zero_iff.mp (not_not.mp hlen), List.append_nil]
      rw [List.length_eq_zero_iff.mp (not_not.mp hlen)] at hheader
      exact ⟨rfl, hheader.io, hheader.appended, hheader.tempdirs, hheader.tempdirIdx⟩
  unfold WsHandler.frameSend
  rw [h.io]
  exact ⟨h.frame, h.wb, h.writeQueue.trans hsend.appended, h.requestContentQueue, hsend.io,
    hsend.tempdirLeft h.tempdirLeft⟩

theorem Looks.setFrame (h : Looks start hctx v) (f : WsFrame) :
    Looks start { hctx with frame := f } { v with frame := f } :=
  ⟨rfl, h.wb, h.writeQueue, h.requestContentQueue, h.io, h.tempdirLeft⟩

variable (space) in
/-- A turn on the payload reads the bytes that are there, up to the end of the payload. -/
theorem Looks.recvPayload (hconf : conf.chunked = false) (h : Looks start hctx v)
    (hv : v.frame.Valid) (hs : v.frame.state = .readPayload) (frame : Bytes)
    (hstep : wsPayload v (frame.take v.frame.ctl.siz) = some v') :
    (recvPayloadBytes hctx.frame frame).2 = frame.drop v.frame.ctl.siz ∧
      ∃ hctx', recvPayloadUse conf space
        { hctx with frame := (recvPayloadBytes hctx.frame frame).1 } = .ok hctx' ∧
        Looks start hctx' v' := by
  have hbytes : recvPayloadBytes v.frame frame =
      ({ v.frame with
          payload := v.frame.payload ++ frame.take v.frame.ctl.siz
          ctl := { v.frame.ctl with siz := v.frame.ctl.siz - (frame.take v.frame.ctl.siz).length }
          state := if v.frame.ctl.siz - (frame.take v.frame.ctl.siz).length = 0 then .init
            else .readPayload }, frame.drop v.frame.ctl.siz) := by
    unfold recvPayloadBytes
    by_cases hle : v.frame.ctl.siz ≤ frame.length
    · rw [if_pos hle, List.length_take, Nat.min_eq_left hle, Nat.sub_self]
      rfl
    · rw [if_neg hle, List.take_of_length_le (by omega), List.drop_of_length_le (by omega),
        if_neg (by omega), hs]
  rw [h.frame, hbytes]
  refine ⟨rfl, ?_⟩
  unfold wsPayload at hstep
  dsimp only at hstep ⊢
  generalize v.frame.ctl.siz - (frame.take v.frame.ctl.siz).length = siz at hstep ⊢
  generalize frame.take v.frame.ctl.siz = s at hstep ⊢
  have hnil : v.frame.type ≠ .ping → v.frame.payload = [] := fun ht => hv.payload_eq_nil (.inr ht)
  cases ht : v.frame.type with
  | text | bin =>
    rw [ht] at hstep
    cases hstep
    obtain ⟨wb, hwb, happ⟩ := appended_wbAppend space hctx.wb
      (unmaskLoop v.frame.ctl.mask v.frame.ctl.maskCnt s).1
    simp only [recvPayloadUse, unmaskPayload, hnil (by rw [ht]; decide), List.nil_append, hwb]
    exact ⟨_, rfl, rfl, h.wb.trans happ, h.writeQueue, h.requestContentQueue, h.io, h.tempdirLeft⟩
  | ping =>
    rw [ht] at hstep
    dsimp only at hstep
    simp only [recvPayloadUse, unmaskPayload]
    by_cases h0 : siz = 0
    · rw [if_pos h0] at hstep
      cases hstep
      rw [if_pos h0]
      refine ⟨_, rfl, ?_⟩
      have hsend := (h.setFrame v.frame).frameSend hconf
        (some (unmaskLoop v.frame.ctl.mask v.frame.ctl.maskCnt (v.frame.payload ++ s)).1)
      exact ⟨rfl, hsend.wb, hsend.writeQueue, hsend.requestContentQueue, hsend.io,
        hsend.tempdirLeft⟩
    · rw [if_neg h0] at hstep
      cases hstep
      rw [if_neg h0]
      refine ⟨_, rfl, ?_, h.wb, h.writeQueue, h.requestContentQueue, h.io, h.tempdirLeft⟩
      rw [if_neg h0]
  | pong =>
    rw [ht] at hstep
    cases hstep
    simp only [recvPayloadUse]
    refine ⟨_, rfl, ?_, h.wb, h.writeQueue, h.requestContentQueue, h.io, h.tempdirLeft⟩
    rw [← hnil (by rw [ht]; decide)]
  | close =>
    rw [ht] at hstep
    cases hstep

variable (space) in
/-- The loop over a chunk reads its bytes one by one, as far as can be seen. -/
theorem Looks.recvLoop (hconf : conf.chunked = false) :
    ∀ (n : ℕ) {hctx : WsHandler} {v v' : WsView} (frame : Bytes), frame.length ≤ n →
      Looks start hctx v → v.frame.Valid → frame.foldlM wsByte v = some v' →
      v'.frame.Valid ∧ ∃ hctx', Lighttpd.recvLoop conf space hctx frame = .ok hctx' ∧
        Looks start hctx' v'
  | _, hctx, v, v', [], _, h, hv, hfold => by
    cases hfold
    rw [Lighttpd.recvLoop]
    exact ⟨hv, hctx, rfl, h⟩
  | 0, _, _, _, _ :: _, hn, _, _, _ => absurd hn (by simp)
  | n + 1, hctx, v, v', c :: cs, hn, h, hv, hfold => by
    have hn' : cs.length ≤ n := Nat.le_of_succ_le_succ hn
    have hsplit := hfold
    rw [List.foldlM_cons] at hsplit
    obtain ⟨v₁, hbyte, hrest⟩ := Option.bind_eq_some_iff.mp hsplit
    have hv₁ := valid_wsByte hv hbyte
    have hheader : ∀ r : Except WsFrame WsFrame,
        wsByte v c = r.toOption.map (fun f => { v with frame := f }) → ∃ f, r = .ok f ∧
          ∃ hctx', Lighttpd.recvLoop conf space { hctx with frame := f } cs = .ok hctx' ∧
            v'.frame.Valid ∧ Looks start hctx' v' := by
      intro r hr
      obtain ⟨f, hf, rfl⟩ := Option.map_eq_some_iff.mp (hr.symm.trans hbyte)
      obtain ⟨hv', hctx', hloop, hlooks⟩ := Looks.recvLoop hconf n cs hn' (h.setFrame f) hv₁ hrest
      exact ⟨f, eq_ok_of_toOption hf, hctx', hloop, hv', hlooks⟩
    have hframe := h.frame
    rw [Lighttpd.recvLoop]
    split
    · next hs =>
      rw [hframe] at hs ⊢
      obtain ⟨f, hf, hctx', hloop, hv', hlooks⟩ := hheader (recvInit v.frame c) (by rw [wsByte, hs])
      rw [hf]
      exact ⟨hv', hctx', hloop, hlooks⟩
    · next hs =>
      rw [hframe] at hs ⊢
      obtain ⟨f, hf, hctx', hloop, hv', hlooks⟩ := hheader (recvLength v.frame c) (by rw [wsByte, hs])
      rw [hf]
      exact ⟨hv', hctx', hloop, hlooks⟩
    · next hs =>
      rw [hframe] at hs ⊢
      obtain ⟨f, hf, hctx', hloop, hv', hlooks⟩ :=
        hheader (recvExLength v.frame c) (by rw [wsByte, hs])
      rw [hf]
      exact ⟨hv', hctx', hloop, hlooks⟩
    · next hs =>
      rw [hframe] at hs ⊢
      rw [wsByte, hs] at hbyte
      cases hbyte
      have hmask : Looks start
          (if (recvMask v.frame c).2 then
            { hctx with frame := (recvMask v.frame c).1 }.frameSend conf .pong none
          else { hctx with frame := (recvMask v.frame c).1 })
          { v with
            frame := (recvMask v.frame c).1
            queued := if (recvMask v.frame c).2 then v.queued ++ wsHeader .pong 0
              else v.queued } := by
        split_ifs
        · have hsend := (h.setFrame (recvMask v.frame c).1).frameSend hconf none
          rwa [show wsHeader .pong ((none : Option Bytes).getD []).length ++
            (none : Option Bytes).getD [] = wsHeader .pong 0 from rfl] at hsend
        · exact h.setFrame _
      exact Looks.recvLoop hconf n cs hn' hmask hv₁ hrest
    · next hs =>
      rw [hframe] at hs
      have hpos := hv.siz hs
      have htake : (c :: cs).take v.frame.ctl.siz ≠ [] := by
        simp [Nat.pos_iff_ne_zero.mp hpos]
      have hlen : ((c :: cs).take v.frame.ctl.siz).length ≤ v.frame.ctl.siz := by simp
      rw [← List.take_append_drop v.frame.ctl.siz (c :: cs), List.foldlM_append,
        foldlM_wsPayload _ v htake hs hlen] at hfold
      obtain ⟨v₂, hpayload, hrest⟩ := Option.bind_eq_some_iff.mp hfold
      obtain ⟨hdrop, hctx₂, huse, hlooks⟩ := h.recvPayload space hconf hv hs (c :: cs) hpayload
      dsimp only
      split
      · next hctx' hr =>
        obtain rfl : hctx₂ = hctx' := Except.ok.inj (huse.symm.trans hr)
        rw [hdrop]
        refine Looks.recvLoop hconf n _ ?_ hlooks (valid_wsPayload hv hpayload) hrest
        rw [List.length_drop, List.length_cons]
        omega
      · next e hr =>
        rw [huse] at hr
        cases hr

variable (space) in
theorem Looks.recvChunks (hconf : conf.chunked = false) :
    ∀ {hctx : WsHandler} {v v' : WsView} (cs : List Chunk), (∀ c ∈ cs, c.type = .mem) →
      Looks start hctx v → v.frame.Valid → (content cs).foldlM wsByte v = some v' →
      v'.frame.Valid ∧ ∃ hctx', Lighttpd.recvChunks conf space hctx cs = .ok hctx' ∧
        Looks start hctx' v'
  | hctx, v, v', [], _, h, hv, hfold => by
    cases hfold
    exact ⟨hv, hctx, rfl, h⟩
  | hctx, v, v', c :: cs, hmem, h, hv, hfold => by
    rw [content_cons, List.foldlM_append] at hfold
    obtain ⟨v₁, hc, hcs⟩ := Option.bind_eq_some_iff.mp hfold
    obtain ⟨hv₁, hctx₁, hloop, hlooks⟩ := h.recvLoop space hconf _ c.remaining le_rfl hv hc
    have hrest := Looks.recvChunks hconf cs (fun d hd => hmem d (List.mem_cons_of_mem c hd)) hlooks
      hv₁ hcs
    rwa [Lighttpd.recvChunks, if_neg (not_not.mpr (hmem c List.mem_cons_self)), hloop]

theorem markWrittenLoop_content : ∀ cs : List Chunk,
    markWrittenLoop (content cs).length cs = some []
  | [] => rfl
  | c :: cs => by
    rw [markWrittenLoop, content_cons, List.length_append, Chunk.length_remaining,
      if_neg (by omega), dif_pos (by omega), Nat.add_sub_cancel_left, markWrittenLoop_content cs]

/-- `chunkqueue_mark_written` of all that is in a queue empties it. -/
theorem markWritten_length (cq : Chunkqueue) : ∃ cq', chunkqueueMarkWritten cq (chunkqueueLength cq) =
    some cq' ∧ cq'.chunks = [] := by
  obtain ⟨cq', hcq'⟩ := Option.isSome_iff_exists.mp ((markWritten_isSome_iff cq
    (chunkqueueLength cq)).mpr ⟨Int.natCast_nonneg _, le_rfl⟩)
  refine ⟨cq', hcq', ?_⟩
  have hloop := (markWritten_eq_some hcq').2.2.2.2
  rw [chunkqueueLength_eq, Int.toNat_natCast, Chunkqueue.bytes, markWrittenLoop_content] at hloop
  exact (Option.some.inj hloop).symm

variable (space) in
/-- A call on chunks in memory that hold no frame that is refused returns 0, and empties the
`request_content_queue`. -/
theorem recvRfc6455_of_foldlM (hconf : conf.chunked = false) {v' : WsView}
    (hmem : ∀ c ∈ start.requestContentQueue.chunks, c.type = .mem) (hio : start.io = .success)
    (htemp : TempdirLeft start.writeQueue) (hv : start.frame.Valid)
    (hfold : start.requestContentQueue.bytes.foldlM wsByte ⟨start.frame, [], []⟩ = some v') :
    v'.frame.Valid ∧ ∃ hctx', recvRfc6455 conf space start = .ok hctx' ∧ hctx'.frame = v'.frame ∧
      Appended start.wb hctx'.wb v'.data ∧ Appended start.writeQueue hctx'.writeQueue v'.queued ∧
      hctx'.requestContentQueue.chunks = [] := by
  have hstart : Looks start start ⟨start.frame, [], []⟩ :=
    ⟨rfl, .refl _, .refl _, rfl, hio, htemp⟩
  obtain ⟨hv', hctx', hchunks, hlooks⟩ :=
    hstart.recvChunks space hconf start.requestContentQueue.chunks hmem hv hfold
  obtain ⟨cq', hmark, hnil⟩ := markWritten_length hctx'.requestContentQueue
  refine ⟨hv', { hctx' with requestContentQueue := cq' }, ?_, hlooks.frame, hlooks.wb,
    hlooks.writeQueue, hnil⟩
  rw [recvRfc6455, hchunks]
  dsimp only
  rw [hmark]

end

/-! ## Frames -/

/-- A frame of a client that is not a close frame. -/
structure ClientFrame extends Frame where
  key : Key
  not_close : opcode ≠ .close
  ping_le : opcode = .ping → payload.length ≤ MOD_WEBSOCKET_BUFMAX

/-- The bytes of the frame. -/
def ClientFrame.wire (f : ClientFrame) : Bytes := f.encodeMasked f.key

/-- What the backend is to get of the frame. -/
def ClientFrame.data (f : ClientFrame) : Bytes :=
  match f.opcode with
  | .cont | .text | .bin => f.payload
  | _ => []

/-- The pong frame with a payload. -/
def pongFrame (payload : Bytes) (h : payload.length < 2 ^ 63) : Frame where
  flags := 8
  opcode := .pong
  encoding := .shortest payload.length
  payload := payload
  fits := by
    unfold LengthEncoding.shortest
    split_ifs <;> assumption

/-- What the client is to get for the frame. -/
def ClientFrame.answer (f : ClientFrame) : Bytes :=
  match f.opcode with
  | .ping => (pongFrame f.payload (Nat.lt_of_lt_of_le f.fits f.encoding.bound_le)).encode
  | _ => []

/-- `send_rfc_6455` encodes a pong frame. -/
theorem wsHeader_pong {payload : Bytes} (h : payload.length < 2 ^ 63)
    (hle : payload.length ≤ MOD_WEBSOCKET_BUFMAX) :
    wsHeader .pong payload.length ++ payload = (pongFrame payload h).encode := by
  have hbyte : ∀ shift, UInt8.ofNat (payload.length >>> shift &&& 0xff) =
      UInt8.ofNat (payload.length / 2 ^ shift) := by
    intro shift
    rw [Nat.shiftRight_eq_div_pow, show 0xff = 2 ^ 8 - 1 from rfl, Nat.and_two_pow_sub_one_eq_mod]
    exact UInt8.toNat_inj.mp (by simp)
  have hzero : ∀ k, 2 ^ 32 ≤ k → UInt8.ofNat (payload.length / k) = 0 := by
    intro k hk
    rw [Nat.div_eq_of_lt (by unfold MOD_WEBSOCKET_BUFMAX at hle; omega)]
    rfl
  have hhead : (pongFrame payload h).head = wsFirstByte .pong := by
    change UInt8.ofNat ((8 : Fin 16).val * 16 + 0xA) = 0x80 ||| 0x0A
    decide
  rw [Frame.encode, hhead]
  unfold wsHeader Frame.second pongFrame LengthEncoding.shortest
  dsimp only
  simp only [hbyte]
  by_cases h7 : payload.length < 126
  · rw [if_pos h7, if_pos h7]
    simp [LengthEncoding.field, LengthEncoding.extended]
  · rw [if_neg h7, if_neg h7]
    by_cases h16 : payload.length < 2 ^ 16
    · rw [if_pos (Nat.le_of_lt_succ h16), if_pos h16]
      simp [LengthEncoding.field, LengthEncoding.extended, bigEndian]
    · rw [if_neg (fun hle => h16 (Nat.lt_succ_of_le hle)), if_neg h16]
      simp [LengthEncoding.field, LengthEncoding.extended, bigEndian, hzero]

/-- A type of frame with payload for the backend. -/
def WsFrameType.IsData (t : WsFrameType) : Prop := t = .text ∨ t = .bin

/-- The type of a frame with the opcode `o`. -/
def TypeFits (o : Opcode) (t : WsFrameType) : Prop :=
  match o with
  | .cont | .text | .bin => t.IsData
  | .ping => t = .ping
  | .pong => t = .pong
  | .close => False

/-- In front of a frame. -/
structure WsFrame.AtStart (f : WsFrame) : Prop where
  state : f.state = .init
  payload : f.payload = []
  typeBefore : f.typeBefore.IsData

/-- In the header of the frame `cf`. -/
structure InHeader (cf : ClientFrame) (state : WsFrameState) (f : WsFrame) : Prop where
  state : f.state = state
  payload : f.payload = []
  typeBefore : f.typeBefore.IsData
  type : TypeFits cf.opcode f.type

theorem TypeFits.ping {o : Opcode} {t : WsFrameType} (h : TypeFits o t) : t = .ping ↔ o = .ping := by
  cases o with
  | cont | text | bin => rcases h with rfl | rfl <;> decide
  | ping => exact ⟨fun _ => rfl, fun _ => h⟩
  | pong =>
    obtain rfl : t = .pong := h
    decide
  | close => exact absurd h id

section

variable {v : WsView} (cf : ClientFrame)

theorem wsByte_head (h : v.frame.AtStart) :
    ∃ g, wsByte v cf.head = some { v with frame := g } ∧ InHeader cf .readLength g := by
  have hcode := cf.toNat_head_and
  have hclose := cf.not_close
  unfold wsByte recvInit
  rw [h.state, hcode]
  cases ho : cf.opcode with
  | cont => exact ⟨_, rfl, rfl, h.payload, h.typeBefore, by rw [ho]; exact h.typeBefore⟩
  | text => exact ⟨_, rfl, rfl, h.payload, .inl rfl, by rw [ho]; exact .inl rfl⟩
  | bin => exact ⟨_, rfl, rfl, h.payload, .inr rfl, by rw [ho]; exact .inr rfl⟩
  | ping => exact ⟨_, rfl, rfl, h.payload, h.typeBefore, by rw [ho]; rfl⟩
  | pong => exact ⟨_, rfl, rfl, h.payload, h.typeBefore, by rw [ho]; rfl⟩
  | close => exact absurd ho hclose

theorem le_foldl_length : ∀ (s : Bytes) (m : ℕ), m ≤ s.foldl (fun m c => m * 256 + c.toNat) m
  | [], _ => le_rfl
  | c :: cs, m => by
    have := le_foldl_length cs (m * 256 + c.toNat)
    rw [List.foldl_cons]
    omega

theorem foldlM_recvExLength : ∀ (s : Bytes) {v : WsView}, InHeader cf .readExLength v.frame →
    s ≠ [] → v.frame.ctl.sizCnt = s.length → v.frame.ctl.maskCnt = 0 →
    s.foldl (fun m c => m * 256 + c.toNat) v.frame.ctl.siz = cf.payload.length →
    ∃ g, s.foldlM wsByte v = some { v with frame := g } ∧ InHeader cf .readMask g ∧
      g.ctl.siz = cf.payload.length ∧ g.ctl.maskCnt = 0
  | [], _, _, hne, _, _, _ => absurd rfl hne
  | c :: cs, v, h, _, hcnt, hmask, hsiz => by
    rw [List.foldl_cons] at hsiz
    have hle := le_foldl_length cs (v.frame.ctl.siz * 256 + c.toNat)
    have hbound := Nat.lt_of_lt_of_le cf.fits cf.encoding.bound_le
    have hval : (v.frame.ctl.siz <<< 8 % 2 ^ 64 + c.toNat) % 2 ^ 64 =
        v.frame.ctl.siz * 256 + c.toNat := by
      rw [Nat.shiftLeft_eq, Nat.mod_eq_of_lt (a := v.frame.ctl.siz * 2 ^ 8) (by omega),
        Nat.mod_eq_of_lt (by omega)]
    have hex : ∀ r, recvExLength v.frame c = .ok r → wsByte v c = some { v with frame := r } := by
      intro r hr
      rw [wsByte, h.state]
      dsimp only
      rw [hr]
      rfl
    unfold recvExLength at hex
    dsimp only at hex
    rw [hval, hcnt] at hex
    rw [List.foldlM_cons]
    rcases List.eq_nil_or_concat cs with rfl | ⟨_, _, hcs⟩
    · rw [List.foldl_nil] at hsiz
      have hping : ¬ (v.frame.type = .ping ∧
          v.frame.ctl.siz * 256 + c.toNat > MOD_WEBSOCKET_BUFMAX) := by
        rintro ⟨ht, hgt⟩
        have := cf.ping_le (h.type.ping.mp ht)
        omega
      rw [if_pos (by simp), if_neg hping] at hex
      rw [hex _ rfl]
      exact ⟨_, rfl, ⟨rfl, h.payload, h.typeBefore, h.type⟩, hsiz, hmask⟩
    · have hne : cs ≠ [] := by simp [hcs]
      have hpos := List.length_pos_of_ne_nil hne
      rw [if_neg (by rw [List.length_cons]; omega)] at hex
      rw [hex _ rfl]
      exact foldlM_recvExLength cs
        (v := { v with frame := { v.frame with ctl := { v.frame.ctl with
          siz := v.frame.ctl.siz * 256 + c.toNat
          sizCnt := ((c :: cs).length : ℤ) - 1 } } })
        ⟨h.state, h.payload, h.typeBefore, h.type⟩ hne (by simp) hmask hsiz

/-- What the second byte of a masked frame leaves to be read of the length. -/
theorem recvLength_ok (f : WsFrame) (hbit : c &&& 0x80 = 0x80) :
    ∃ g, recvLength f c = .ok g ∧ g.payload = f.payload ∧ g.type = f.type ∧
      g.typeBefore = f.typeBefore ∧ g.ctl.maskCnt = 0 ∧
      ((c &&& 0x7f).toNat < 126 → g.state = .readMask ∧ g.ctl.siz = (c &&& 0x7f).toNat) ∧
      ((c &&& 0x7f).toNat = 126 → g.state = .readExLength ∧ g.ctl.siz = 0 ∧ g.ctl.sizCnt = 2) ∧
      ((c &&& 0x7f).toNat = 127 → g.state = .readExLength ∧ g.ctl.siz = 0 ∧ g.ctl.sizCnt = 8) := by
  unfold recvLength
  rw [if_neg (not_not.mpr hbit)]
  dsimp only
  generalize (c &&& 0x7f).toNat = n
  by_cases h126 : n = 126
  · rw [if_neg (by omega), if_pos h126]
    exact ⟨_, rfl, rfl, rfl, rfl, rfl, fun h => by omega, fun _ => ⟨rfl, rfl, rfl⟩,
      fun h => by omega⟩
  · by_cases h127 : n = 127
    · rw [if_neg (by omega), if_neg h126, if_pos h127]
      exact ⟨_, rfl, rfl, rfl, rfl, rfl, fun h => by omega, fun h => by omega,
        fun _ => ⟨rfl, rfl, rfl⟩⟩
    · rw [if_neg h126, if_neg h127, ite_self]
      exact ⟨_, rfl, rfl, rfl, rfl, rfl, fun _ => ⟨rfl, rfl⟩, fun h => by omega, fun h => by omega⟩

theorem foldlM_length (h : InHeader cf .readLength v.frame) :
    ∃ g, (cf.second true :: cf.encoding.extended cf.payload.length).foldlM wsByte v =
        some { v with frame := g } ∧ InHeader cf .readMask g ∧
      g.ctl.siz = cf.payload.length ∧ g.ctl.maskCnt = 0 := by
  obtain ⟨hbit, hfield⟩ := cf.second_masked
  obtain ⟨g, hg, hpayload, htype, hbefore, hmask, h7, h16, h63⟩ := recvLength_ok v.frame hbit
  have hstep : wsByte v (cf.second true) = some { v with frame := g } := by
    rw [wsByte, h.state]
    dsimp only
    rw [hg]
    rfl
  have hin : ∀ state, g.state = state → InHeader cf state g := fun state hstate =>
    ⟨hstate, hpayload.trans h.payload, by rw [hbefore]; exact h.typeBefore,
      by rw [htype]; exact h.type⟩
  have hextended := LengthEncoding.foldl_extended (e := cf.encoding) (n := cf.payload.length)
  have hfits := cf.fits
  rw [hfield] at h7 h16 h63
  rw [List.foldlM_cons, hstep]
  cases he : cf.encoding with
  | len7 =>
    rw [he] at hfits h7
    obtain ⟨hstate, hsiz⟩ := h7 hfits
    exact ⟨g, rfl, hin _ hstate, hsiz, hmask⟩
  | len16 =>
    rw [he] at hfits h16 hextended
    obtain ⟨hstate, hsiz, hcnt⟩ := h16 rfl
    refine foldlM_recvExLength cf _ (v := { v with frame := g }) (hin _ hstate)
      (by simp [LengthEncoding.extended, bigEndian]) ?_ hmask ?_
    · exact hcnt.trans (by simp [LengthEncoding.extended])
    · dsimp only
      rw [hsiz, hextended (by decide) hfits]
  | len63 =>
    rw [he] at hfits h63 hextended
    obtain ⟨hstate, hsiz, hcnt⟩ := h63 rfl
    refine foldlM_recvExLength cf _ (v := { v with frame := g }) (hin _ hstate)
      (by simp [LengthEncoding.extended, bigEndian]) ?_ hmask ?_
    · exact hcnt.trans (by simp [LengthEncoding.extended])
    · dsimp only
      rw [hsiz, hextended (by decide) hfits]

theorem set_key (m key : Key) :
    (((m.set 0 (key.get 0)).set 1 (key.get 1)).set 2 (key.get 2)).set 3 (key.get 3) = key := by
  ext i hi
  have : i = 0 ∨ i = 1 ∨ i = 2 ∨ i = 3 := by omega
  rcases this with rfl | rfl | rfl | rfl <;> (simp [Vector.get]; try rfl)

theorem toList_key (key : Key) : key.toList = [key.get 0, key.get 1, key.get 2, key.get 3] := by
  obtain ⟨⟨l⟩, hl⟩ := key
  have hl : l.length = 4 := hl
  match l, hl with
  | [_, _, _, _], _ => rfl

theorem foldlM_key (h : InHeader cf .readMask v.frame) (hmask : v.frame.ctl.maskCnt = 0)
    (hsiz : v.frame.ctl.siz = cf.payload.length) :
    ∃ g : WsFrame, cf.key.toList.foldlM wsByte v =
        some { v with
          frame := g
          queued := if cf.opcode = .ping ∧ cf.payload = [] then v.queued ++ wsHeader .pong 0
            else v.queued } ∧
      g.ctl.mask = cf.key ∧ g.ctl.maskCnt = 0 ∧ g.ctl.siz = cf.payload.length ∧
      InHeader cf (if cf.payload = [] then .init else .readPayload) g := by
  obtain ⟨⟨state, ⟨siz, sizCnt, maskCnt, m⟩, type, typeBefore, payload⟩, data, queued⟩ := v
  obtain ⟨hs, hpayload, hbefore, htype⟩ := h
  dsimp only at hs hpayload hbefore htype hmask hsiz
  subst hs hpayload hmask hsiz
  have hfold : cf.key.toList.foldlM wsByte
      ⟨⟨.readMask, ⟨cf.payload.length, sizCnt, 0, m⟩, type, typeBefore, []⟩, data, queued⟩ =
      some ⟨⟨if cf.payload.length = 0 then .init else .readPayload,
          ⟨cf.payload.length, sizCnt, 0, (((m.set 0 (cf.key.get 0)).set 1 (cf.key.get 1)).set 2
            (cf.key.get 2)).set 3 (cf.key.get 3)⟩, type, typeBefore, []⟩, data,
        if decide (type = .ping ∧ cf.payload.length = 0) then queued ++ wsHeader .pong 0
          else queued⟩ := by
    rw [toList_key]
    rfl
  rw [set_key] at hfold
  simp only [decide_eq_true_eq, List.length_eq_zero_iff, htype.ping] at hfold
  exact ⟨_, hfold, rfl, rfl, rfl, rfl, rfl, hbefore, htype⟩

theorem foldlM_payload (h : InHeader cf .readPayload v.frame) (hne : cf.payload ≠ [])
    (hkey : v.frame.ctl.mask = cf.key) (hmask : v.frame.ctl.maskCnt = 0)
    (hsiz : v.frame.ctl.siz = cf.payload.length) :
    ∃ g : WsFrame, (mask cf.key 0 cf.payload).foldlM wsByte v =
        some ⟨g, v.data ++ cf.data, v.queued ++ cf.answer⟩ ∧ g.AtStart := by
  have hlen := length_mask cf.key 0 cf.payload
  have hne' : mask cf.key 0 cf.payload ≠ [] := by
    rw [← List.length_pos_iff, hlen]
    exact List.length_pos_of_ne_nil hne
  have hunmask : (unmaskLoop cf.key 0 (mask cf.key 0 cf.payload)).1 = cf.payload := by
    rw [unmaskLoop_fst, mask_mask]
  rw [foldlM_wsPayload _ v hne' h.state (by rw [hlen, hsiz])]
  obtain ⟨⟨state, ⟨siz, sizCnt, maskCnt, m⟩, type, typeBefore, payload⟩, data, queued⟩ := v
  obtain ⟨hs, hpayload, hbefore, htype⟩ := h
  dsimp only at hs hpayload hbefore htype hmask hsiz hkey
  subst hs hpayload hmask hsiz hkey
  simp only [wsPayload, hlen, Nat.sub_self, if_true, List.nil_append, hunmask]
  unfold ClientFrame.data ClientFrame.answer
  cases ho : cf.opcode with
  | cont | text | bin =>
    rw [ho] at htype
    rcases htype with rfl | rfl <;>
    · rw [List.append_nil]
      exact ⟨_, rfl, rfl, rfl, hbefore⟩
  | ping =>
    rw [ho] at htype
    obtain rfl : type = .ping := htype
    rw [List.append_nil, ← wsHeader_pong _ (cf.ping_le ho)]
    exact ⟨_, rfl, rfl, rfl, hbefore⟩
  | pong =>
    rw [ho] at htype
    obtain rfl : type = .pong := htype
    rw [List.append_nil, List.append_nil]
    exact ⟨_, rfl, rfl, rfl, hbefore⟩
  | close => exact absurd ho cf.not_close

theorem foldlM_wsByte_append {v : WsView} (t : Bytes) (h : s.foldlM wsByte v = some v') :
    (s ++ t).foldlM wsByte v = t.foldlM wsByte v' := by
  rw [List.foldlM_append, h]
  rfl

theorem foldlM_wire (h : v.frame.AtStart) :
    ∃ g : WsFrame, cf.wire.foldlM wsByte v = some ⟨g, v.data ++ cf.data, v.queued ++ cf.answer⟩ ∧
      g.AtStart := by
  obtain ⟨g₁, hhead, hin₁⟩ := wsByte_head cf h
  obtain ⟨g₂, hlength, hin₂, hsiz₂, hmask₂⟩ := foldlM_length (v := { v with frame := g₁ }) cf hin₁
  obtain ⟨g₃, hkey, hm₃, hmask₃, hsiz₃, hin₃⟩ :=
    foldlM_key (v := { v with frame := g₂ }) cf hin₂ hmask₂ hsiz₂
  have hwire : cf.wire = [cf.head] ++ ((cf.second true :: cf.encoding.extended cf.payload.length) ++
      (cf.key.toList ++ mask cf.key 0 cf.payload)) := by
    simp [ClientFrame.wire, Frame.encodeMasked]
  have hfold : cf.wire.foldlM wsByte v = (mask cf.key 0 cf.payload).foldlM wsByte
      { v with
        frame := g₃
        queued := if cf.opcode = .ping ∧ cf.payload = [] then v.queued ++ wsHeader .pong 0
          else v.queued } := by
    have hhead' : [cf.head].foldlM wsByte v = some { v with frame := g₁ } := by
      rw [List.foldlM_cons, hhead]
      rfl
    rw [hwire, foldlM_wsByte_append _ hhead', foldlM_wsByte_append _ hlength,
      foldlM_wsByte_append _ hkey]
  rw [hfold]
  by_cases hnil : cf.payload = []
  · rw [hnil, if_pos rfl] at hin₃
    have hdata : cf.data = [] := by
      unfold ClientFrame.data
      split <;> simp [hnil]
    have hanswer : (if cf.opcode = .ping ∧ cf.payload = [] then v.queued ++ wsHeader .pong 0
        else v.queued) = v.queued ++ cf.answer := by
      unfold ClientFrame.answer
      by_cases ho : cf.opcode = .ping
      · have hpong := wsHeader_pong (Nat.lt_of_lt_of_le cf.fits cf.encoding.bound_le)
          (cf.ping_le ho)
        rw [if_pos ⟨ho, hnil⟩, ho, ← hpong]
        simp only [hnil]
        rw [List.append_nil]
        rfl
      · rw [if_neg fun hand => ho hand.1]
        split
        · next ho' => exact absurd ho' ho
        · rw [List.append_nil]
    rw [hanswer, hdata, hnil, List.append_nil]
    exact ⟨g₃, rfl, hin₃.state, hin₃.payload, hin₃.typeBefore⟩
  · rw [if_neg hnil] at hin₃
    rw [if_neg fun hand => hnil hand.2]
    exact foldlM_payload (v := { v with frame := g₃ }) cf hin₃ hnil hm₃ hmask₃ hsiz₃

end

theorem foldlM_wires : ∀ (frames : List ClientFrame) {v : WsView}, v.frame.AtStart →
    ∃ g : WsFrame, (frames.flatMap ClientFrame.wire).foldlM wsByte v =
        some ⟨g, v.data ++ frames.flatMap ClientFrame.data,
          v.queued ++ frames.flatMap ClientFrame.answer⟩ ∧ g.AtStart
  | [], v, h => ⟨v.frame, by simp, h⟩
  | f :: frames, v, h => by
    obtain ⟨g₁, hwire, hg₁⟩ := foldlM_wire f h
    obtain ⟨g, hwires, hg⟩ := foldlM_wires frames (v := ⟨g₁, v.data ++ f.data, v.queued ++ f.answer⟩)
      hg₁
    refine ⟨g, ?_, hg⟩
    rw [List.flatMap_cons, foldlM_wsByte_append _ hwire]
    refine hwires.trans ?_
    simp only [List.flatMap_cons, List.append_assoc]

/-! ## Calls -/

/-- What a call of `recv_rfc_6455` finds: chunks in memory, and the queues to the backend and to
the client, which are written to their ends in the meantime. -/
structure WsCall where
  requestContentQueue : Chunkqueue
  mem : ∀ c ∈ requestContentQueue.chunks, c.type = .mem
  wb : Chunkqueue
  writeQueue : Chunkqueue
  tempdirLeft : TempdirLeft writeQueue

/-- The handler at a call, with the frame of the last call. -/
def WsCall.enter (call : WsCall) (f : WsFrame) : WsHandler :=
  ⟨f, call.wb, call.requestContentQueue, call.writeQueue, .success⟩

/-- Calls that return 0, from the frame `f` to the frame `f'`: in all they append `data` to the
queue to the backend and `queued` to the queue to the client. Each leaves no chunk, so that the
next one finds the bytes that came behind. -/
inductive WsRun (bufmin : Bool) (space : Chunkqueue → ℕ) :
    WsFrame → List WsCall → Bytes → Bytes → WsFrame → Prop
  | nil (f : WsFrame) : WsRun bufmin space f [] [] [] f
  | cons {f f' : WsFrame} {call : WsCall} {calls : List WsCall} {hctx : WsHandler}
      {data data' queued queued' : Bytes}
      (hcall : recvRfc6455 ⟨false, bufmin⟩ space (call.enter f) = .ok hctx)
      (hwb : Appended call.wb hctx.wb data)
      (hqueue : Appended call.writeQueue hctx.writeQueue queued)
      (hempty : hctx.requestContentQueue.chunks = [])
      (hrest : WsRun bufmin space hctx.frame calls data' queued' f') :
      WsRun bufmin space f (call :: calls) (data ++ data') (queued ++ queued') f'

/-- The view when `data` and `queued` were appended before. -/
def WsView.behind (v : WsView) (data queued : Bytes) : WsView :=
  ⟨v.frame, data ++ v.data, queued ++ v.queued⟩

theorem wsByte_behind (v : WsView) (data queued : Bytes) (c : UInt8) :
    wsByte (v.behind data queued) c = (wsByte v c).map fun w => w.behind data queued := by
  obtain ⟨f, d, q⟩ := v
  change wsByte ⟨f, data ++ d, queued ++ q⟩ c = _
  have hmap : ∀ x : Option WsFrame,
      x.map (fun f => (⟨f, data ++ d, queued ++ q⟩ : WsView)) =
        (x.map fun f => (⟨f, d, q⟩ : WsView)).map fun w => w.behind data queued := by
    intro x
    cases x <;> rfl
  cases hs : f.state with
  | init => simpa only [wsByte, hs] using hmap (recvInit f c).toOption
  | readLength => simpa only [wsByte, hs] using hmap (recvLength f c).toOption
  | readExLength => simpa only [wsByte, hs] using hmap (recvExLength f c).toOption
  | readMask =>
    simp only [wsByte, hs, Option.map_some, WsView.behind]
    by_cases hsend : (recvMask f c).2
    · rw [if_pos hsend, if_pos hsend, List.append_assoc]
    · rw [if_neg hsend, if_neg hsend]
  | readPayload =>
    simp only [wsByte, hs, wsPayload, WsView.behind]
    cases f.type with
    | text | bin => simp only [Option.map_some, List.append_assoc]
    | ping =>
      by_cases h0 : f.ctl.siz - [c].length = 0
      · simp only [if_pos h0, Option.map_some, List.append_assoc]
      · simp only [if_neg h0, Option.map_some]
    | pong => rfl
    | close => rfl

theorem foldlM_behind (data queued : Bytes) : ∀ (s : Bytes) (v : WsView),
    s.foldlM wsByte (v.behind data queued) =
      (s.foldlM wsByte v).map fun w => w.behind data queued
  | [], _ => rfl
  | c :: cs, v => by
    rw [List.foldlM_cons, List.foldlM_cons, wsByte_behind]
    cases wsByte v c with
    | some w => exact foldlM_behind data queued cs w
    | none => rfl

theorem wsRun_of_foldlM (bufmin : Bool) (space : Chunkqueue → ℕ) :
    ∀ (calls : List WsCall) {f : WsFrame} {v : WsView}, f.Valid →
      (calls.flatMap fun call => call.requestContentQueue.bytes).foldlM wsByte ⟨f, [], []⟩ = some v →
      WsRun bufmin space f calls v.data v.queued v.frame
  | [], f, v, _, hfold => by
    cases hfold
    exact .nil f
  | call :: calls, f, v, hv, hfold => by
    rw [List.flatMap_cons, List.foldlM_append] at hfold
    obtain ⟨v₁, hcall, hcalls⟩ := Option.bind_eq_some_iff.mp hfold
    obtain ⟨hv₁, hctx, hrecv, hframe, hwb, hqueue, hempty⟩ := recvRfc6455_of_foldlM space
      (show HttpChunkConf.chunked ⟨false, bufmin⟩ = false from rfl) call.mem
      (show (call.enter f).io = .success from rfl) call.tempdirLeft hv hcall
    have hbehind : v₁ = WsView.behind ⟨v₁.frame, [], []⟩ v₁.data v₁.queued := by
      simp [WsView.behind]
    rw [hbehind, foldlM_behind] at hcalls
    obtain ⟨w, hw, rfl⟩ := Option.map_eq_some_iff.mp hcalls
    have hrest := wsRun_of_foldlM bufmin space calls hv₁ hw
    rw [← hframe] at hrest
    exact .cons hrecv hwb hqueue hempty hrest

/-- However the frames of a client are cut into chunks and into calls, the calls return 0, the
backend gets the payloads of the data frames, the client gets a pong for every ping, and the frame
at the end is the same. -/
theorem wsRun_clientFrames (binary : Bool) (frames : List ClientFrame) :
    ∃ f : WsFrame, ∀ (bufmin : Bool) (space : Chunkqueue → ℕ) (calls : List WsCall),
      calls.flatMap (fun call => call.requestContentQueue.bytes) =
        frames.flatMap ClientFrame.wire →
      WsRun bufmin space (wstunnelHandlerSetup binary) calls (frames.flatMap ClientFrame.data)
        (frames.flatMap ClientFrame.answer) f := by
  have hstart : (wstunnelHandlerSetup binary).AtStart := by
    refine ⟨rfl, rfl, ?_⟩
    cases binary
    · exact Or.inl rfl
    · exact Or.inr rfl
  have hvalid : (wstunnelHandlerSetup binary).Valid :=
    ⟨fun hs => (nomatch hs), fun hne => absurd rfl hne⟩
  obtain ⟨f, hfold, -⟩ := foldlM_wires frames
    (v := ⟨wstunnelHandlerSetup binary, [], []⟩) hstart
  refine ⟨f, fun bufmin space calls hcalls => ?_⟩
  rw [← hcalls] at hfold
  exact wsRun_of_foldlM bufmin space calls hvalid hfold

/-- A call that finds the bytes `s` in a chunk each, and empty queues. -/
def WsCall.ofBytes (s : List Bytes) : WsCall where
  requestContentQueue := s.foldl chunkqueueAppendMem (chunkqueueInit 0 0)
  mem := by
    have h : ∀ (s : List Bytes) (cq : Chunkqueue), (∀ c ∈ cq.chunks, c.type = .mem) →
        ∀ c ∈ (s.foldl chunkqueueAppendMem cq).chunks, c.type = .mem := by
      intro s
      induction s with
      | nil => exact fun _ hcq => hcq
      | cons b s ih =>
        intro cq hcq
        refine ih _ ?_
        unfold chunkqueueAppendMem
        split_ifs
        · exact hcq
        · intro c hc
          rcases List.mem_append.mp hc with hc | hc
          · exact hcq c hc
          · rw [List.mem_singleton.mp hc]
            rfl
    exact h s _ (by simp [chunkqueueInit])
  wb := chunkqueueInit 0 0
  writeQueue := chunkqueueInit 0 0
  tempdirLeft := Or.inl rfl

/-- A text frame `Hi`, and a ping. -/
def hiFrames : List ClientFrame :=
  [⟨⟨8, .text, .len7, str "Hi", by decide⟩, #v[1, 2, 3, 4], by decide, by decide⟩,
    ⟨⟨8, .ping, .len16, str "?", by decide⟩, #v[5, 6, 7, 8], by decide, by decide⟩]

theorem wsRun_clientFrames_hi : ∃ f : WsFrame, WsRun false (fun _ => 0) (wstunnelHandlerSetup false)
    [.ofBytes [[0x81], [0x82, 1, 2, 3]], .ofBytes [[4, 73, 107, 0x89, 0xfe, 0], [1, 5, 6, 7, 8, 58]]]
    (str "Hi") [0x8a, 1, 63] f := by
  obtain ⟨f, h⟩ := wsRun_clientFrames false hiFrames
  exact ⟨f, h false (fun _ => 0) _ (by decide)⟩

end Lighttpd
