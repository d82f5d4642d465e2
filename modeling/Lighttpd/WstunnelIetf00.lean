import Lighttpd.Base64
import Lighttpd.Wstunnel

/-!
# WebSocket frames of draft 00

`recv_ietf_00` reads frames that are a payload between a zero byte and 0xff. The length of the last
part of a payload is `mem - frame+i` in the source, which is too large by twice the index at which
the part starts, so it is right only at the start of a chunk. `ietf00Run_iff` says for which chunks
the backend gets the payloads.
-/

namespace Lighttpd

open CString

/-! ## Receiving -/

/-- How a call ends that does not return 0: it returned -1, it read outside of a chunk, or an
assertion failed. -/
inductive Ietf00Stop
  | returned (hctx : WsHandler)
  | outside
  | aborted

/-- `siz` is counted up by `len`, and `len` bytes from index `i` of the chunk are appended to the
payload. -/
def ietf00Append (frame : Bytes) (i len : ℕ) (hctx : WsHandler) : Except Ietf00Stop WsHandler :=
  let f := { hctx.frame with ctl := { hctx.frame.ctl with siz := hctx.frame.ctl.siz + len } }
  if f.ctl.siz > MOD_WEBSOCKET_BUFMAX then .error (.returned { hctx with frame := f })
  else if frame.length < i + len then .error .outside
  else .ok { hctx with frame := { f with payload := f.payload ++ (frame.drop i).take len } }

/-- What is done with the payload; behind `buffer_append_string_len` it is not `buffer_is_empty`. -/
def ietf00Use (space : Chunkqueue → ℕ) (hctx : WsHandler) : Except Ietf00Stop WsHandler :=
  let f := hctx.frame
  if f.type = .text then
    match wbAppend space hctx.wb f.payload with
    | some wb => .ok { hctx with frame := { f with payload := [], ctl := { f.ctl with siz := 0 } }
                                 wb := wb }
    | none => .error .aborted
  else if f.state = .init then
    let wb := chunkqueueGetMemory hctx.wb
      (!hasSpace space hctx.wb ((f.payload.length + 3) / 4 * 3 + 1))
    match base64Decode f.payload with
    | none => .error (.returned { hctx with wb := wb })
    | some data =>
      match chunkqueueUseMemory wb data with
      | some wb => .ok { hctx with frame := { f with payload := [] }, wb := wb }
      | none => .error .aborted
  else .ok hctx

/-- The loop of `recv_ietf_00` over the bytes of a chunk, from index `i` on. It moves on by a byte
at least each time. -/
def ietf00Loop (space : Chunkqueue → ℕ) (frame : Bytes) :
    ℕ → ℕ → WsHandler → Except Ietf00Stop WsHandler
  | 0, _, hctx => .ok hctx
  | fuel + 1, i, hctx =>
    match frame[i]? with
    | none => .ok hctx
    | some c =>
      match hctx.frame.state with
      | .init =>
        let f := { hctx.frame with ctl := { hctx.frame.ctl with siz := 0 } }
        if c = 0 then
          ietf00Loop space frame fuel (i + 1) { hctx with frame := { f with state := .readPayload } }
        else .error (.returned { hctx with frame := f })
      | .readPayload =>
        match memchr (frame.drop i) 0xff with
        | none =>
          (ietf00Append frame i (frame.length - i) hctx).bind fun hctx =>
            (ietf00Use space hctx).bind fun hctx =>
              ietf00Loop space frame fuel (i + (frame.length - i) + 1) hctx
        | some k =>
          let mem := i + k
          (ietf00Append frame i (mem + i) hctx).bind fun hctx =>
            (ietf00Use space { hctx with frame := { hctx.frame with state := .init } }).bind
              fun hctx => ietf00Loop space frame fuel (i + (mem + i) + 1) hctx
      | _ => .error (.returned hctx)

/-- The loop of `recv_ietf_00` over the chunks. -/
def ietf00Chunks (space : Chunkqueue → ℕ) (hctx : WsHandler) :
    List Chunk → Except Ietf00Stop WsHandler
  | [] => .ok hctx
  | c :: cs =>
    if c.type ≠ .mem then .error .aborted
    else
      (ietf00Loop space c.remaining c.remaining.length 0 hctx).bind fun hctx =>
        ietf00Chunks space hctx cs

/-- `recv_ietf_00`; the result is `ok` when it returns 0. -/
def recvIetf00 (space : Chunkqueue → ℕ) (hctx : WsHandler) : Except Ietf00Stop WsHandler :=
  (ietf00Chunks space hctx hctx.requestContentQueue.chunks).bind fun hctx =>
    match chunkqueueMarkWritten hctx.requestContentQueue
        (chunkqueueLength hctx.requestContentQueue) with
    | some cq => .ok { hctx with requestContentQueue := cq }
    | none => .error .aborted

/-- A frame of a client: its payload is text, or data in base64. -/
structure Ietf00Frame (binary : Bool) where
  payload : Bytes
  data : Bytes
  short : payload.length ≤ MOD_WEBSOCKET_BUFMAX
  carries : if binary then ∃ padded, payload = Base64.encode padded data
    else payload = data ∧ (0xff : UInt8) ∉ payload

/-- The bytes of a frame. -/
def Ietf00Frame.wire {binary : Bool} (f : Ietf00Frame binary) : Bytes := 0 :: (f.payload ++ [0xff])

/-- Calls that return 0 and read only inside of the chunks, from the frame `f` to the frame `f'`; in
all they append `data` to the queue to the backend. -/
inductive Ietf00Run (space : Chunkqueue → ℕ) : WsFrame → List WsCall → Bytes → WsFrame → Prop
  | nil (f : WsFrame) : Ietf00Run space f [] [] f
  | cons {f f' : WsFrame} {call : WsCall} {calls : List WsCall} {hctx : WsHandler}
      {data data' : Bytes}
      (hcall : recvIetf00 space (call.enter f) = .ok hctx)
      (hwb : Appended call.wb hctx.wb data)
      (hempty : hctx.requestContentQueue.chunks = [])
      (hrest : Ietf00Run space hctx.frame calls data' f') :
      Ietf00Run space f (call :: calls) (data ++ data') f'

/-- The chunks that the calls find. -/
def callChunks (calls : List WsCall) : List Bytes :=
  calls.flatMap fun call => call.requestContentQueue.chunks.map Chunk.remaining

/-- The first and the last byte of every frame are in different chunks, when the frames start `d`
bytes behind the start of the first chunk. -/
def EndsApart {binary : Bool} (d : ℕ) (frames : List (Ietf00Frame binary)) (chunks : List Bytes) :
    Prop :=
  ∀ pre f post, frames = pre ++ f :: post → ∃ cs cs', chunks = cs ++ cs' ∧
    d + (pre.flatMap Ietf00Frame.wire).length < cs.flatten.length ∧
    cs.flatten.length ≤ d + (pre.flatMap Ietf00Frame.wire).length + f.payload.length + 1

/-- Between two frames. -/
structure BetweenFrames (binary : Bool) (f : WsFrame) : Prop where
  state : f.state = .init
  type : f.type = if binary then .bin else .text
  payload : f.payload = []

/-- In a frame: the part `p` of its payload is to come, and `data` is still to be appended. -/
structure InPayload (binary : Bool) (f : WsFrame) (p data : Bytes) : Prop where
  state : f.state = .readPayload
  type : f.type = if binary then .bin else .text
  siz : f.ctl.siz = f.payload.length
  short : f.payload.length + p.length ≤ MOD_WEBSOCKET_BUFMAX
  notEnd : (0xff : UInt8) ∉ p
  carries : if binary then base64Decode (f.payload ++ p) = some data
    else f.payload = [] ∧ data = p

theorem except_bind_assoc {ε α β γ : Type} (x : Except ε α) (f : α → Except ε β)
    (g : β → Except ε γ) : (x.bind f).bind g = x.bind fun a => (f a).bind g := by
  cases x <;> rfl

variable {fuel d : ℕ} {t stream owed sent : Bytes} {f : WsFrame} {hctx hctx' : WsHandler}
  {frames : List (Ietf00Frame false)} {cs : List Chunk}

section Part

variable {binary : Bool} (space : Chunkqueue → ℕ) {hctx : WsHandler} {frame p s data : Bytes}
  {i len : ℕ}

theorem ietf00Append_eq (hs : (frame.drop i).take len = s) (hlen : i + len ≤ frame.length)
    (hin : InPayload binary hctx.frame (s ++ p) data) :
    ietf00Append frame i len hctx =
      .ok { hctx with frame := { hctx.frame with
        payload := hctx.frame.payload ++ s
        ctl := { hctx.frame.ctl with siz := (hctx.frame.payload ++ s).length } } } := by
  have hslen : s.length = len := by
    rw [← hs, List.length_take, List.length_drop]
    omega
  have hshort := hin.short
  rw [List.length_append] at hshort
  have hsiz : ¬ hctx.frame.ctl.siz + len > MOD_WEBSOCKET_BUFMAX := by
    rw [hin.siz]
    omega
  unfold ietf00Append
  simp only
  rw [if_neg hsiz, if_neg (by omega), hs, hin.siz, List.length_append, hslen]

theorem ietf00_part (hs : (frame.drop i).take len = s) (hlen : i + len ≤ frame.length)
    (hin : InPayload binary hctx.frame (s ++ p) data) :
    ∃ hctx' sent data', (ietf00Append frame i len hctx).bind (ietf00Use space) = .ok hctx' ∧
      InPayload binary hctx'.frame p data' ∧ data = sent ++ data' ∧
      Appended hctx.wb hctx'.wb sent ∧ hctx'.requestContentQueue = hctx.requestContentQueue := by
  have hshort := hin.short
  rw [List.length_append] at hshort
  have hend : (0xff : UInt8) ∉ p := fun h => hin.notEnd (List.mem_append_right _ h)
  have hstate := hin.state
  have htype := hin.type
  have hcarries := hin.carries
  rw [ietf00Append_eq hs hlen hin, Except.bind]
  unfold ietf00Use
  cases binary with
  | false =>
    obtain ⟨hpayload, hdata⟩ := hcarries
    obtain ⟨wb', hwb, happ⟩ := appended_wbAppend space hctx.wb s
    rw [if_neg (by decide)] at htype
    simp only [htype, if_true, hpayload, List.nil_append, hwb]
    refine ⟨_, s, p, rfl, ⟨hstate, by simp, rfl, ?_, hend, ⟨rfl, rfl⟩⟩, hdata, happ, rfl⟩
    simp only [List.length_nil]
    omega
  | true =>
    rw [if_pos rfl] at htype hcarries
    simp only [htype, hstate]
    refine ⟨_, [], data, rfl, ⟨rfl, by simp, rfl, ?_, hend, ?_⟩, rfl, .refl _, rfl⟩
    · simp only [List.length_append]
      omega
    · simpa using hcarries

theorem ietf00_last (hs : (frame.drop i).take len = p) (hlen : i + len ≤ frame.length)
    (hin : InPayload binary hctx.frame p data) :
    ∃ hctx', ((ietf00Append frame i len hctx).bind fun hctx =>
        ietf00Use space { hctx with frame := { hctx.frame with state := .init } }) = .ok hctx' ∧
      BetweenFrames binary hctx'.frame ∧ Appended hctx.wb hctx'.wb data ∧
      hctx'.requestContentQueue = hctx.requestContentQueue := by
  have htype := hin.type
  have hcarries := hin.carries
  rw [ietf00Append_eq (p := []) hs hlen (by rwa [List.append_nil]), Except.bind]
  unfold ietf00Use
  cases binary with
  | false =>
    obtain ⟨hpayload, rfl⟩ := hcarries
    obtain ⟨wb', hwb, happ⟩ := appended_wbAppend space hctx.wb data
    rw [if_neg (by decide)] at htype
    simp only [htype, if_true, hpayload, List.nil_append, hwb]
    exact ⟨_, rfl, ⟨rfl, by simp, rfl⟩, happ, rfl⟩
  | true =>
    rw [if_pos rfl] at htype hcarries
    obtain ⟨wb', hwb, happ⟩ := appended_useMemory space hctx.wb
      (((hctx.frame.payload ++ p).length + 3) / 4 * 3 + 1) data
    simp only [htype, hcarries, hwb]
    exact ⟨_, rfl, ⟨rfl, by simp, rfl⟩, happ, rfl⟩

theorem ietf00Loop_part (hctx : WsHandler) (hs : frame.drop i = s) (hfuel : s.length ≤ fuel)
    (hin : InPayload binary hctx.frame (s ++ p) data) :
    ∃ hctx' sent data', ietf00Loop space frame fuel i hctx = .ok hctx' ∧
      InPayload binary hctx'.frame p data' ∧ data = sent ++ data' ∧
      Appended hctx.wb hctx'.wb sent ∧ hctx'.requestContentQueue = hctx.requestContentQueue := by
  rcases fuel with _ | fuel
  · obtain rfl : s = [] := List.length_eq_zero_iff.mp (Nat.le_zero.mp hfuel)
    exact ⟨hctx, [], data, rfl, hin, rfl, .refl _, rfl⟩
  have hget : frame[i]? = s.head? := by rw [← hs, List.head?_drop]
  rw [ietf00Loop, hget]
  rcases s with _ | ⟨c, s⟩
  · exact ⟨hctx, [], data, rfl, hin, rfl, .refl _, rfl⟩
  have hlen : frame.length - i = (c :: s).length := by rw [← hs, List.length_drop]
  have hnone : memchr (frame.drop i) 0xff = none := by
    rw [hs]
    refine search_eq_none_iff.mpr fun j hj => hin.notEnd (List.mem_append_left _ ?_)
    exact List.mem_of_mem_drop (hj.subset (List.mem_singleton_self _))
  have htake : (frame.drop i).take (frame.length - i) = c :: s := by
    rw [hs, hlen, List.take_length]
  obtain ⟨hctx', sent, data', hpart, hin', hdata, happ, hq⟩ :=
    ietf00_part space htake (by rw [List.length_cons] at hlen; omega) hin
  simp only [List.head?_cons, hin.state, hnone]
  refine ⟨hctx', sent, data', ?_, hin', hdata, happ, hq⟩
  rw [← except_bind_assoc, hpart]
  have hget' : frame[i + (frame.length - i) + 1]? = none := by
    rw [List.getElem?_eq_none_iff]
    omega
  cases fuel with
  | zero => rfl
  | succ fuel => rw [Except.bind, ietf00Loop, hget']

theorem ietf00Loop_end (hin : InPayload binary hctx.frame p data) :
    ∃ hctx', ietf00Loop space (p ++ [0xff] ++ t) (p ++ [0xff] ++ t).length 0 hctx =
        ietf00Loop space (p ++ [0xff] ++ t) (p.length + t.length) (p.length + 1) hctx' ∧
      BetweenFrames binary hctx'.frame ∧ Appended hctx.wb hctx'.wb data ∧
      hctx'.requestContentQueue = hctx.requestContentQueue := by
  have htake : ((p ++ [0xff] ++ t).drop 0).take (0 + p.length + 0) = p := by simp
  obtain ⟨hctx', hlast, hb, happ, hq⟩ := ietf00_last space htake (by simp) hin
  refine ⟨hctx', ?_, hb, happ, hq⟩
  have hlen : (p ++ [0xff] ++ t).length = p.length + t.length + 1 := by
    simp only [List.length_append, List.length_cons, List.length_nil]
    omega
  have hmem : memchr (p ++ [0xff] ++ t) 0xff = some p.length := by
    rw [List.append_assoc]
    exact memchr_append_cons hin.notEnd t
  obtain ⟨c, hget⟩ : ∃ c, (p ++ [0xff] ++ t)[0]? = some c := by
    rcases p with _ | ⟨c, p⟩
    · exact ⟨0xff, rfl⟩
    · exact ⟨c, rfl⟩
  rw [hlen, ietf00Loop, hget]
  simp only [hin.state, List.drop_zero, hmem]
  rw [← except_bind_assoc, hlast, Except.bind]
  simp only [Nat.zero_add, Nat.add_zero]

end Part

section Chunks

variable {binary : Bool} (space : Chunkqueue → ℕ)

theorem Ietf00Frame.inPayload (x : Ietf00Frame binary) (hstate : f.state = .readPayload)
    (htype : f.type = if binary then .bin else .text) (hsiz : f.ctl.siz = 0)
    (hpayload : f.payload = []) : InPayload binary f x.payload x.data := by
  have hcarries := x.carries
  refine ⟨hstate, htype, by rw [hsiz, hpayload]; rfl, ?_, ?_, ?_⟩
  · rw [hpayload, List.length_nil, Nat.zero_add]
    exact x.short
  · cases binary with
    | false => exact hcarries.2
    | true =>
      obtain ⟨padded, h⟩ := hcarries
      rw [h]
      exact fun hmem => absurd (Base64.lt_of_mem_encode _ hmem) (by decide)
  · cases binary with
    | false => exact ⟨hpayload, hcarries.1.symm⟩
    | true =>
      obtain ⟨padded, h⟩ := hcarries
      rw [if_pos rfl, hpayload, h, List.nil_append, base64Decode_encode]

/-- The frame `f` when `d` bytes are left of a frame that was begun and then `frames` come: what is
to come, and what is still to be appended. -/
inductive Ietf00Reading : WsFrame → ℕ → Bytes → Bytes → List (Ietf00Frame binary) → Prop
  | between {f : WsFrame} {frames : List (Ietf00Frame binary)} (h : BetweenFrames binary f) :
      Ietf00Reading f 0 (frames.flatMap Ietf00Frame.wire) (frames.flatMap Ietf00Frame.data) frames
  | inside {f : WsFrame} {p data : Bytes} {frames : List (Ietf00Frame binary)}
      (h : InPayload binary f p data) :
      Ietf00Reading f (p.length + 1) (p ++ 0xff :: frames.flatMap Ietf00Frame.wire)
        (data ++ frames.flatMap Ietf00Frame.data) frames

/-- A chunk was read: `d` bytes of a frame and `frames` come to `d'` bytes of a frame and fewer
frames. -/
structure ChunkRead (hctx hctx' : WsHandler) (d len : ℕ) (owed rest : Bytes)
    (frames : List (Ietf00Frame binary)) (sent : Bytes) (d' : ℕ) (owed' : Bytes)
    (pre frames' : List (Ietf00Frame binary)) : Prop where
  reading : Ietf00Reading hctx'.frame d' rest owed' frames'
  owed : owed = sent ++ owed'
  appended : Appended hctx.wb hctx'.wb sent
  queue : hctx'.requestContentQueue = hctx.requestContentQueue
  frames : frames = pre ++ frames'
  pos : d + (pre.flatMap Ietf00Frame.wire).length = len + d'
  atMostOne : pre = [] ∨ ∃ x, pre = [x] ∧ d < len

variable {frame rest chunk : Bytes} {i : ℕ}

theorem ietf00Loop_between {s : Bytes} {frames : List (Ietf00Frame binary)} (hs : frame.drop i = s)
    (hrest : s ++ rest = frames.flatMap Ietf00Frame.wire) (hfuel : s.length ≤ fuel)
    (hfits : ∀ x post, frames = x :: post → s ≠ [] → s.length ≤ x.payload.length + 1)
    (hb : BetweenFrames binary hctx.frame) :
    ∃ hctx' sent d' owed' pre frames', ietf00Loop space frame fuel i hctx = .ok hctx' ∧
      ChunkRead hctx hctx' 0 s.length (frames.flatMap Ietf00Frame.data) rest frames sent d' owed' pre
        frames' := by
  rcases s with _ | ⟨c, s⟩
  · have hget : frame[i]? = none := by
      rw [← List.head?_drop, hs]
      rfl
    refine ⟨hctx, [], 0, frames.flatMap Ietf00Frame.data, [], frames, ?_, ?_⟩
    · cases fuel with
      | zero => rfl
      | succ fuel => rw [ietf00Loop, hget]
    · rw [List.nil_append] at hrest
      subst hrest
      exact ⟨.between hb, rfl, .refl _, rfl, rfl, rfl, .inl rfl⟩
  rcases frames with _ | ⟨x, frames⟩
  · simp at hrest
  have hx := hfits x frames rfl (List.cons_ne_nil _ _)
  rw [List.flatMap_cons, Ietf00Frame.wire, List.cons_append, List.cons_append] at hrest
  obtain ⟨rfl, htail⟩ := List.cons.inj hrest
  rw [List.append_assoc] at htail
  rw [List.length_cons] at hx hfuel
  obtain ⟨p, hp⟩ : s <+: x.payload :=
    List.prefix_of_prefix_length_le (htail ▸ List.prefix_append s rest) (List.prefix_append _ _)
      (by omega)
  have hrest' : rest = p ++ 0xff :: frames.flatMap Ietf00Frame.wire := by
    rw [← hp, List.append_assoc] at htail
    exact List.append_cancel_left htail
  have hget : frame[i]? = some 0 := by
    rw [← List.head?_drop, hs]
    rfl
  have hs' : frame.drop (i + 1) = s := by
    rw [← List.drop_drop, hs]
    rfl
  obtain ⟨fuel, rfl⟩ := Nat.exists_eq_add_of_lt (show 0 < fuel by omega)
  rw [Nat.zero_add, ietf00Loop, hget]
  simp only [hb.state, if_true]
  have hin := x.inPayload (f := { hctx.frame with
    ctl := { hctx.frame.ctl with siz := 0 }, state := .readPayload }) rfl hb.type rfl hb.payload
  rw [← hp] at hin
  obtain ⟨hctx', sent, data', hloop, hin', hdata, happ, hq⟩ := ietf00Loop_part space
    { hctx with frame := { hctx.frame with
      ctl := { hctx.frame.ctl with siz := 0 }, state := .readPayload } } hs'
    (show s.length ≤ fuel by omega) hin
  refine ⟨hctx', sent, p.length + 1, data' ++ frames.flatMap Ietf00Frame.data, [x], frames, hloop,
    ?_⟩
  rw [hrest']
  refine ⟨.inside hin', ?_, happ, hq, rfl, ?_, .inr ⟨x, rfl, Nat.succ_pos _⟩⟩
  · rw [List.flatMap_cons, hdata, List.append_assoc]
  · rw [List.flatMap_singleton, Ietf00Frame.wire, ← hp]
    simp only [List.length_cons, List.length_append, List.length_nil]
    omega

/-- The frame that starts in a chunk does not end there. -/
def HeadFits (d : ℕ) (frames : List (Ietf00Frame binary)) (len : ℕ) : Prop :=
  ∀ x post, frames = x :: post → d < len → len ≤ d + x.payload.length + 1

theorem ietf00Loop_chunk {frames : List (Ietf00Frame binary)}
    (hr : Ietf00Reading hctx.frame d stream owed frames) (hstream : stream = chunk ++ rest)
    (hfits : HeadFits d frames chunk.length) :
    ∃ hctx' sent d' owed' pre frames', ietf00Loop space chunk chunk.length 0 hctx = .ok hctx' ∧
      ChunkRead hctx hctx' d chunk.length owed rest frames sent d' owed' pre frames' := by
  cases hr with
  | between hb =>
    exact ietf00Loop_between space (List.drop_zero) hstream.symm le_rfl
      (fun x post hx hne => by
        have := hfits x post hx (List.length_pos_iff.mpr hne)
        omega) hb
  | @inside p data _ hin =>
    by_cases hle : chunk.length ≤ p.length
    · obtain ⟨p', rfl⟩ : chunk <+: p :=
        List.prefix_of_prefix_length_le ⟨rest, hstream.symm⟩ (List.prefix_append _ _) hle
      have hdrop : chunk.drop 0 = chunk := List.drop_zero
      obtain ⟨hctx', sent, data', hloop, hin', hdata, happ, hq⟩ :=
        ietf00Loop_part space hctx hdrop le_rfl hin
      refine ⟨hctx', sent, p'.length + 1, data' ++ frames.flatMap Ietf00Frame.data, [], frames, hloop,
        ?_⟩
      rw [List.append_assoc] at hstream
      rw [← List.append_cancel_left hstream]
      refine ⟨.inside hin', by rw [hdata, List.append_assoc], happ, hq, rfl, ?_, .inl rfl⟩
      simp only [List.flatMap_nil, List.length_nil, List.length_append]
      omega
    · have hpre : p ++ [0xff] <+: p ++ 0xff :: frames.flatMap Ietf00Frame.wire :=
        ⟨frames.flatMap Ietf00Frame.wire, by simp⟩
      obtain ⟨t, rfl⟩ : p ++ [0xff] <+: chunk :=
        List.prefix_of_prefix_length_le hpre ⟨rest, hstream.symm⟩ (by simp; omega)
      have ht : t ++ rest = frames.flatMap Ietf00Frame.wire := by
        rw [List.append_assoc, List.append_assoc] at hstream
        exact (List.cons.inj (List.append_cancel_left hstream)).2.symm
      obtain ⟨hctx₁, hstep, hb, happ₁, hq₁⟩ := ietf00Loop_end space (t := t) hin
      have hlen : (p ++ [0xff] ++ t).length = p.length + t.length + 1 := by
        simp only [List.length_append, List.length_cons, List.length_nil]
        omega
      have hdrop : (p ++ [0xff] ++ t).drop (p.length + 1) = t := List.drop_left' (by simp)
      have hfuel : t.length ≤ p.length + t.length := Nat.le_add_left _ _
      obtain ⟨hctx', sent, d', owed', pre, frames', hloop, hread⟩ :=
        ietf00Loop_between space hdrop ht hfuel (fun x post hx hne => by
          have := hfits x post hx (by have := List.length_pos_iff.mpr hne; omega)
          omega) hb
      refine ⟨hctx', data ++ sent, d', owed', pre, frames', hstep.trans hloop, hread.reading, ?_,
        happ₁.trans hread.appended, hread.queue.trans hq₁, hread.frames, ?_, ?_⟩
      · rw [hread.owed, List.append_assoc]
      · have := hread.pos
        omega
      · rcases hread.atMostOne with h | ⟨x, h, hpos⟩
        · exact .inl h
        · exact .inr ⟨x, h, by omega⟩

/-! ### Frames that end in their chunk -/

variable {space}

theorem ietf00Use_appended (h : ietf00Use space hctx = .ok hctx') :
    ∃ sent, Appended hctx.wb hctx'.wb sent := by
  unfold ietf00Use at h
  by_cases htext : hctx.frame.type = .text
  · obtain ⟨wb', hwb, happ⟩ := appended_wbAppend space hctx.wb hctx.frame.payload
    simp only [if_pos htext, hwb] at h
    cases h
    exact ⟨_, happ⟩
  by_cases hinit : hctx.frame.state = .init
  · simp only [if_neg htext, if_pos hinit] at h
    cases hdec : base64Decode hctx.frame.payload with
    | none =>
      rw [hdec] at h
      cases h
    | some data =>
      obtain ⟨wb', hwb, happ⟩ := appended_useMemory space hctx.wb
        ((hctx.frame.payload.length + 3) / 4 * 3 + 1) data
      rw [hdec] at h
      simp only [hwb] at h
      cases h
      exact ⟨_, happ⟩
  · simp only [if_neg htext, if_neg hinit] at h
    cases h
    exact ⟨[], .refl _⟩

theorem except_bind_eq_ok {ε α β : Type} {x : Except ε α} {f : α → Except ε β} {b : β}
    (h : x.bind f = .ok b) : ∃ a, x = .ok a ∧ f a = .ok b := by
  cases x with
  | error e => cases h
  | ok a => exact ⟨a, rfl, h⟩

theorem ietf00Append_ok {len : ℕ} (h : ietf00Append frame i len hctx = .ok hctx') :
    i + len ≤ frame.length ∧ hctx'.wb = hctx.wb ∧ hctx'.frame.type = hctx.frame.type ∧
      hctx'.frame.payload = hctx.frame.payload ++ (frame.drop i).take len := by
  unfold ietf00Append at h
  simp only at h
  split_ifs at h with hsiz hlen
  cases h
  exact ⟨by omega, rfl, rfl, rfl⟩

theorem ietf00Loop_appended (h : ietf00Loop space frame fuel i hctx = .ok hctx') :
    ∃ sent, Appended hctx.wb hctx'.wb sent := by
  induction fuel generalizing i hctx with
  | zero =>
    cases h
    exact ⟨[], .refl _⟩
  | succ fuel ih =>
    rw [ietf00Loop] at h
    split at h
    · cases h
      exact ⟨[], .refl _⟩
    split at h
    · simp only at h
      split_ifs at h
      obtain ⟨sent, happ⟩ := ih h
      exact ⟨sent, happ⟩
    · split at h
      all_goals
        obtain ⟨hctx₁, h₁, h⟩ := except_bind_eq_ok h
        obtain ⟨hctx₂, h₂, h⟩ := except_bind_eq_ok h
        obtain ⟨sent, happ⟩ := ietf00Use_appended h₂
        obtain ⟨sent', happ'⟩ := ih h
        refine ⟨sent ++ sent', Appended.trans ?_ happ'⟩
        rw [← (ietf00Append_ok h₁).2.1]
        exact happ
    · cases h

theorem Appended.unique {cq cq' : Chunkqueue} {s : Bytes} (h : Appended cq cq' s)
    (h' : Appended cq cq' t) : s = t :=
  List.append_cancel_left (h.1.symm.trans h'.1)

/-- A frame of text that starts and ends in a chunk brings its last byte into the queue. -/
theorem end_mem_of_between {x : Ietf00Frame false}
    (hs : frame.drop i = 0 :: (x.payload ++ 0xff :: t)) (hfuel : 2 ≤ fuel)
    (hb : BetweenFrames false hctx.frame) (h : ietf00Loop space frame fuel i hctx = .ok hctx')
    (happ : Appended hctx.wb hctx'.wb sent) : (0xff : UInt8) ∈ sent := by
  obtain ⟨fuel, rfl⟩ := Nat.exists_eq_add_of_le' hfuel
  have hget : frame[i]? = some 0 := by
    rw [← List.head?_drop, hs]
    rfl
  have hs' : frame.drop (i + 1) = x.payload ++ 0xff :: t := by
    rw [← List.drop_drop, hs]
    rfl
  obtain ⟨c, hget'⟩ : ∃ c, frame[i + 1]? = some c := by
    rw [← List.head?_drop, hs']
    rcases x.payload with _ | ⟨c, p⟩
    · exact ⟨0xff, rfl⟩
    · exact ⟨c, rfl⟩
  have hmem : memchr (x.payload ++ 0xff :: t) 0xff = some x.payload.length :=
    memchr_append_cons x.carries.2 t
  rw [ietf00Loop, hget] at h
  simp only [hb.state, if_true] at h
  rw [ietf00Loop, hget'] at h
  simp only [hs', hmem] at h
  obtain ⟨hctx₁, h₁, h⟩ := except_bind_eq_ok h
  obtain ⟨hctx₂, h₂, h⟩ := except_bind_eq_ok h
  obtain ⟨-, hwb₁, htype₁, hpayload₁⟩ := ietf00Append_ok h₁
  obtain ⟨wb', hwb', happ'⟩ := appended_wbAppend space hctx₁.wb hctx₁.frame.payload
  have htype : hctx₁.frame.type = .text := htype₁.trans hb.type
  unfold ietf00Use at h₂
  simp only [htype, if_true, hwb'] at h₂
  cases h₂
  obtain ⟨more, hmore⟩ := ietf00Loop_appended h
  have hsent := happ'.trans hmore
  rw [hwb₁] at hsent
  rw [happ.unique hsent, hpayload₁, hs']
  refine List.mem_append_left _ (List.mem_append_right _ ?_)
  rw [List.take_append, List.mem_append]
  right
  obtain ⟨m, hm⟩ : ∃ m, i + 1 + x.payload.length + (i + 1) - x.payload.length = m + 1 :=
    ⟨_, (Nat.succ_pred_eq_of_pos (by omega)).symm⟩
  rw [hm, List.take_succ_cons]
  exact List.mem_cons_self

/-- If no 0xff is appended, the frame that starts in the chunk does not end there. -/
theorem headFits_of_ok (hr : Ietf00Reading hctx.frame d stream owed frames)
    (hstream : stream = chunk ++ rest) (h : ietf00Loop space chunk chunk.length 0 hctx = .ok hctx')
    (happ : Appended hctx.wb hctx'.wb sent) (hend : (0xff : UInt8) ∉ sent) :
    HeadFits d frames chunk.length := by
  rintro x post rfl hd
  by_contra hlong
  have hwire : (x :: post).flatMap Ietf00Frame.wire =
      (0 :: (x.payload ++ [0xff])) ++ post.flatMap Ietf00Frame.wire := by
    rw [List.flatMap_cons, Ietf00Frame.wire]
  cases hr with
  | between hb =>
    obtain ⟨t, rfl⟩ : 0 :: (x.payload ++ [0xff]) <+: chunk :=
      List.prefix_of_prefix_length_le (hwire ▸ List.prefix_append _ _) ⟨rest, hstream.symm⟩
        (by simp; omega)
    exact hend (end_mem_of_between (x := x) (i := 0) (t := t) (by simp) (by simp; omega) hb h happ)
  | @inside p data _ hin =>
    obtain ⟨t, rfl⟩ : (p ++ [0xff]) ++ (0 :: (x.payload ++ [0xff])) <+: chunk := by
      refine List.prefix_of_prefix_length_le ?_ ⟨rest, hstream.symm⟩ (by simp; omega)
      exact ⟨post.flatMap Ietf00Frame.wire, by rw [hwire]; simp⟩
    obtain ⟨hctx₁, hstep, hb, happ₁, -⟩ := ietf00Loop_end space
      (t := 0 :: (x.payload ++ [0xff]) ++ t) hin
    rw [List.append_assoc, hstep] at h
    obtain ⟨sent', happ'⟩ := ietf00Loop_appended h
    rw [happ.unique (happ₁.trans happ')] at hend
    refine hend (List.mem_append_right _ (end_mem_of_between (x := x) (t := t) ?_ ?_ hb h happ'))
    · rw [List.drop_left' (by simp)]
      simp
    · simp
      omega

theorem EndsApart.head {frames : List (Ietf00Frame binary)} {chunks : List Bytes}
    (h : EndsApart d frames (chunk :: chunks)) : HeadFits d frames chunk.length := by
  rintro x post rfl hd
  obtain ⟨cs, cs', hsplit, hlt, hle⟩ := h [] x post rfl
  rcases cs with _ | ⟨c, cs⟩
  · simp at hlt
  · obtain ⟨rfl, -⟩ := List.cons.inj hsplit
    simp only [List.flatMap_nil, List.length_nil, List.flatten_cons, List.length_append] at hle
    omega

theorem EndsApart.tail {d' : ℕ} {pre frames : List (Ietf00Frame binary)} {chunks : List Bytes}
    (h : EndsApart d (pre ++ frames) (chunk :: chunks))
    (hpos : d + (pre.flatMap Ietf00Frame.wire).length = chunk.length + d') :
    EndsApart d' frames chunks := by
  rintro pre' x post rfl
  obtain ⟨cs, cs', hsplit, hlt, hle⟩ := h (pre ++ pre') x post (by rw [List.append_assoc])
  rw [List.flatMap_append, List.length_append] at hlt hle
  rcases cs with _ | ⟨c, cs⟩
  · simp at hlt
  · obtain ⟨rfl, rfl⟩ := List.cons.inj hsplit
    rw [List.flatten_cons, List.length_append] at hlt hle
    exact ⟨cs, cs', rfl, by omega, by omega⟩

theorem EndsApart.cons {d d' : ℕ} {pre frames : List (Ietf00Frame binary)} {chunk : Bytes}
    {chunks : List Bytes} (hhead : HeadFits d (pre ++ frames) chunk.length)
    (hpos : d + (pre.flatMap Ietf00Frame.wire).length = chunk.length + d')
    (hpre : pre = [] ∨ ∃ x, pre = [x] ∧ d < chunk.length) (h : EndsApart d' frames chunks) :
    EndsApart d (pre ++ frames) (chunk :: chunks) := by
  have hlater : ∀ pre' x post, frames = pre' ++ x :: post → ∃ cs cs', chunk :: chunks = cs ++ cs' ∧
      d + ((pre ++ pre').flatMap Ietf00Frame.wire).length < cs.flatten.length ∧
      cs.flatten.length ≤
        d + ((pre ++ pre').flatMap Ietf00Frame.wire).length + x.payload.length + 1 := by
    intro pre' x post hsplit
    obtain ⟨cs, cs', rfl, hlt, hle⟩ := h pre' x post hsplit
    refine ⟨chunk :: cs, cs', rfl, ?_⟩
    rw [List.flatMap_append, List.length_append, List.flatten_cons, List.length_append]
    omega
  rcases hpre with rfl | ⟨y, rfl, hd⟩
  · exact hlater
  intro pre' x post hsplit
  rcases pre' with _ | ⟨y', pre'⟩
  · obtain ⟨rfl, rfl⟩ := List.cons.inj hsplit
    have := hhead y frames rfl hd
    refine ⟨[chunk], chunks, rfl, ?_⟩
    simp only [List.flatMap_nil, List.length_nil, List.flatten_cons, List.flatten_nil,
      List.append_nil]
    omega
  · obtain ⟨rfl, hsplit'⟩ := List.cons.inj hsplit
    exact hlater pre' x post hsplit'

/-- The chunks of a call, if the first and the last byte of every frame are in different chunks. -/
theorem ietf00Chunks_of_endsApart (space : Chunkqueue → ℕ) (hctx : WsHandler) {later : List Bytes}
    {frames : List (Ietf00Frame binary)} (hmem : ∀ c ∈ cs, c.type = .mem)
    (hr : Ietf00Reading hctx.frame d stream owed frames)
    (hstream : stream = content cs ++ later.flatten)
    (h : EndsApart d frames (cs.map Chunk.remaining ++ later)) :
    ∃ hctx' sent d' owed', ∃ frames' : List (Ietf00Frame binary),
      ietf00Chunks space hctx cs = .ok hctx' ∧ Ietf00Reading hctx'.frame d' later.flatten owed' frames' ∧
      owed = sent ++ owed' ∧ Appended hctx.wb hctx'.wb sent ∧ hctx'.requestContentQueue = hctx.requestContentQueue ∧
      EndsApart d' frames' later := by
  induction cs generalizing hctx d frames stream owed with
  | nil =>
    subst hstream
    exact ⟨hctx, [], d, owed, frames, rfl, hr, rfl, .refl _, rfl, h⟩
  | cons c cs ih =>
    rw [content_cons, List.append_assoc] at hstream
    obtain ⟨hctx₁, sent, d₁, owed₁, pre, frames₁, hloop, hread⟩ :=
      ietf00Loop_chunk space hr hstream h.head
    obtain rfl := hread.frames
    obtain ⟨hctx', sent', d', owed', frames', hchunks, hr', howed, happ, hq, hends⟩ :=
      ih hctx₁ (fun b hb => hmem b (List.mem_cons_of_mem _ hb)) hread.reading rfl (h.tail hread.pos)
    refine ⟨hctx', sent ++ sent', d', owed', frames', ?_, hr', ?_, hread.appended.trans happ,
      hq.trans hread.queue, hends⟩
    · rw [ietf00Chunks, if_neg (not_not.mpr (hmem c List.mem_cons_self)), hloop]
      exact hchunks
    · rw [hread.owed, howed, List.append_assoc]

end Chunks

/-! ## Calls -/

section Calls

variable {binary : Bool} {space : Chunkqueue → ℕ}

theorem recvIetf00_eq (hctx : WsHandler)
    (h : ietf00Chunks space hctx hctx.requestContentQueue.chunks = .ok hctx') :
    ∃ cq', recvIetf00 space hctx = .ok { hctx' with requestContentQueue := cq' } ∧
      cq'.chunks = [] := by
  obtain ⟨cq', hmark, hnil⟩ := markWritten_length hctx'.requestContentQueue
  refine ⟨cq', ?_, hnil⟩
  rw [recvIetf00, h, Except.bind, hmark]

/-- The calls on frames whose first and last bytes are in different chunks. -/
theorem ietf00Run_of_endsApart {calls : List WsCall} {frames : List (Ietf00Frame binary)}
    (hr : Ietf00Reading f d (callChunks calls).flatten owed frames)
    (h : EndsApart d frames (callChunks calls)) :
    ∃ data d' owed' f', ∃ frames' : List (Ietf00Frame binary),
      Ietf00Run space f calls data f' ∧ owed = data ++ owed' ∧ Ietf00Reading f' d' [] owed' frames' := by
  induction calls generalizing f d owed frames with
  | nil => exact ⟨[], d, owed, f, frames, .nil f, rfl, hr⟩
  | cons call calls ih =>
    have hchunks : callChunks (call :: calls) =
        call.requestContentQueue.chunks.map Chunk.remaining ++ callChunks calls := rfl
    rw [hchunks] at hr h
    obtain ⟨hctx', sent, d', owed', frames', hcs, hr', howed, happ, -, hends⟩ :=
      ietf00Chunks_of_endsApart space (call.enter f) call.mem hr
        (by rw [List.flatten_append]; rfl) h
    obtain ⟨cq', hrecv, hnil⟩ := recvIetf00_eq (call.enter f) hcs
    obtain ⟨data, d'', owed'', f'', frames'', hrun, hdata, hr''⟩ := ih hr' hends
    exact ⟨sent ++ data, d'', owed'', f'', frames'', .cons hrecv happ hnil hrun,
      by rw [howed, hdata, List.append_assoc], hr''⟩

theorem Ietf00Reading.done {frames : List (Ietf00Frame binary)}
    (hr : Ietf00Reading f d stream owed frames) (hstream : stream = []) :
    owed = [] ∧ frames = [] := by
  cases hr with
  | between hb =>
    rcases frames with _ | ⟨x, frames⟩
    · exact ⟨rfl, rfl⟩
    · simp [Ietf00Frame.wire] at hstream
  | inside hin => simp at hstream

theorem ietf00Chunks_appended (h : ietf00Chunks space hctx cs = .ok hctx') :
    ∃ sent, Appended hctx.wb hctx'.wb sent := by
  induction cs generalizing hctx with
  | nil =>
    cases h
    exact ⟨[], .refl _⟩
  | cons c cs ih =>
    rw [ietf00Chunks] at h
    split_ifs at h
    obtain ⟨hctx₁, hloop, h⟩ := except_bind_eq_ok h
    obtain ⟨sent, happ⟩ := ietf00Loop_appended hloop
    obtain ⟨sent', happ'⟩ := ih h
    exact ⟨sent ++ sent', happ.trans happ'⟩

/-- What chunks of text frames are like when no 0xff is appended. -/
theorem ietf00Chunks_endsApart (hctx : WsHandler) {later : List Bytes}
    (hr : Ietf00Reading hctx.frame d stream owed frames)
    (hstream : stream = content cs ++ later.flatten) (h : ietf00Chunks space hctx cs = .ok hctx')
    (happ : Appended hctx.wb hctx'.wb sent) (hend : (0xff : UInt8) ∉ sent) :
    ∃ d' owed', ∃ frames' : List (Ietf00Frame false),
      Ietf00Reading hctx'.frame d' later.flatten owed' frames' ∧
      (EndsApart d' frames' later → EndsApart d frames (cs.map Chunk.remaining ++ later)) := by
  induction cs generalizing hctx d frames stream owed sent with
  | nil =>
    cases h
    subst hstream
    exact ⟨d, owed, frames, hr, fun h => h⟩
  | cons c cs ih =>
    rw [ietf00Chunks] at h
    split_ifs at h
    obtain ⟨hctx₁, hloop, h⟩ := except_bind_eq_ok h
    obtain ⟨sent₁, happ₁⟩ := ietf00Loop_appended hloop
    obtain ⟨sent₂, happ₂⟩ := ietf00Chunks_appended h
    rw [happ.unique (happ₁.trans happ₂), List.mem_append, not_or] at hend
    rw [content_cons, List.append_assoc] at hstream
    have hhead := headFits_of_ok hr hstream hloop happ₁ hend.1
    obtain ⟨hctx₁', _, d₁, owed₁, pre, frames₁, hloop', hread⟩ :=
      ietf00Loop_chunk space hr hstream hhead
    obtain rfl : hctx₁ = hctx₁' := Except.ok.inj (hloop.symm.trans hloop')
    obtain rfl := hread.frames
    obtain ⟨d', owed', frames', hr', hends⟩ := ih hctx₁ hread.reading rfl h happ₂ hend.2
    exact ⟨d', owed', frames', hr', fun hlater => .cons hhead hread.pos hread.atMostOne (hends hlater)⟩

theorem endsApart_of_ietf00Run {calls : List WsCall} {f' : WsFrame} {data : Bytes}
    (hr : Ietf00Reading f d (callChunks calls).flatten owed frames)
    (hrun : Ietf00Run space f calls data f') (hend : (0xff : UInt8) ∉ data) :
    EndsApart d frames (callChunks calls) := by
  induction hrun generalizing d owed frames with
  | nil f =>
    obtain ⟨-, rfl⟩ := hr.done rfl
    intro pre x post h
    simp at h
  | @cons f f' call calls hctx data data' hcall hwb _ _ ih =>
    rw [List.mem_append, not_or] at hend
    have hchunks : callChunks (call :: calls) =
        call.requestContentQueue.chunks.map Chunk.remaining ++ callChunks calls := rfl
    rw [hchunks] at hr ⊢
    obtain ⟨hctx₁, hcs, hmark⟩ := except_bind_eq_ok hcall
    have hsame : hctx.frame = hctx₁.frame ∧ hctx.wb = hctx₁.wb := by
      split at hmark
      · cases hmark
        exact ⟨rfl, rfl⟩
      · cases hmark
    rw [hsame.2] at hwb
    have hstream : (call.requestContentQueue.chunks.map Chunk.remaining ++ callChunks calls).flatten =
        content call.requestContentQueue.chunks ++ (callChunks calls).flatten := List.flatten_append
    obtain ⟨d', owed', frames', hr', hends⟩ :=
      ietf00Chunks_endsApart (call.enter f) hr hstream hcs hwb hend.1
    rw [← hsame.1] at hr'
    exact hends (ih hr' hend.2)

/-- If the first and the last byte of every frame are in different chunks, the calls return 0, read
inside of the chunks and append the payloads or the data in them; for text also only if. -/
theorem ietf00Run_iff (binary : Bool) (frames : List (Ietf00Frame binary)) (space : Chunkqueue → ℕ)
    (calls : List WsCall)
    (hcalls : calls.flatMap (fun call => call.requestContentQueue.bytes) =
      frames.flatMap Ietf00Frame.wire) :
    (EndsApart 0 frames (callChunks calls) →
      ∃ f, Ietf00Run space (wstunnelHandlerSetup binary) calls (frames.flatMap Ietf00Frame.data) f) ∧
    (binary = false →
      (∃ f, Ietf00Run space (wstunnelHandlerSetup binary) calls (frames.flatMap Ietf00Frame.data) f) →
      EndsApart 0 frames (callChunks calls)) := by
  have hflat : (callChunks calls).flatten = frames.flatMap Ietf00Frame.wire := by
    rw [← hcalls]
    simp only [callChunks, List.flatten_eq_flatMap, List.flatMap_assoc, List.flatMap_map,
      Chunkqueue.bytes, content, id_eq]
  have hr : Ietf00Reading (wstunnelHandlerSetup binary) 0 (callChunks calls).flatten
      (frames.flatMap Ietf00Frame.data) frames := by
    rw [hflat]
    exact .between ⟨rfl, rfl, rfl⟩
  refine ⟨fun h => ?_, ?_⟩
  · obtain ⟨data, d', owed', f', frames', hrun, howed, hr'⟩ := ietf00Run_of_endsApart hr h
    obtain ⟨rfl, -⟩ := hr'.done rfl
    rw [List.append_nil] at howed
    exact ⟨f', howed ▸ hrun⟩
  · rintro rfl ⟨f', hrun⟩
    refine endsApart_of_ietf00Run hr hrun fun hmem => ?_
    obtain ⟨x, -, hx⟩ := List.mem_flatMap.mp hmem
    have hcarries := x.carries
    exact hcarries.2 (hcarries.1 ▸ hx)

end Calls

/-- Two frames of text, `Hi` and `!`. -/
def hiIetf00Frames : List (Ietf00Frame false) :=
  [⟨str "Hi", str "Hi", by decide, rfl, by decide⟩, ⟨str "!", str "!", by decide, rfl, by decide⟩]

theorem ietf00Run_hi : ∃ f, Ietf00Run (fun _ => 0) (wstunnelHandlerSetup false)
    [.ofBytes [[0], [72, 105, 0xff, 0]], .ofBytes [[33, 0xff]]] (str "Hi!") f := by
  refine (ietf00Run_iff false hiIetf00Frames (fun _ => 0)
    [.ofBytes [[0], [72, 105, 0xff, 0]], .ofBytes [[33, 0xff]]] (by decide)).1 ?_
  intro pre x post h
  rcases pre with _ | ⟨y, _ | ⟨z, pre⟩⟩
  · obtain ⟨rfl, -⟩ := List.cons.inj h
    exact ⟨[[0]], [[72, 105, 0xff, 0], [33, 0xff]], rfl, by decide, by decide⟩
  · obtain ⟨rfl, h'⟩ := List.cons.inj h
    obtain ⟨rfl, -⟩ := List.cons.inj h'
    exact ⟨[[0], [72, 105, 0xff, 0]], [[33, 0xff]], rfl, by decide, by decide⟩
  · simp [hiIetf00Frames] at h

/-- `Hi` in one chunk: four bytes are read from the second one on. -/
theorem not_ietf00Run : ¬ ∀ (binary : Bool) (frames : List (Ietf00Frame binary))
    (space : Chunkqueue → ℕ) (calls : List WsCall),
    calls.flatMap (fun call => call.requestContentQueue.bytes) = frames.flatMap Ietf00Frame.wire →
    ∃ f, Ietf00Run space (wstunnelHandlerSetup binary) calls (frames.flatMap Ietf00Frame.data) f := by
  intro h
  obtain ⟨f, hrun⟩ := h false [⟨str "Hi", str "Hi", by decide, rfl, by decide⟩] (fun _ => 0)
    [.ofBytes [[0, 72, 105, 0xff]]] (by decide)
  have hcall : recvIetf00 (fun _ => 0)
      ((WsCall.ofBytes [[0, 72, 105, 0xff]]).enter (wstunnelHandlerSetup false)) = .error .outside := rfl
  generalize List.flatMap Ietf00Frame.data _ = data at hrun
  cases hrun with
  | cons hok => exact absurd (hcall.symm.trans hok) (by simp)

end Lighttpd
