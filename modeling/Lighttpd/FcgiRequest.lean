import Lighttpd.Chunkqueue
import Lighttpd.Lib.FastCgi

/-!
# Requests to a FastCGI backend

`mod_fastcgi` puts the records of a request on the queue `wb` to the backend: `fcgi_create_env`
those in front of the body, `fcgi_stdin_append` as much of the body as there is.
`gw_handle_subrequest` calls it again while `wb_reqlen`, the length of the whole stream, is not
reached. What has been put on the queue is always a stream of whole records
(`fcgiRun_stream`).

The variables that `http_cgi_headers` adds to the environment are an argument. Byte counts are
unbounded.
-/

namespace Lighttpd

open CString

/-- `FCGI_MAX_LENGTH`. -/
def FCGI_MAX_LENGTH : ℕ := 0xffff

/-- The fields of a `handler_ctx` that are used here, with the `request_content_queue` of its
connection. -/
structure FcgiCtx where
  wb : Chunkqueue
  wbReqlen : ℤ
  requestId : ℕ
  reqCq : Chunkqueue
  deriving DecidableEq, Repr

/-- `fcgi_header`; `none` when its assertion fails. -/
def fcgiHeader (type : UInt8) (requestId contentLength : ℕ) (paddingLength : UInt8) :
    Option Bytes :=
  if contentLength ≤ FCGI_MAX_LENGTH then
    some [1, type, UInt8.ofNat (requestId >>> 8 &&& 0xff), UInt8.ofNat (requestId &&& 0xff),
      UInt8.ofNat (contentLength >>> 8 &&& 0xff), UInt8.ofNat (contentLength &&& 0xff),
      paddingLength, 0]
  else none

/-- `hctx->wb_reqlen` with one more header. -/
def countHeader (wbReqlen : ℤ) : ℤ :=
  if wbReqlen ≠ -1 then if wbReqlen ≥ 0 then wbReqlen + 8 else wbReqlen - 8 else wbReqlen

/-- The loop of `fcgi_stdin_append`, by recursion on a bound for `req_cqlen - offset`. -/
def fcgiStdinLoop : ℕ → FcgiCtx → ℕ → Option FcgiCtx
  | _, ctx, 0 => some ctx
  | 0, _, _ + 1 => none
  | n + 1, ctx, left + 1 =>
    let weWant := if left + 1 > FCGI_MAX_LENGTH then FCGI_MAX_LENGTH else left + 1
    (fcgiHeader 5 ctx.requestId weWant 0).bind fun header =>
      let moved := chunkqueueSteal (chunkqueueAppendMem ctx.wb header) ctx.reqCq weWant
      fcgiStdinLoop n
        { ctx with wb := moved.1, reqCq := moved.2, wbReqlen := countHeader ctx.wbReqlen }
        (left + 1 - weWant)

/-- The end of `fcgi_stdin_append`. -/
def terminateStdin (ctx : FcgiCtx) : Option FcgiCtx :=
  if ctx.wb.bytesIn = ctx.wbReqlen then
    (fcgiHeader 5 ctx.requestId 0 0).map fun header =>
      { ctx with wb := chunkqueueAppendMem ctx.wb header, wbReqlen := ctx.wbReqlen + 8 }
  else some ctx

/-- `fcgi_stdin_append`. -/
def fcgiStdinAppend (ctx : FcgiCtx) : Option FcgiCtx :=
  let reqCqlen := ctx.reqCq.bytesIn - ctx.reqCq.bytesOut
  (fcgiStdinLoop reqCqlen ctx reqCqlen).bind terminateStdin

/-- The length of a name or a value in front of it. -/
def fcgiLenEnc (len : ℕ) : Bytes :=
  if len > 127 then
    [UInt8.ofNat (len >>> 24 &&& 0xff ||| 0x80), UInt8.ofNat (len >>> 16 &&& 0xff),
      UInt8.ofNat (len >>> 8 &&& 0xff), UInt8.ofNat (len &&& 0xff)]
  else [UInt8.ofNat (len &&& 0xff)]

/-- `fcgi_env_add`: the environment, and whether it took the variable. -/
def fcgiEnvAdd (env : Bytes) (key val : Option Bytes) : Bytes × Bool :=
  match key, val with
  | some key, some val =>
    let len := key.length + val.length + (if key.length > 127 then 4 else 1) +
      (if val.length > 127 then 4 else 1)
    if env.length + len ≥ FCGI_MAX_LENGTH then (env, false)
    else (env ++ (fcgiLenEnc key.length ++ fcgiLenEnc val.length) ++ key ++ val, true)
  | _, _ => (env, false)

/-- The calls of `fcgi_env_add` by `http_cgi_headers`, with the variables it passes on. -/
def fcgiEnv : Bytes → List (Option Bytes × Option Bytes) → Bytes × Bool
  | env, [] => (env, true)
  | env, var :: vars =>
    let added := fcgiEnvAdd env var.1 var.2
    let rest := fcgiEnv added.1 vars
    (rest.1, added.2 && rest.2)

/-- The end of `fcgi_create_env`: with the status 400, or with the request on its way. -/
inductive CreateEnvResult
  | finished (httpStatus : ℕ)
  | goOn (ctx : FcgiCtx)
  deriving DecidableEq, Repr

/-- `hctx->wb_reqlen` when the records in front of the body are on the queue. -/
def initialReqlen (length : ℕ) (contentLength : ℤ) : ℤ :=
  if contentLength ≠ 0 then if contentLength > 0 then length + contentLength else -length
  else length

/-- `fcgi_create_env`; `none` when an assertion fails. -/
def fcgiCreateEnv (gwMode : UInt8) (vars : List (Option Bytes × Option Bytes))
    (contentLength : ℤ) (ctx : FcgiCtx) : Option CreateEnvResult :=
  let ctx := { ctx with requestId := if ctx.requestId = 0 then 1 else ctx.requestId }
  (fcgiHeader 1 ctx.requestId 8 0).bind fun beginHeader =>
    let env := fcgiEnv [] vars
    if env.2 = false then some (.finished 400)
    else
      (fcgiHeader 4 ctx.requestId env.1.length 0).bind fun paramsHeader =>
        (fcgiHeader 4 ctx.requestId 0 0).bind fun paramsEnd =>
          let b := beginHeader ++ [0, gwMode, 0, 0, 0, 0, 0, 0] ++ paramsHeader ++ env.1 ++ paramsEnd
          (fcgiStdinAppend { ctx with
            wb := chunkqueueAppendMem ctx.wb b
            wbReqlen := initialReqlen b.length contentLength }).map .goOn

/-- The part of `gw_handle_subrequest` that passes the body on, for a `gw_mode` other than
`GW_AUTHORIZER`. `readPost` is `con->state == CON_STATE_READ_POST`. -/
def gwSubrequestBody (readPost : Bool) (ctx : FcgiCtx) : Option FcgiCtx :=
  if (if ctx.wb.bytesIn = 0 then readPost ∨ ctx.wbReqlen = -1
      else ctx.wb.bytesIn < ctx.wbReqlen ∨ ctx.wbReqlen < 0) then
    if ctx.wb.bytesIn - ctx.wb.bytesOut > 65536 - 4096 then some ctx
    else if (ctx.wb.bytesIn ≠ 0 ∨ ctx.wbReqlen = -1) ∧ ctx.reqCq.isEmpty = false then
      fcgiStdinAppend ctx
    else some ctx
  else some ctx

/-- What happens to a request: a chunk of the body arrives, in whatever call that reads it;
`gw_handle_subrequest` runs; the backend takes at most a number of bytes. -/
inductive FcgiEvent
  | arrive (c : Chunk)
  | subrequest (readPost : Bool)
  | sent (n : ℕ)
  deriving DecidableEq, Repr

/-- A request with the bytes that the backend has. -/
structure FcgiConn where
  ctx : FcgiCtx
  sent : Bytes
  deriving DecidableEq, Repr

/-- `network_backend_write` of at most `n` bytes. -/
def backendWrite (n : ℕ) (s : FcgiConn) : Option FcgiConn :=
  let len := min n (chunkqueueLength s.ctx.wb)
  (chunkqueueMarkWritten s.ctx.wb len).map fun wb =>
    { ctx := { s.ctx with wb := chunkqueueRemoveFinishedChunks wb }
      sent := s.sent ++ s.ctx.wb.bytes.take len }

/-- One event. -/
def fcgiStep (s : FcgiConn) : FcgiEvent → Option FcgiConn
  | .arrive c =>
    some { s with ctx := { s.ctx with reqCq := chunkqueueAppendChunk s.ctx.reqCq c } }
  | .subrequest readPost => (gwSubrequestBody readPost s.ctx).map fun ctx => { s with ctx := ctx }
  | .sent n => backendWrite n s

/-- A run of a request. -/
def fcgiRun (s : FcgiConn) : List FcgiEvent → Option FcgiConn
  | [] => some s
  | e :: es => (fcgiStep s e).bind fun s' => fcgiRun s' es

/-- The bytes of the body that arrive. -/
def FcgiEvent.arrived : FcgiEvent → Bytes
  | arrive c => c.remaining
  | subrequest _ => []
  | sent _ => []

/-- The bytes of the body that arrive in a run. -/
def arrived (es : List FcgiEvent) : Bytes := es.flatMap FcgiEvent.arrived

theorem ofNat_and_255 (n : ℕ) : UInt8.ofNat (n &&& 0xff) = UInt8.ofNat n := by
  have h : n &&& 0xff = n % 256 := Nat.and_two_pow_sub_one_eq_mod n 8
  rw [h]
  apply UInt8.toNat_inj.mp
  simp only [UInt8.toNat_ofNat']
  omega

theorem fcgiHeader_eq (type : UInt8) (requestId : ℕ) {contentLength : ℕ}
    (h : contentLength ≤ FCGI_MAX_LENGTH) :
    fcgiHeader type requestId contentLength 0 =
      some (FastCgi.header type requestId contentLength) := by
  rw [fcgiHeader, if_pos h]
  simp only [ofNat_and_255, Nat.shiftRight_eq_div_pow]
  rfl

/-- A record with a part of the body. -/
def stdinRecord (requestId : ℕ) (content : Bytes) : FastCgi.Record := ⟨5, requestId, content⟩

/-- A part of the body goes from the queue of the request to that of the backend, in records of
these contents. -/
structure PutsStdin (ctx ctx' : FcgiCtx) (contents : List Bytes) : Prop where
  bytes : ctx'.wb.bytes = ctx.wb.bytes ++
    FastCgi.encode (contents.map (stdinRecord ctx.requestId))
  bytesOut : ctx'.wb.bytesOut = ctx.wb.bytesOut
  requestId : ctx'.requestId = ctx.requestId
  pieces : ∀ c ∈ contents, c ≠ [] ∧ c.length ≤ FCGI_MAX_LENGTH
  moved : contents.flatten ++ ctx'.reqCq.bytes = ctx.reqCq.bytes
  reqlen : ctx'.wbReqlen = ctx.wbReqlen + 8 * contents.length

theorem PutsStdin.refl (ctx : FcgiCtx) : PutsStdin ctx ctx [] :=
  ⟨by simp, rfl, rfl, by simp, rfl, by simp⟩

theorem bytesOut_appendMem (cq : Chunkqueue) (mem : Bytes) :
    (chunkqueueAppendMem cq mem).bytesOut = cq.bytesOut := by
  unfold chunkqueueAppendMem
  split_ifs <;> rfl

theorem fcgiStdinLoop_spec :
    ∀ (n : ℕ) (ctx : FcgiCtx) (left : ℕ), ctx.reqCq.bytes.length = left → left ≤ n →
      0 ≤ ctx.wbReqlen →
      ∃ contents ctx', fcgiStdinLoop n ctx left = some ctx' ∧ PutsStdin ctx ctx' contents ∧
        ctx'.reqCq.bytes = []
  | n, ctx, 0, hleft, _, _ => by
    refine ⟨[], ctx, ?_, PutsStdin.refl ctx, List.length_eq_zero_iff.mp hleft⟩
    cases n <;> rfl
  | 0, ctx, left + 1, _, hn, _ => absurd hn (by omega)
  | n + 1, ctx, left + 1, hleft, hn, hreq => by
    obtain ⟨want, hwant, hpos, hle, hmax⟩ : ∃ want, (if left + 1 > FCGI_MAX_LENGTH then
        FCGI_MAX_LENGTH else left + 1) = want ∧ 0 < want ∧ want ≤ left + 1 ∧
        want ≤ FCGI_MAX_LENGTH := by
      unfold FCGI_MAX_LENGTH
      split_ifs with h
      · exact ⟨_, rfl, by omega, by omega, le_rfl⟩
      · exact ⟨_, rfl, by omega, le_rfl, by omega⟩
    have hcount : countHeader ctx.wbReqlen = ctx.wbReqlen + 8 := by
      unfold countHeader
      rw [if_pos (by omega), if_pos (by omega)]
    rw [fcgiStdinLoop]
    simp only [hwant, fcgiHeader_eq 5 ctx.requestId hmax, Option.bind_some]
    generalize hnext : FcgiCtx.mk _ _ _ _ = next
    have hcq : next.reqCq.bytes = ctx.reqCq.bytes.drop want := by
      rw [← hnext]
      simp
    have hwb : next.wb.bytes = ctx.wb.bytes ++ FastCgi.header 5 ctx.requestId want ++
        ctx.reqCq.bytes.take want := by
      rw [← hnext]
      simp
    have hout : next.wb.bytesOut = ctx.wb.bytesOut := by
      rw [← hnext]
      exact bytesOut_appendMem _ _
    have hid : next.requestId = ctx.requestId := by rw [← hnext]
    have hlen : next.wbReqlen = ctx.wbReqlen + 8 := by rw [← hnext, ← hcount]
    obtain ⟨contents, ctx', hrun, hputs, hempty⟩ := fcgiStdinLoop_spec n next (left + 1 - want)
      (by rw [hcq, List.length_drop, hleft]) (by omega) (by omega)
    have htake : (ctx.reqCq.bytes.take want).length = want := by
      rw [List.length_take, hleft]
      omega
    refine ⟨ctx.reqCq.bytes.take want :: contents, ctx', hrun, ⟨?_, ?_, ?_, ?_, ?_, ?_⟩, hempty⟩
    · rw [hputs.bytes, hwb, hid, List.map_cons, FastCgi.encode_cons, FastCgi.Record.encode]
      simp only [stdinRecord, htake, List.append_assoc]
    · rw [hputs.bytesOut, hout]
    · rw [hputs.requestId, hid]
    · intro c hc
      rcases List.mem_cons.mp hc with rfl | hc
      · exact ⟨List.ne_nil_of_length_pos (by omega), by omega⟩
      · exact hputs.pieces c hc
    · rw [List.flatten_cons, List.append_assoc, hputs.moved, hcq, List.take_append_drop]
    · rw [hputs.reqlen, hlen, List.length_cons]
      push_cast
      omega

/-! ## The stream -/

/-- The records of a request with these parts of the body, and the end of the body when it has
come. -/
def fcgiRecords (env : Bytes) (contents : List Bytes) (ended : Bool) : List FastCgi.Record :=
  [⟨1, 1, [0, 1, 0, 0, 0, 0, 0, 0]⟩, ⟨4, 1, env⟩, ⟨4, 1, []⟩] ++
    contents.map (stdinRecord 1) ++ if ended then [stdinRecord 1 []] else []

theorem fcgiRecords_append (env : Bytes) (contents contents' : List Bytes) :
    fcgiRecords env (contents ++ contents') false =
      fcgiRecords env contents false ++ contents'.map (stdinRecord 1) := by
  simp [fcgiRecords]

theorem fcgiRecords_end (env : Bytes) (contents : List Bytes) :
    fcgiRecords env contents true = fcgiRecords env contents false ++ [stdinRecord 1 []] := by
  simp [fcgiRecords]

variable {env body : Bytes} {contents : List Bytes}

theorem fcgiRecords_valid (henv : env.length ≤ FCGI_MAX_LENGTH)
    (h : ∀ c ∈ contents, c ≠ [] ∧ c.length ≤ FCGI_MAX_LENGTH) (ended : Bool) :
    ∀ r ∈ fcgiRecords env contents ended, r.Valid := by
  have hmax : FCGI_MAX_LENGTH < 2 ^ 16 := by decide
  have hid : 1 < 2 ^ 16 := by decide
  intro r hr
  simp only [fcgiRecords, List.mem_append, List.mem_cons, List.not_mem_nil, or_false] at hr
  rcases hr with ((rfl | rfl | rfl) | hr) | hr
  · exact ⟨hid, by decide⟩
  · exact ⟨hid, lt_of_le_of_lt henv hmax⟩
  · exact ⟨hid, by decide⟩
  · obtain ⟨c, hc, rfl⟩ := List.mem_map.mp hr
    exact ⟨hid, lt_of_le_of_lt (h c hc).2 hmax⟩
  · cases ended with
    | false => cases hr
    | true =>
      rw [List.mem_singleton.mp hr]
      exact ⟨hid, by decide⟩

/-- The bytes that were ever put on the queue to the backend. -/
def FcgiConn.stream (s : FcgiConn) : Bytes := s.sent ++ s.ctx.wb.bytes

/-- The records of the request are on their way up to these parts of the body, which are what
has arrived without what waits in `request_content_queue`; `wb_reqlen` counts the rest of the
body. -/
structure FcgiSent (body env arr : Bytes) (s : FcgiConn) (contents : List Bytes) (ended : Bool) :
    Prop where
  stream : s.stream = FastCgi.encode (fcgiRecords env contents ended)
  bytesOut : s.ctx.wb.bytesOut = s.sent.length
  requestId : s.ctx.requestId = 1
  pieces : ∀ c ∈ contents, c ≠ [] ∧ c.length ≤ FCGI_MAX_LENGTH
  moved : contents.flatten ++ s.ctx.reqCq.bytes = arr
  arrived : arr <+: body
  reqlen : s.ctx.wbReqlen = s.stream.length + (body.length - contents.flatten.length : ℤ)

namespace FcgiSent

variable {body env arr : Bytes} {s : FcgiConn} {contents : List Bytes} {ended : Bool}

theorem bytesIn_wb (h : FcgiSent body env arr s contents ended) :
    s.ctx.wb.bytesIn = s.stream.length := by
  rw [bytesIn_eq, h.bytesOut, FcgiConn.stream, List.length_append]

theorem flatten_isPrefix (h : FcgiSent body env arr s contents ended) :
    contents.flatten <+: body :=
  List.IsPrefix.trans ⟨_, h.moved⟩ h.arrived

theorem length_flatten_le (h : FcgiSent body env arr s contents ended) :
    contents.flatten.length ≤ body.length := h.flatten_isPrefix.length_le

theorem flatten_eq_iff (h : FcgiSent body env arr s contents ended) :
    contents.flatten = body ↔ s.ctx.wb.bytesIn = s.ctx.wbReqlen := by
  rw [h.reqlen, h.bytesIn_wb]
  have hle := h.length_flatten_le
  constructor
  · intro he
    rw [he]
    omega
  · intro he
    exact h.flatten_isPrefix.eq_of_length (by omega)

theorem terminate (h : FcgiSent body env arr s contents false) :
    ∃ ctx', terminateStdin s.ctx = some ctx' ∧
      FcgiSent body env arr { s with ctx := ctx' } contents (decide (contents.flatten = body)) := by
  by_cases hend : contents.flatten = body
  · have hcq := bytesOut_appendMem s.ctx.wb (FastCgi.header 5 1 0)
    refine ⟨{ s.ctx with
      wb := chunkqueueAppendMem s.ctx.wb (FastCgi.header 5 1 0)
      wbReqlen := s.ctx.wbReqlen + 8 }, ?_, ?_⟩
    · rw [terminateStdin, if_pos (h.flatten_eq_iff.mp hend), h.requestId,
        fcgiHeader_eq 5 1 (Nat.zero_le _)]
      simp [h.requestId]
    · have hstream : FcgiConn.stream { s with ctx := { s.ctx with
          wb := chunkqueueAppendMem s.ctx.wb (FastCgi.header 5 1 0)
          wbReqlen := s.ctx.wbReqlen + 8 } } = s.stream ++ FastCgi.header 5 1 0 := by
        simp [FcgiConn.stream]
      refine ⟨?_, hcq.trans h.bytesOut, h.requestId, h.pieces, h.moved, h.arrived, ?_⟩
      · rw [hstream, h.stream, decide_eq_true hend, fcgiRecords_end, FastCgi.encode_append]
        simp [FastCgi.Record.encode, stdinRecord]
      · change s.ctx.wbReqlen + 8 = _
        rw [hstream, h.reqlen, List.length_append, FastCgi.length_header]
        push_cast
        omega
  · refine ⟨s.ctx, ?_, ?_⟩
    · rw [terminateStdin, if_neg fun he => hend (h.flatten_eq_iff.mpr he)]
    · rw [decide_eq_false hend]
      exact h

/-- `fcgi_stdin_append` passes on what has arrived, and the end of the body with the last of it. -/
theorem stdinAppend (h : FcgiSent body env arr s contents false) :
    ∃ ctx' contents', fcgiStdinAppend s.ctx = some ctx' ∧ contents'.flatten = arr ∧
      FcgiSent body env arr { s with ctx := ctx' } contents'
        (decide (contents'.flatten = body)) := by
  have hreq : 0 ≤ s.ctx.wbReqlen := by
    rw [h.reqlen]
    have := h.length_flatten_le
    omega
  have hlen : s.ctx.reqCq.bytesIn - s.ctx.reqCq.bytesOut = s.ctx.reqCq.bytes.length := by
    rw [bytesIn_eq]
    omega
  obtain ⟨more, ctx', hrun, hputs, hempty⟩ := fcgiStdinLoop_spec _ s.ctx _ rfl le_rfl hreq
  have hsent : FcgiSent body env arr { s with ctx := ctx' } (contents ++ more) false := by
    have hstream : FcgiConn.stream { s with ctx := ctx' } =
        s.stream ++ FastCgi.encode (more.map (stdinRecord 1)) := by
      simp only [FcgiConn.stream]
      rw [hputs.bytes, h.requestId, List.append_assoc]
    have hpieces : (FastCgi.encode (more.map (stdinRecord 1))).length =
        8 * more.length + more.flatten.length := by
      rw [FastCgi.length_encode, List.length_map, List.length_flatten, List.map_map]
      rfl
    refine ⟨?_, hputs.bytesOut.trans h.bytesOut, hputs.requestId.trans h.requestId, ?_, ?_,
      h.arrived, ?_⟩
    · rw [hstream, h.stream, fcgiRecords_append, FastCgi.encode_append]
    · intro c hc
      exact (List.mem_append.mp hc).elim (h.pieces c) (hputs.pieces c)
    · rw [List.flatten_append, List.append_assoc, hputs.moved, h.moved]
    · change ctx'.wbReqlen = _
      rw [hputs.reqlen, h.reqlen, hstream, List.length_append, hpieces, List.flatten_append,
        List.length_append]
      push_cast
      omega
  have hall : (contents ++ more).flatten = arr := by
    rw [← hsent.moved, hempty, List.append_nil]
  obtain ⟨ctx'', hterm, hend⟩ := hsent.terminate
  refine ⟨ctx'', contents ++ more, ?_, hall, hend⟩
  rw [fcgiStdinAppend, hlen]
  simp only [hrun, Option.bind_some]
  exact hterm

theorem length_stream_pos (h : FcgiSent body env arr s contents ended) : 0 < s.stream.length := by
  rw [h.stream, FastCgi.length_encode]
  simp only [fcgiRecords, List.length_append, List.length_cons]
  omega

/-- `gw_handle_subrequest` passes on what has arrived, unless the backend is slow. -/
theorem subrequest (h : FcgiSent body env arr s contents (decide (contents.flatten = body)))
    (readPost : Bool) :
    ∃ ctx' contents', gwSubrequestBody readPost s.ctx = some ctx' ∧
      FcgiSent body env arr { s with ctx := ctx' } contents' (decide (contents'.flatten = body)) ∧
      (s.ctx.wb.bytesIn - s.ctx.wb.bytesOut ≤ 65536 - 4096 → contents'.flatten = arr) := by
  have hin : s.ctx.wb.bytesIn ≠ 0 := by
    rw [h.bytesIn_wb]
    exact h.length_stream_pos.ne'
  have hreq : 0 ≤ s.ctx.wbReqlen := by
    rw [h.reqlen]
    have := h.length_flatten_le
    omega
  simp only [gwSubrequestBody, if_neg hin]
  by_cases hmore : (s.ctx.wb.bytesIn : ℤ) < s.ctx.wbReqlen ∨ s.ctx.wbReqlen < 0
  · rw [if_pos hmore]
    by_cases hfull : s.ctx.wb.bytesIn - s.ctx.wb.bytesOut > 65536 - 4096
    · rw [if_pos hfull]
      exact ⟨s.ctx, contents, rfl, h, fun hle => absurd hle (by omega)⟩
    · rw [if_neg hfull]
      have hne : contents.flatten ≠ body := fun he => by
        have := h.flatten_eq_iff.mp he
        omega
      cases hempty : s.ctx.reqCq.isEmpty with
      | true =>
        rw [if_neg (by simp)]
        refine ⟨s.ctx, contents, rfl, h, fun _ => ?_⟩
        have hnil : s.ctx.reqCq.bytes = [] := by
          rw [Chunkqueue.bytes, List.isEmpty_iff.mp hempty]
          rfl
        rw [← h.moved, hnil, List.append_nil]
      | false =>
        rw [if_pos ⟨.inl hin, rfl⟩]
        rw [decide_eq_false hne] at h
        obtain ⟨ctx', contents', hrun, hall, hsent⟩ := h.stdinAppend
        exact ⟨ctx', contents', hrun, hsent, fun _ => hall⟩
  · rw [if_neg hmore]
    refine ⟨s.ctx, contents, rfl, h, fun _ => ?_⟩
    have he : contents.flatten = body := by
      rw [h.flatten_eq_iff]
      have := h.reqlen
      have := h.bytesIn_wb
      have := h.length_flatten_le
      omega
    refine List.IsPrefix.eq_of_length ⟨_, h.moved⟩ ?_
    have h1 := h.arrived.length_le
    have h2 := congrArg List.length h.moved
    rw [List.length_append] at h2
    rw [he] at h2 ⊢
    omega

theorem arrive (h : FcgiSent body env arr s contents ended) (c : Chunk)
    (hc : arr ++ c.remaining <+: body) :
    FcgiSent body env (arr ++ c.remaining)
      { s with ctx := { s.ctx with reqCq := chunkqueueAppendChunk s.ctx.reqCq c } } contents
      ended := by
  refine ⟨h.stream, h.bytesOut, h.requestId, h.pieces, ?_, hc, h.reqlen⟩
  rw [bytes_appendChunk, ← List.append_assoc, h.moved]

theorem backendWrite (h : FcgiSent body env arr s contents ended) (n : ℕ) :
    ∃ s', Lighttpd.backendWrite n s = some s' ∧ FcgiSent body env arr s' contents ended := by
  have hlen := chunkqueueLength_eq s.ctx.wb
  obtain ⟨wb, hwb⟩ := Option.isSome_iff_exists.mp ((markWritten_isSome_iff s.ctx.wb
    (min n (chunkqueueLength s.ctx.wb) : ℕ)).mpr ⟨by omega, by omega⟩)
  obtain ⟨-, hle, hbytes, hin, -⟩ := markWritten_eq_some hwb
  rw [Int.toNat_natCast] at hbytes
  refine ⟨{ ctx := { s.ctx with wb := chunkqueueRemoveFinishedChunks wb }
            sent := s.sent ++ s.ctx.wb.bytes.take (min n (chunkqueueLength s.ctx.wb)) },
    by simp only [Lighttpd.backendWrite, hwb, Option.map_some], ?_⟩
  have hstream : FcgiConn.stream
      { ctx := { s.ctx with wb := chunkqueueRemoveFinishedChunks wb }
        sent := s.sent ++ s.ctx.wb.bytes.take (min n (chunkqueueLength s.ctx.wb)) } = s.stream := by
    simp only [FcgiConn.stream, bytes_removeFinishedChunks, hbytes, List.append_assoc,
      List.take_append_drop]
  refine ⟨hstream.trans h.stream, ?_, h.requestId, h.pieces, h.moved, h.arrived, ?_⟩
  · have h1 := bytesIn_eq wb
    have h2 := h.bytesIn_wb
    have h3 := congrArg List.length hbytes
    change wb.bytesOut = _
    rw [List.length_drop] at h3
    rw [List.length_append, List.length_take]
    rw [FcgiConn.stream, List.length_append] at h2
    omega
  · rw [hstream]
    exact h.reqlen

theorem step (h : FcgiSent body env arr s contents (decide (contents.flatten = body)))
    (e : FcgiEvent) (he : arr ++ e.arrived <+: body) :
    ∃ s' contents', fcgiStep s e = some s' ∧
      FcgiSent body env (arr ++ e.arrived) s' contents' (decide (contents'.flatten = body)) := by
  cases e with
  | arrive c => exact ⟨_, contents, rfl, h.arrive c he⟩
  | subrequest readPost =>
    obtain ⟨ctx', contents', hrun, hsent, -⟩ := h.subrequest readPost
    refine ⟨{ s with ctx := ctx' }, contents', by simp [fcgiStep, hrun], ?_⟩
    simpa [FcgiEvent.arrived] using hsent
  | sent n =>
    obtain ⟨s', hrun, hsent⟩ := h.backendWrite n
    exact ⟨s', contents, hrun, by simpa [FcgiEvent.arrived] using hsent⟩

end FcgiSent

theorem FcgiSent.run :
    ∀ (es : List FcgiEvent) {arr : Bytes} {s : FcgiConn} {contents : List Bytes},
      FcgiSent body env arr s contents (decide (contents.flatten = body)) →
      arr ++ Lighttpd.arrived es <+: body →
      ∃ s' contents', fcgiRun s es = some s' ∧
        FcgiSent body env (arr ++ Lighttpd.arrived es) s' contents'
          (decide (contents'.flatten = body))
  | [], arr, s, contents, h, _ => ⟨s, contents, rfl, by simpa [Lighttpd.arrived] using h⟩
  | e :: es, arr, s, contents, h, harr => by
    have hcons : arr ++ Lighttpd.arrived (e :: es) =
        arr ++ e.arrived ++ Lighttpd.arrived es := by
      simp [Lighttpd.arrived]
    rw [hcons] at harr ⊢
    obtain ⟨s₁, contents₁, hstep, h₁⟩ := h.step e ((List.prefix_append _ _).trans harr)
    obtain ⟨s', contents', hrun, h'⟩ := FcgiSent.run es h₁ harr
    exact ⟨s', contents', by simp [fcgiRun, hstep, hrun], h'⟩

theorem length_fcgiLenEnc (len : ℕ) : (fcgiLenEnc len).length = if len > 127 then 4 else 1 := by
  unfold fcgiLenEnc
  split_ifs <;> rfl

theorem length_fcgiEnvAdd (h : env.length < FCGI_MAX_LENGTH) (key val : Option Bytes) :
    (fcgiEnvAdd env key val).1.length < FCGI_MAX_LENGTH := by
  unfold fcgiEnvAdd
  split
  · dsimp only
    split_ifs with hlen
    all_goals first | exact h | skip
    all_goals
      simp only [List.length_append, length_fcgiLenEnc]
      simp_all only [not_le, ge_iff_le, if_true, if_false]
      omega
  · exact h

theorem length_fcgiEnv :
    ∀ (vars : List (Option Bytes × Option Bytes)) {env : Bytes}, env.length < FCGI_MAX_LENGTH →
      (fcgiEnv env vars).1.length < FCGI_MAX_LENGTH
  | [], _, h => h
  | var :: vars, _, h => length_fcgiEnv vars (length_fcgiEnvAdd h var.1 var.2)

/-- The context of a request that nothing was sent for. -/
structure FreshCtx (ctx : FcgiCtx) : Prop where
  bytesIn : ctx.wb.bytesIn = 0
  requestId : ctx.requestId = 0

theorem FreshCtx.wb_bytes {ctx : FcgiCtx} (h : FreshCtx ctx) :
    ctx.wb.bytes = [] ∧ ctx.wb.bytesOut = 0 := by
  have h1 := bytesIn_eq ctx.wb
  have h2 := h.bytesIn
  exact ⟨List.length_eq_zero_iff.mp (by omega), by omega⟩

/-- `fcgi_create_env` answers 400 when the environment does not fit into one record, and else puts
the request on its way. -/
theorem fcgiCreateEnv_spec (vars : List (Option Bytes × Option Bytes)) {ctx : FcgiCtx}
    (hctx : FreshCtx ctx) (harr : ctx.reqCq.bytes <+: body) :
    (fcgiEnv [] vars).2 = false ∧
        fcgiCreateEnv 1 vars body.length ctx = some (.finished 400) ∨
      ∃ ctx' contents, fcgiCreateEnv 1 vars body.length ctx = some (.goOn ctx') ∧
        FcgiSent body (fcgiEnv [] vars).1 ctx.reqCq.bytes ⟨ctx', []⟩ contents
          (decide (contents.flatten = body)) := by
  have henv : (fcgiEnv [] vars).1.length ≤ FCGI_MAX_LENGTH :=
    (length_fcgiEnv vars (by decide)).le
  have hheader := fun t => fcgiHeader_eq t 1 (show 8 ≤ FCGI_MAX_LENGTH by decide)
  simp only [fcgiCreateEnv, hctx.requestId, if_true, hheader, Option.bind_some]
  cases hfits : (fcgiEnv [] vars).2 with
  | false => exact .inl ⟨rfl, by simp⟩
  | true =>
    right
    simp only [Bool.true_eq_false, if_false, fcgiHeader_eq 4 1 henv,
      fcgiHeader_eq 4 1 (Nat.zero_le _), Option.bind_some]
    generalize hb : FastCgi.header 1 1 8 ++ [0, 1, 0, 0, 0, 0, 0, 0] ++
      FastCgi.header 4 1 (fcgiEnv [] vars).1.length ++ (fcgiEnv [] vars).1 ++
        FastCgi.header 4 1 0 = b
    have hrecords : b = FastCgi.encode (fcgiRecords (fcgiEnv [] vars).1 [] false) := by
      rw [← hb]
      simp [fcgiRecords, FastCgi.Record.encode]
    have hreqlen : initialReqlen b.length body.length = b.length + body.length := by
      unfold initialReqlen
      split_ifs <;> omega
    have hstart : FcgiSent body (fcgiEnv [] vars).1 ctx.reqCq.bytes
        ⟨{ ctx with
            requestId := 1
            wb := chunkqueueAppendMem ctx.wb b
            wbReqlen := initialReqlen b.length body.length }, []⟩ [] false := by
      have hstream : FcgiConn.stream ⟨{ ctx with
          requestId := 1
          wb := chunkqueueAppendMem ctx.wb b
          wbReqlen := initialReqlen b.length body.length }, []⟩ = b := by
        simp [FcgiConn.stream, hctx.wb_bytes.1]
      refine ⟨hstream.trans hrecords, ?_, rfl, by simp, rfl, harr, ?_⟩
      · exact (bytesOut_appendMem ctx.wb b).trans hctx.wb_bytes.2
      · rw [hstream, hreqlen]
        simp
    obtain ⟨ctx', contents, hrun, -, hsent⟩ := hstart.stdinAppend
    exact ⟨ctx', contents, by simp [hrun], hsent⟩

/-- The bytes put on the queue to the backend are a FastCGI stream: the start of the request, its
environment, and records with these parts of the body, ended by an empty record when they are the
whole of it. Then, and only then, `wb_reqlen` is reached. -/
structure FcgiStream (body env : Bytes) (s : FcgiConn) (contents : List Bytes) : Prop where
  parse : FastCgi.parse s.stream =
    some (fcgiRecords env contents (decide (contents.flatten = body)))
  pieces : ∀ c ∈ contents, c ≠ [] ∧ c.length ≤ FCGI_MAX_LENGTH
  isPrefix : contents.flatten <+: body
  reqlen_eq : contents.flatten = body → s.ctx.wbReqlen = s.ctx.wb.bytesIn
  lt_reqlen : contents.flatten ≠ body → (s.ctx.wb.bytesIn : ℤ) < s.ctx.wbReqlen

theorem FcgiSent.fcgiStream {arr : Bytes} {s : FcgiConn} (henv : env.length ≤ FCGI_MAX_LENGTH)
    (h : FcgiSent body env arr s contents (decide (contents.flatten = body))) :
    FcgiStream body env s contents where
  parse := by rw [h.stream, FastCgi.parse_encode (fcgiRecords_valid henv h.pieces _)]
  pieces := h.pieces
  isPrefix := h.flatten_isPrefix
  reqlen_eq he := (h.flatten_eq_iff.mp he).symm
  lt_reqlen hne := by
    have h1 : ¬ (s.ctx.wb.bytesIn : ℤ) = s.ctx.wbReqlen := fun he =>
      hne (h.flatten_eq_iff.mpr he)
    have h2 := h.reqlen
    have h3 := h.bytesIn_wb
    have h4 := h.length_flatten_le
    omega

/-- For every body and however it arrives: unless the environment is too long, `wb` gets a FastCGI
stream, and when the whole body has arrived and the backend keeps up, the next call of
`gw_handle_subrequest` completes it. -/
theorem fcgiRun_stream (vars : List (Option Bytes × Option Bytes)) (body : Bytes) (ctx₀ : FcgiCtx)
    (es : List FcgiEvent) (hctx : FreshCtx ctx₀)
    (harr : ctx₀.reqCq.bytes ++ arrived es <+: body) :
    (fcgiEnv [] vars).2 = false ∧
        fcgiCreateEnv 1 vars body.length ctx₀ = some (.finished 400) ∨
      ∃ ctx s contents, fcgiCreateEnv 1 vars body.length ctx₀ = some (.goOn ctx) ∧
        fcgiRun ⟨ctx, []⟩ es = some s ∧ FcgiStream body (fcgiEnv [] vars).1 s contents ∧
        (ctx₀.reqCq.bytes ++ arrived es = body →
          s.ctx.wb.bytesIn - s.ctx.wb.bytesOut ≤ 65536 - 4096 → ∀ readPost,
          ∃ ctx' contents', gwSubrequestBody readPost s.ctx = some ctx' ∧
            FcgiStream body (fcgiEnv [] vars).1 { s with ctx := ctx' } contents' ∧
            contents'.flatten = body) := by
  have henv : (fcgiEnv [] vars).1.length ≤ FCGI_MAX_LENGTH :=
    (length_fcgiEnv vars (by decide)).le
  rcases fcgiCreateEnv_spec vars hctx ((List.prefix_append _ _).trans harr) with h | h
  · exact Or.inl h
  · right
    obtain ⟨ctx, contents, hcreate, hstart⟩ := h
    obtain ⟨s, contents', hrun, hsent⟩ := hstart.run es harr
    refine ⟨ctx, s, contents', hcreate, hrun, hsent.fcgiStream henv, fun hall hback readPost => ?_⟩
    obtain ⟨ctx', contents'', hsub, hsent', hflat⟩ := hsent.subrequest readPost
    exact ⟨ctx', contents'', hsub, hsent'.fcgiStream henv, (hflat hback).trans hall⟩

/-- A context of a request whose body begins with these bytes. -/
def freshCtx (start : Bytes) : FcgiCtx where
  wb := chunkqueueInit 1048576 0
  wbReqlen := 0
  requestId := 0
  reqCq := chunkqueueAppendMem (chunkqueueInit 1048576 0) start

theorem freshCtx_fresh (start : Bytes) : FreshCtx (freshCtx start) := ⟨rfl, rfl⟩

/-- A body of two bytes that arrive one by one. -/
theorem fcgiRun_stream_twoBytes :
    (fcgiEnv [] [(some (str "A"), some (str "b"))]).2 = false ∧
        fcgiCreateEnv 1 [(some (str "A"), some (str "b"))] (str "xy").length (freshCtx (str "x")) =
          some (.finished 400) ∨
      ∃ ctx s contents,
        fcgiCreateEnv 1 [(some (str "A"), some (str "b"))] (str "xy").length (freshCtx (str "x")) =
          some (.goOn ctx) ∧
        fcgiRun ⟨ctx, []⟩ [.sent 20, .arrive (.ofMem (str "y"))] = some s ∧
        FcgiStream (str "xy") (fcgiEnv [] [(some (str "A"), some (str "b"))]).1 s contents ∧
        ((freshCtx (str "x")).reqCq.bytes ++ arrived [.sent 20, .arrive (.ofMem (str "y"))] =
            str "xy" →
          s.ctx.wb.bytesIn - s.ctx.wb.bytesOut ≤ 65536 - 4096 → ∀ readPost,
          ∃ ctx' contents', gwSubrequestBody readPost s.ctx = some ctx' ∧
            FcgiStream (str "xy") (fcgiEnv [] [(some (str "A"), some (str "b"))]).1
              { s with ctx := ctx' } contents' ∧ contents'.flatten = str "xy") :=
  fcgiRun_stream [(some (str "A"), some (str "b"))] (str "xy") (freshCtx (str "x"))
    [.sent 20, .arrive (.ofMem (str "y"))] (freshCtx_fresh (str "x")) (by decide +kernel)

end Lighttpd
