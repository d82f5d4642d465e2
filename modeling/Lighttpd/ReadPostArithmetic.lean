import Lighttpd.ReadPostLines

/-!
# The arithmetic of chunk sizes

The digits of a chunk size are read as long as the number fits in `off_t`. Behind them two is added
for the CRLF behind the octets, and the octets received so far are, and neither sum is checked when
`max_request_size` is zero. `chunkArithmetic_iff` says that every call stays in `off_t` and ends, over
any reads and calls, exactly when these sums fit for every header the call reads.
-/

namespace Lighttpd

open CString ChunkedCoding

/-! ## The values of a call -/

/-- `te_chunked` and its sum with the octets of the body received so far are in `off_t`. -/
structure InOffT (con : ReadPostCon) (te : ℤ) : Prop where
  nonneg : 0 ≤ te
  sum_lt : con.requestContentQueue.bytesIn + te < 2 ^ 63

/-- The states at the top of the loop in a call that starts in `con₀`. -/
inductive LoopState (conf : ReadPostConf) (con₀ : ReadPostCon) : ReadPostCon → ℤ → Prop
  | start : LoopState conf con₀ con₀ con₀.teChunked
  | turn {con con' : ReadPostCon} {te te' : ℤ} (h : LoopState conf con₀ con te)
      (hturn : readPostTurn conf con te = .run con' te') (more : con'.readQueue.isEmpty ≠ true) :
      LoopState conf con₀ con' te'

/-- An iteration of the loop stays in `off_t`: the digits of a size, `te_chunked` behind a header,
and at the end. If the loop goes on, it has consumed a byte or `te_chunked` is nearer to zero. -/
structure TurnInOffT (conf : ReadPostConf) (con : ReadPostCon) (te : ℤ) : Prop where
  top : InOffT con te
  digits : te = 0 → ∀ c ∈ con.readQueue.chunks.head?, ∀ r, chunkSizeLoop 0 c.remaining = some r →
    r.1 < 2 ^ 63
  header : te = 0 → ∀ con' te',
    readChunkHeader conf (con.readQueue.chunks.length + 1) con = .run con' te' → InOffT con' te'
  run : ∀ con' te', readPostTurn conf con te = .run con' te' → InOffT con' te'
  leave : ∀ con' te', readPostTurn conf con te = .leave con' te' → InOffT con' te'
  progress : ∀ con' te', readPostTurn conf con te = .run con' te' →
    con'.readQueue.bytes.length < con.readQueue.bytes.length ∨ te' < te

/-- Every iteration of a call stays in `off_t`, and the call ends. -/
structure ChunkArithmetic (conf : ReadPostConf) (con₀ : ReadPostCon) : Prop where
  turns : ∀ con te, LoopState conf con₀ con te → TurnInOffT conf con te
  ends : ∃ turns r, connectionHandleReadPostChunked conf turns con₀ = some r

/-- Without a limit for the body, two can be added to the size in the chunk header at the front, and
the octets received so far. -/
def SizeFits (conf : ReadPostConf) (con : ReadPostCon) (te : ℤ) : Prop :=
  conf.maxRequestSize = 0 → te = 0 → ∀ size hsz, chunkHeader con.readQueue.bytes = .size size hsz →
    con.requestContentQueue.bytesIn + size + 2 < 2 ^ 63

/-- What holds at the top of the loop. -/
structure AtTop (con : ReadPostCon) (te : ℤ) : Prop extends InOffT con te where
  arranged : ∃ e, Arranged e con.readQueue.chunks
  whole : te = 0 ∨ ∃ n : ℕ, te = n + 2

section Turn

variable {conf : ReadPostConf} {con con' con₀ : ReadPostCon} {te te' : ℤ}

theorem chunkHeader_size_lt {b : Bytes} {size hsz : ℕ} (h : chunkHeader b = .size size hsz) :
    size < 2 ^ 63 := by
  unfold chunkHeader at h
  split at h
  · split_ifs at h
  · next p hp =>
    split at h
    · cases h
    · split at h <;> cases h
    · next te hte hsize =>
      cases h
      rw [chunkSize] at hsize
      cases hloop : chunkSizeLoop 0 b with
      | none =>
        rw [hloop] at hsize
        cases hsize
      | some r =>
        rw [hloop] at hsize
        dsimp only at hsize
        split_ifs at hsize
        cases hsize
        obtain ⟨-, -, -, -, hsmall⟩ := chunkSizeLoop_eq_some (by decide) hloop
        exact hsmall

/-- With a limit for the body the sum of the size and the octets received is below it. -/
theorem sum_of_short {size bytesIn : ℕ} (hlimit : conf.maxRequestSize ≠ 0)
    (short : requestTooLong conf bytesIn size = false) : bytesIn + size + 2 < 2 ^ 63 := by
  have hmax := conf.maxRequestSize_lt
  have hshift : conf.maxRequestSize <<< 10 = conf.maxRequestSize * 1024 := Nat.shiftLeft_eq _ _
  simp only [requestTooLong, hshift, decide_eq_false_iff_not, not_and_or, not_or, not_lt, ne_eq,
    not_not, mul_eq_zero, hlimit, false_or, OfNat.ofNat_ne_zero] at short
  omega

theorem inOffT_of_size {size hsz : ℕ} (fits : SizeFits conf con 0)
    (header : chunkHeader con.readQueue.bytes = .size size hsz)
    (short : requestTooLong conf con.requestContentQueue.bytesIn size = false) (q : Chunkqueue) :
    InOffT { con with readQueue := q } (wrap64 (size + 2)) ∧ wrap64 (size + 2) = size + 2 := by
  have hsum : con.requestContentQueue.bytesIn + size + 2 < 2 ^ 63 := by
    by_cases hlimit : conf.maxRequestSize = 0
    · exact fits hlimit rfl size hsz header
    · exact sum_of_short hlimit short
  have hwrap : wrap64 (size + 2) = size + 2 := by
    rw [wrap64, Int.bmod_eq_of_le] <;> omega
  rw [hwrap]
  refine ⟨⟨by omega, ?_⟩, rfl⟩
  change (con.requestContentQueue.bytesIn : ℤ) + (size + 2) < 2 ^ 63
  omega

/-- The header whose size leaves `off_t`. -/
theorem sizeFits_of_header (h : AtTop con 0)
    (hheader : ∀ con' te', readChunkHeader conf (con.readQueue.chunks.length + 1) con = .run con' te' →
      InOffT con' te') : SizeFits conf con 0 := by
  rintro hlimit - size hsz header
  obtain ⟨e, harr⟩ := h.arranged
  have hspec := headerTurn_readChunkHeader conf harr
  have hsize := chunkHeader_size_lt header
  have hshort : requestTooLong conf con.requestContentQueue.bytesIn size = false := by
    simp [requestTooLong, hlimit]
  obtain ⟨q, hph, -⟩ := hspec.inv_size header hshort
  obtain ⟨hnonneg, hsum⟩ := hheader _ _ hph
  have hwrap : wrap64 (size + 2) = size + 2 := by
    by_contra hne
    have hbig : 2 ^ 63 ≤ (size : ℤ) + 2 := by
      by_contra hlt
      exact hne (by rw [wrap64, Int.bmod_eq_of_le] <;> omega)
    have hneg : wrap64 (size + 2) = size + 2 - 2 ^ 64 := by
      rw [wrap64, ← Int.sub_bmod_right, Int.bmod_eq_of_le] <;> omega
    omega
  rw [hwrap] at hsum
  change (con.requestContentQueue.bytesIn : ℤ) + (size + 2) < 2 ^ 63 at hsum
  omega

/-- What a part of the loop leads to: a state with less than `k` bytes to read at the top, one between
two calls, or a return that is not `HANDLER_GO_ON`. -/
structure Leads (k : ℕ) (ph : Phase) : Prop where
  run : ∀ con' te', ph = .run con' te' → AtTop con' te' ∧ con'.readQueue.bytes.length < k
  leave : ∀ con' te', ph = .leave con' te' → AtTop con' te'
  stop : ∀ con', ph ≠ .stop (.goOn con')

theorem leads_stop {r : ReadPostResult} (k : ℕ) (hr : ∀ con', r ≠ .goOn con') : Leads k (.stop r) where
  run _ _ h := by cases h
  leave _ _ h := by cases h
  stop con' h := by
    cases h
    exact hr con' rfl

theorem leads_error (k : ℕ) (con : ReadPostCon) (httpStatus : ℕ) :
    Leads k (.stop (connectionHandleReadPostError con httpStatus)) :=
  leads_stop k (connectionHandleReadPostError_ne con httpStatus).1

theorem leads_leave (k : ℕ) (h : AtTop con te) : Leads k (.leave con te) where
  run _ _ heq := by cases heq
  leave _ _ heq := by
    cases heq
    exact h
  stop _ heq := by cases heq

theorem leads_run {k : ℕ} (h : AtTop con te) (hk : con.readQueue.bytes.length < k) :
    Leads k (.run con te) where
  run _ _ heq := by
    cases heq
    exact ⟨h, hk⟩
  leave _ _ heq := by cases heq
  stop _ heq := by cases heq

/-- What was moved is added to the octets received, and taken from `te_chunked`. -/
theorem Moved.sum {m k : ℕ} (h : Moved con m k con') (hm : m ≤ con.readQueue.bytes.length) :
    con'.requestContentQueue.bytesIn = con.requestContentQueue.bytesIn + m := by
  rw [h.stored.2, List.length_take, min_eq_left hm]

theorem readChunk_leads {e : Bool} {n k : ℕ} (harr : Arranged e con.readQueue.chunks)
    (h : InOffT con (n + 2)) (hk : con.readQueue.bytes.length ≤ k) :
    Leads k (readChunk con (n + 2)) := by
  obtain ⟨-, hsum⟩ := h
  have hdata := readChunk_spec harr n
  generalize readChunk con (n + 2) = ph at hdata
  cases hdata with
  | short con' hlen moved =>
    have hin := moved.sum (min_le_left _ _)
    refine leads_leave k ⟨⟨by omega, ?_⟩, ⟨e, moved.arranged e harr⟩, .inr ?_⟩
    · rw [hin]
      push_cast
      omega
    · exact ⟨n - min con.readQueue.bytes.length n, by push_cast; omega⟩
  | failed con' hio => exact leads_error k con' 500
  | noCrlf con' hlen hcrlf => exact leads_error k con' 400
  | crlf con' hlen hcrlf moved =>
    have hin := moved.sum (by omega)
    refine leads_run ⟨⟨le_rfl, by omega⟩, ⟨e, moved.arranged e harr⟩, .inl rfl⟩ ?_
    rw [moved.bytes, List.length_drop]
    omega

theorem readPostTurn_leads (h : AtTop con te) (fits : SizeFits conf con te) :
    Leads con.readQueue.bytes.length (readPostTurn conf con te) := by
  obtain ⟨e, harr⟩ := h.arranged
  rcases h.whole with rfl | ⟨n, rfl⟩
  · obtain ⟨ph, hturn, hheader⟩ := readPostTurn_header conf harr
    rw [hturn]
    cases hheader with
    | incomplete q header bytes arranged =>
      exact leads_leave _ ⟨⟨le_rfl, h.sum_lt⟩, arranged, .inl rfl⟩
    | refused q header => exact leads_error _ _ 400
    | unfinished q header uncut bytes arranged =>
      exact leads_leave _ ⟨⟨le_rfl, h.sum_lt⟩, arranged, .inl rfl⟩
    | cut r header cuts hr =>
      exact leads_stop _ fun con' heq => by rcases hr with rfl | rfl <;> cases heq
    | last q hsz header bytes arranged =>
      exact leads_leave _ ⟨⟨le_rfl, h.sum_lt⟩, arranged, .inl rfl⟩
    | tooLong q size hsz header => exact leads_error _ _ 413
    | size q size hsz header short bytes arranged =>
      obtain ⟨hin, hwrap⟩ := inOffT_of_size fits header short q
      rw [hwrap] at hin ⊢
      refine readChunk_leads arranged hin ?_
      rw [bytes, List.length_drop]
      omega
  · rw [readPostTurn_data]
    exact readChunk_leads harr h.toInOffT le_rfl

/-- An iteration stays in `off_t` exactly when the size of the header it reads fits. -/
theorem turnInOffT_iff (h : AtTop con te) : TurnInOffT conf con te ↔ SizeFits conf con te := by
  constructor
  · intro hturn hlimit hte
    subst hte
    exact sizeFits_of_header h (hturn.header rfl) hlimit rfl
  · intro fits
    have hleads := readPostTurn_leads h fits
    refine ⟨h.toInOffT, fun _ c _ r hr => ?_, fun hte con' te' hph => ?_, fun con' te' hrun =>
      (hleads.run con' te' hrun).1.toInOffT, fun con' te' hleave =>
      (hleads.leave con' te' hleave).toInOffT, fun con' te' hrun =>
      .inl (hleads.run con' te' hrun).2⟩
    · obtain ⟨-, -, -, -, hsmall⟩ := chunkSizeLoop_eq_some (by decide) hr
      exact hsmall
    · subst hte
      obtain ⟨e, harr⟩ := h.arranged
      have hheader := headerTurn_readChunkHeader conf harr
      rw [hph] at hheader
      generalize hphase : Phase.run con' te' = ph at hheader
      cases hheader with
      | size q size hsz header short =>
        cases hphase
        exact (inOffT_of_size fits header short q).1
      | _ => cases hphase

end Turn

section Call

variable {conf : ReadPostConf} {con con₀ : ReadPostCon} {te : ℤ}

theorem LoopState.atTop (h : LoopState conf con₀ con te) (h₀ : AtTop con₀ con₀.teChunked)
    (hfits : ∀ con te, LoopState conf con₀ con te → AtTop con te → SizeFits conf con te) :
    AtTop con te := by
  induction h with
  | start => exact h₀
  | turn h hturn more ih => exact ((readPostTurn_leads ih (hfits _ _ h ih)).run _ _ hturn).1

/-- The loop ends. The induction is on the bytes of the read queue. -/
theorem LoopState.ends (h₀ : AtTop con₀ con₀.teChunked)
    (hfits : ∀ con te, LoopState conf con₀ con te → SizeFits conf con te) (k : ℕ) :
    ∀ {con te}, con.readQueue.bytes.length = k → LoopState conf con₀ con te →
      ∃ turns r, readPostLoop conf turns con te = some r := by
  induction k using Nat.strong_induction_on with
  | _ k ih =>
    rintro con te rfl h
    have htop := h.atTop h₀ fun con te h _ => hfits con te h
    cases hturn : readPostTurn conf con te with
    | run con' te' =>
      by_cases hempty : con'.readQueue.isEmpty = true
      · exact ⟨1, _, readPostLoop_run_nil hturn hempty 0⟩
      · obtain ⟨-, hlt⟩ := (readPostTurn_leads htop (hfits _ _ h)).run _ _ hturn
        obtain ⟨turns, r, hloop⟩ := ih _ hlt rfl (.turn h hturn hempty)
        exact ⟨turns + 1, r, (readPostLoop_run hturn hempty turns).trans hloop⟩
    | leave con' te' => exact ⟨1, _, readPostLoop_leave hturn⟩
    | stop r => exact ⟨1, r, by rw [readPostLoop, hturn]⟩

theorem LoopState.of_goOn {con' : ReadPostCon} {turns : ℕ} (h : LoopState conf con₀ con te)
    (h₀ : AtTop con₀ con₀.teChunked)
    (hfits : ∀ con te, LoopState conf con₀ con te → SizeFits conf con te)
    (hloop : readPostLoop conf turns con te = some (.goOn con')) : AtTop con' con'.teChunked := by
  induction turns generalizing con te with
  | zero => exact absurd hloop (by simp [readPostLoop])
  | succ turns ih =>
    have htop := h.atTop h₀ fun con te h _ => hfits con te h
    have hleads := readPostTurn_leads htop (hfits _ _ h)
    cases hturn : readPostTurn conf con te with
    | run con'' te'' =>
      obtain ⟨hrun, -⟩ := hleads.run _ _ hturn
      by_cases hempty : con''.readQueue.isEmpty = true
      · rw [readPostLoop_run_nil hturn hempty] at hloop
        cases hloop
        exact ⟨⟨hrun.nonneg, hrun.sum_lt⟩, hrun.arranged, hrun.whole⟩
      · rw [readPostLoop_run hturn hempty] at hloop
        exact ih (.turn h hturn hempty) hloop
    | leave con'' te'' =>
      have hleave := hleads.leave _ _ hturn
      rw [readPostLoop, hturn] at hloop
      cases hloop
      exact ⟨⟨hleave.nonneg, hleave.sum_lt⟩, hleave.arranged, hleave.whole⟩
    | stop r =>
      rw [readPostLoop, hturn, Option.some_inj] at hloop
      exact absurd (hloop ▸ hturn) (hleads.stop con')

/-- With a negative `te_chunked` and bytes in the read queue the loop does not end. -/
theorem readPostLoop_stuck (hte : te < 0) (more : con.readQueue.isEmpty ≠ true) (turns : ℕ) :
    readPostLoop conf turns con te = none := by
  have hturn : readPostTurn conf con te = .run con te := by
    rw [readPostTurn, if_neg (by omega)]
    exact readChunk_neg hte
  induction turns with
  | zero => rfl
  | succ turns ih => rw [readPostLoop_run hturn more, ih]

end Call

/-- The sizes of all headers that a call reads fit. -/
def SizesFit (conf : ReadPostConf) (con₀ : ReadPostCon) : Prop :=
  ∀ con te, LoopState conf con₀ con te → SizeFits conf con te

/-- The connections between the calls of a request: a read puts bytes behind those of the read
queue, and anything may happen to other fields; a call met only sizes that fit. -/
inductive ReadPostRun : ReadPostCon → Prop
  | start (con : ReadPostCon) (teChunked : con.teChunked = 0)
      (received : con.requestContentQueue.bytesIn < 2 ^ 63)
      (arranged : ∃ e, Arranged e con.readQueue.chunks) : ReadPostRun con
  | read {con : ReadPostCon} (con' : ReadPostCon) (h : ReadPostRun con)
      (teChunked : con'.teChunked = con.teChunked)
      (received : con'.requestContentQueue.bytesIn = con.requestContentQueue.bytesIn)
      (bytes : con.readQueue.bytes <+: con'.readQueue.bytes)
      (arranged : ∃ e, Arranged e con'.readQueue.chunks) : ReadPostRun con'
  | call {con : ReadPostCon} (con' : ReadPostCon) (conf : ReadPostConf) (turns : ℕ)
      (h : ReadPostRun con) (fits : SizesFit conf con)
      (goOn : connectionHandleReadPostChunked conf turns con = some (.goOn con')) :
      ReadPostRun con'

theorem ReadPostRun.atTop {con : ReadPostCon} (h : ReadPostRun con) : AtTop con con.teChunked := by
  induction h with
  | start con teChunked received arranged =>
    rw [teChunked]
    exact ⟨⟨le_rfl, by omega⟩, arranged, .inl rfl⟩
  | read con' h teChunked received bytes arranged ih =>
    rw [teChunked]
    exact ⟨⟨ih.nonneg, received ▸ ih.sum_lt⟩, arranged, ih.whole⟩
  | call con' conf turns h fits goOn ih => exact LoopState.start.of_goOn ih fits goOn

/-- Over any reads and calls, a call stays in `off_t` and ends exactly when the sizes it reads fit.
With a limit for the body they always do. -/
theorem chunkArithmetic_iff (conf : ReadPostConf) (con : ReadPostCon) (h : ReadPostRun con) :
    ChunkArithmetic conf con ↔ SizesFit conf con := by
  have h₀ := h.atTop
  constructor
  · rintro ⟨hturns, -⟩ con' te hstate
    refine (turnInOffT_iff (hstate.atTop h₀ fun con'' te' hs htop => ?_)).mp (hturns con' te hstate)
    exact (turnInOffT_iff htop).mp (hturns con'' te' hs)
  · intro fits
    refine ⟨fun con' te hstate => ?_, ?_⟩
    · have htop := hstate.atTop h₀ fun con'' te' hs _ => fits con'' te' hs
      exact (turnInOffT_iff htop).mpr (fits con' te hstate)
    · exact LoopState.ends h₀ fits _ rfl .start

/-- Bodies of up to 1 kByte. -/
theorem chunkArithmetic_limited :
    ChunkArithmetic ⟨1, 8, 4096, false, by decide, by decide⟩
      (chunkedBodyCon (str "5\r\nhello\r\n0\r\n\r\n")) := by
  have harr : Arranged false
      (chunkedBodyCon (str "5\r\nhello\r\n0\r\n\r\n")).readQueue.chunks := ⟨rfl, by decide⟩
  exact (chunkArithmetic_iff _ _ (.start _ rfl (by decide) ⟨false, harr⟩)).mpr
    fun _ _ _ hlimit => absurd hlimit (by decide)

/-- A chunk of 2^63-2 octets: the call does not end. -/
theorem not_chunkArithmetic :
    ReadPostRun (chunkedBodyCon (str "7ffffffffffffffe\r\nx")) ∧
      ¬ ChunkArithmetic smallFieldConf (chunkedBodyCon (str "7ffffffffffffffe\r\nx")) := by
  have harr : Arranged false (chunkedBodyCon (str "7ffffffffffffffe\r\nx")).readQueue.chunks :=
    ⟨rfl, by decide⟩
  refine ⟨.start _ rfl (by decide) ⟨false, harr⟩, fun ⟨_, turns, r, hr⟩ => ?_⟩
  obtain ⟨ph, hturn, hheader⟩ := readPostTurn_header smallFieldConf harr
  obtain ⟨q, rfl, hq, -⟩ := hheader.inv_size
    (show chunkHeader _ = .size (2 ^ 63 - 2) 18 by decide) (by decide)
  have hwrap : wrap64 ((2 ^ 63 - 2 : ℕ) + 2) < 0 := by decide
  rw [Phase.andThen, readChunk_neg hwrap] at hturn
  have more : q.isEmpty ≠ true := fun hempty => by
    have := bytes_of_isEmpty hempty
    rw [hq] at this
    exact absurd this (by decide)
  cases turns with
  | zero => cases hr
  | succ turns =>
    rw [connectionHandleReadPostChunked] at hr
    have hloop := readPostLoop_run hturn more turns
    rw [readPostLoop_stuck hwrap more] at hloop
    exact absurd (hloop.symm.trans hr) (by simp)

end Lighttpd
