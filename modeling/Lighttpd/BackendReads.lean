import Lighttpd.BackendHead

/-!
# Cuts in the response of a backend

Once the first read has shown how the response begins, nothing that follows changes the case of
`http_response_parse_headers`, and the head ends where it ends in the whole text. The client then
gets the same however the rest is cut. A first read that ends before the first colon or line feed
decides too early.
-/

namespace Lighttpd

open CString

/-! ## The head of a longer text -/

variable {p q s b : Bytes} {i k : ℕ} {opts : HttpResponseOpts} {con : ResponseCon} {r : BackendCon}

theorem cspnColonLF_append (h : p[cspnColonLF p]? = some 58) (q : Bytes) :
    cspnColonLF (p ++ q) = cspnColonLF p := by
  have hlt : cspnColonLF p < p.length := (List.getElem?_eq_some_iff.mp h).1
  have hne : p.takeWhile (fun c => decide (c ≠ 0 ∧ c ≠ 58 ∧ c ≠ LF)) ≠ p := by
    intro heq
    rw [cspnColonLF, heq] at hlt
    exact lt_irrefl _ hlt
  rw [cspnColonLF, List.takeWhile_append, if_neg]
  · rfl
  · intro hlen
    exact hne (List.IsPrefix.eq_of_length (List.takeWhile_prefix _) hlen)

theorem isNph_append (h : 7 ≤ p.length) (q : Bytes) : isNph (p ++ q) = isNph p := by
  rw [isNph, isNph, List.take_append_of_le_length h]

theorem length_of_isNph (h : isNph p) : 7 ≤ p.length := by
  have hlen := congrArg List.length (of_decide_eq_true h)
  rw [List.length_take] at hlen
  have h7 : (str "HTTP/1.").length = 7 := by decide
  omega

/-- No colon comes before the end of `HTTP/1.`. -/
theorem not_isNph_append (hcolon : (58 : UInt8) ∈ p) (h : isNph p = false) (q : Bytes) :
    isNph (p ++ q) = false := by
  by_cases hlen : 7 ≤ p.length
  · rw [isNph_append hlen, h]
  · refine decide_eq_false fun heq => ?_
    rw [List.take_append, List.take_of_length_le (by omega)] at heq
    have hmem : (58 : UInt8) ∈ str "HTTP/1." := by
      rw [← heq]
      exact List.mem_append_left _ hcolon
    exact absurd hmem (by decide)

theorem head_of_isNph (h : isNph p) : p.head? = some 72 := by
  have htake : p.take 7 = str "HTTP/1." := of_decide_eq_true h
  cases p with
  | nil => exact absurd htake (by decide)
  | cons c p => exact congrArg List.head? htake

theorem headKind_lf (h : p.head? = some LF) : headKind p = .noHeaders 0 := by
  rw [headKind, if_pos h]

theorem headKind_crlf (h : p.head? = some CR) (h1 : p[1]? = some LF) :
    headKind p = .noHeaders 1 := by
  rw [headKind, if_neg (by rw [h]; decide), if_pos ⟨h, h1⟩]

theorem headKind_nph (h : isNph p) : headKind p = .headers 0 := by
  have hhead := head_of_isNph h
  rw [headKind, if_neg (by rw [hhead]; decide),
    if_neg fun hc => absurd (hhead.symm.trans hc.1) (by decide), if_pos h]

theorem headKind_colon (h : p[cspnColonLF p]? = some 58) (hnph : ¬ isNph p) :
    headKind p = .headers (cspnColonLF p) := by
  have hlf : p.head? ≠ some LF := by
    intro hlf
    obtain ⟨p, rfl⟩ := List.head?_eq_some_iff.mp hlf
    exact absurd h (by simp +decide [cspnColonLF])
  have hcrlf : ¬ (p.head? = some CR ∧ p[1]? = some LF) := by
    rintro ⟨hcr, hlf⟩
    obtain ⟨p, rfl⟩ := List.head?_eq_some_iff.mp hcr
    cases p with
    | nil => simp at hlf
    | cons c p =>
      obtain rfl : c = LF := by simpa using hlf
      exact absurd h (by simp +decide [cspnColonLF])
  rw [headKind, if_neg hlf, if_neg hcrlf, if_neg hnph, if_pos h]

theorem headKind_cases (p : Bytes) : p.head? = some LF ∨ p.head? = some CR ∧ p[1]? = some LF ∨
    isNph p ∨ p[cspnColonLF p]? = some 58 ∧ ¬ isNph p ∨ headKind p = .other := by
  unfold headKind
  split_ifs with hlf hcrlf hnph hcolon
  · exact .inl hlf
  · exact .inr (.inl hcrlf)
  · exact .inr (.inr (.inl hnph))
  · exact .inr (.inr (.inr (.inl ⟨hcolon, hnph⟩)))
  · exact .inr (.inr (.inr (.inr rfl)))

theorem headKind_append (h : headKind p ≠ .other) (q : Bytes) : headKind (p ++ q) = headKind p := by
  have hhead : ∀ {c}, p.head? = some c → (p ++ q).head? = some c := fun hc => by
    rw [List.head?_append, hc, Option.some_or]
  rcases headKind_cases p with hlf | ⟨hcr, hlf⟩ | hnph | ⟨hcolon, hnph⟩ | hother
  · rw [headKind_lf hlf, headKind_lf (hhead hlf)]
  · have hlf' : (p ++ q)[1]? = some LF := by
      rw [List.getElem?_append_left (List.getElem?_eq_some_iff.mp hlf).1, hlf]
    rw [headKind_crlf hcr hlf, headKind_crlf (hhead hcr) hlf']
  · rw [headKind_nph hnph, headKind_nph (by rw [isNph_append (length_of_isNph hnph)]; exact hnph)]
  · have hspan := cspnColonLF_append hcolon q
    have hnph' := not_isNph_append (List.mem_of_getElem? hcolon) (by simpa using hnph) q
    have hcolon' : (p ++ q)[cspnColonLF (p ++ q)]? = some 58 := by
      rw [hspan, List.getElem?_append_left (List.getElem?_eq_some_iff.mp hcolon).1, hcolon]
    rw [headKind_colon hcolon hnph, headKind_colon hcolon' (by simp [hnph']), hspan]
  · exact absurd hother h

theorem isNph_append_of_headKind (h : headKind p ≠ .other) (q : Bytes) :
    isNph (p ++ q) = isNph p := by
  have hfalse : ∀ {c : UInt8} {s : Bytes}, s.head? = some c → c ≠ 72 → isNph s = false := by
    intro c s hc hne
    rw [Bool.eq_false_iff]
    intro hnph
    exact hne (Option.some.inj (hc.symm.trans (head_of_isNph hnph)))
  have hhead : ∀ {c}, p.head? = some c → (p ++ q).head? = some c := fun hc => by
    rw [List.head?_append, hc, Option.some_or]
  rcases headKind_cases p with hlf | ⟨hcr, -⟩ | hnph | ⟨hcolon, hnph⟩ | hother
  · rw [hfalse hlf (by decide), hfalse (hhead hlf) (by decide)]
  · rw [hfalse hcr (by decide), hfalse (hhead hcr) (by decide)]
  · exact isNph_append (length_of_isNph hnph) q
  · have hfalse : isNph p = false := by simpa using hnph
    rw [hfalse, not_isNph_append (List.mem_of_getElem? hcolon) hfalse q]
  · exact absurd hother h

theorem headEndLoop_append (q : Bytes) : ∀ {lastEol i : ℕ} {prev : UInt8} {k : ℕ},
    headEndLoop lastEol i prev p = some k → headEndLoop lastEol i prev (p ++ q) = some k := by
  induction p with
  | nil => intro lastEol i prev k h; cases h
  | cons c p ih =>
    intro lastEol i prev k h
    rw [headEndLoop] at h
    rw [List.cons_append, headEndLoop]
    split_ifs at h ⊢ with h0 hlf hend
    · exact h
    · exact ih h
    · exact ih h

theorem headEndLoop_lt : ∀ {lastEol i : ℕ} {prev : UInt8} {k : ℕ},
    headEndLoop lastEol i prev p = some k → i ≤ k ∧ k < i + p.length := by
  induction p with
  | nil => intro lastEol i prev k h; cases h
  | cons c p ih =>
    intro lastEol i prev k h
    rw [headEndLoop] at h
    rw [List.length_cons]
    split_ifs at h with h0 hlf hend
    · cases h
      omega
    · have := ih h
      omega
    · have := ih h
      omega

/-- When a text does not have the end of the head, a longer one has it behind the text. -/
theorem headEndLoop_ge : ∀ {lastEol i : ℕ} {prev : UInt8} {k : ℕ},
    headEndLoop lastEol i prev p = none → headEndLoop lastEol i prev (p ++ q) = some k →
      i + p.length ≤ k := by
  induction p with
  | nil =>
    intro lastEol i prev k _ h
    exact (headEndLoop_lt h).1
  | cons c p ih =>
    intro lastEol i prev k hnone h
    rw [headEndLoop] at hnone
    rw [List.cons_append, headEndLoop] at h
    rw [List.length_cons]
    split_ifs at h hnone with h0 hlf hend
    · have := ih hnone h
      omega
    · have := ih hnone h
      omega

theorem headEnd_loop_append (hi : i < p.length) (q : Bytes) :
    headEnd (p ++ q) i = headEndLoop 0 (i + 1) (p.getD i 0) (p.drop (i + 1) ++ q) := by
  rw [headEnd, List.drop_append_of_le_length hi, List.getD_eq_getElem?_getD,
    List.getElem?_append_left hi, List.getD_eq_getElem?_getD]

theorem headEnd_append (hi : i < p.length) (h : headEnd p i = some k) (q : Bytes) :
    headEnd (p ++ q) i = some k := by
  rw [headEnd_loop_append hi]
  exact headEndLoop_append q h

theorem headEnd_lt (hi : i < p.length) (h : headEnd p i = some k) : k < p.length := by
  have := (headEndLoop_lt h).2
  rw [List.length_drop] at this
  omega

theorem length_le_headEnd (hi : i < p.length) (hnone : headEnd p i = none)
    (h : headEnd (p ++ q) i = some k) : p.length ≤ k := by
  rw [headEnd_loop_append hi] at h
  have := headEndLoop_ge hnone h
  rw [List.length_drop] at this
  omega

theorem headKind_lt (h : headKind p = .headers i) : i < p.length := by
  unfold headKind at h
  split_ifs at h with h1 h2 h3 h4
  · cases h
    have := length_of_isNph h3
    omega
  · cases h
    exact (List.getElem?_eq_some_iff.mp h4).1

/-! ## The queue of the response -/

/-- What a run on the headers leaves: the queue, and how it is written to. -/
def SameQueue (con con' : ResponseCon) : Prop :=
  con'.writeQueue = con.writeQueue ∧ con'.chunked = con.chunked ∧ con'.io = con.io

theorem sameQueue_noteHeader (opts : HttpResponseOpts) (con : ResponseCon) (key value : Bytes) :
    SameQueue con (noteHeader opts con key value).1 := by
  have hite : ∀ {p : Prop} [Decidable p] {x y : ResponseCon × Bool},
      SameQueue con x.1 → SameQueue con y.1 → SameQueue con (if p then x else y).1 := by
    intro p _ x y hx hy
    split_ifs
    · exact hx
    · exact hy
  unfold noteHeader
  dsimp only
  repeat' apply hite
  all_goals first
    | exact ⟨rfl, rfl, rfl⟩
    | split <;> exact ⟨rfl, rfl, rfl⟩

theorem sameQueue_statusLine (con : ResponseCon) (s : Bytes) :
    SameQueue con (statusLine con s).con := by
  have hstatus : ∀ con' : ResponseCon, SameQueue con con' → SameQueue con
      (if con'.httpStatus = 0 then LineResult.error { con' with httpStatus := 502, direct := true }
        else .goOn con').con := by
    intro con' h
    split_ifs <;> exact h
  unfold statusLine
  refine hstatus _ ?_
  split_ifs
  · split <;> exact ⟨rfl, rfl, rfl⟩
  · exact ⟨rfl, rfl, rfl⟩

theorem sameQueue_authorizerHeader (con : ResponseCon) (key value : Bytes) :
    SameQueue con (authorizerHeader con key value).con := by
  unfold authorizerHeader
  split_ifs
  · split <;> exact ⟨rfl, rfl, rfl⟩
  · exact ⟨rfl, rfl, rfl⟩

theorem sameQueue_processLine {isFirst : Bool} {r : LineResult}
    (h : processLine opts con isFirst s = some r) : SameQueue con r.con := by
  unfold processLine at h
  by_cases hfirst : isFirst ∧ s.take 7 = str "HTTP/1."
  · rw [if_pos hfirst] at h
    cases h
    exact sameQueue_statusLine con s
  · rw [if_neg hfirst] at h
    cases hcolon : strchr s 58 with
    | none =>
      rw [hcolon] at h
      cases h
      exact ⟨rfl, rfl, rfl⟩
    | some keyLen =>
      rw [hcolon] at h
      dsimp only at h
      split_ifs at h with hauth hstore
      · cases h
        exact sameQueue_authorizerHeader con _ _
      · obtain ⟨headers, -, rfl⟩ := Option.map_eq_some_iff.mp h
        exact sameQueue_noteHeader opts con _ _
      · cases h
        exact sameQueue_noteHeader opts con _ _

theorem sameQueue_processLines : ∀ {lines : List Bytes}
    {con : ResponseCon} {isFirst : Bool} {r : Bool × ResponseCon},
    processLines opts con isFirst lines = some r → SameQueue con r.2
  | [], con, isFirst, r, h => by
    cases h
    exact ⟨rfl, rfl, rfl⟩
  | s :: lines, con, isFirst, r, h => by
    rw [processLines] at h
    cases hline : processLine opts con isFirst s with
    | none =>
      rw [hline] at h
      cases h
    | some result =>
      have hsame := sameQueue_processLine hline
      rw [hline] at h
      cases result with
      | goOn con' =>
        obtain ⟨hq, hc, hio⟩ := sameQueue_processLines h
        exact ⟨hq.trans hsame.1, hc.trans hsame.2.1, hio.trans hsame.2.2⟩
      | stop con' =>
        cases h
        exact hsame
      | error con' =>
        cases h
        exact hsame

theorem sameQueue_processHeaders {hdrs : Bytes} {r : Bool × ResponseCon}
    (h : httpResponseProcessHeaders opts con hdrs = some r) : SameQueue con r.2 := by
  unfold httpResponseProcessHeaders at h
  cases hlines : processLines opts con true (headerLines [] hdrs) with
  | none =>
    rw [hlines] at h
    cases h
  | some result =>
    have hsame := sameQueue_processLines hlines
    rw [hlines] at h
    obtain ⟨ok, con'⟩ := result
    cases ok with
    | false =>
      cases h
      exact hsame
    | true =>
      cases h
      dsimp only
      split_ifs <;> exact hsame

/-- Bytes can be appended to the queue as they are. -/
structure Appendable (con : ResponseCon) : Prop where
  chunked : con.chunked = false
  io : con.io = .success
  tempdirLeft : TempdirLeft con.writeQueue

theorem Appendable.sameQueue {con' : ResponseCon} (h : Appendable con) (hsame : SameQueue con con') :
    Appendable con' :=
  ⟨hsame.2.1.trans h.chunked, hsame.2.2.trans h.io, by rw [hsame.1]; exact h.tempdirLeft⟩

theorem BackendCon.append_spec (h : Appendable r.con) (s : Bytes) :
    ∃ queue io, r.append s =
        (true, { r with con := { r.con with writeQueue := queue, io := io } }) ∧
      Appendable { r.con with writeQueue := queue, io := io } ∧
      queue.bytes = r.con.writeQueue.bytes ++ s := by
  have hstored : Stored r.con.writeQueue
      (httpChunkAppendMem ⟨r.con.chunked, r.bufmin⟩ r.con.writeQueue s .success) s :=
    stored_httpChunkAppendMem h.chunked h.tempdirLeft s
  rw [← h.io] at hstored
  refine ⟨_, _, Prod.ext hstored.ok rfl, ⟨h.chunked, hstored.io, ?_⟩, hstored.appended.1⟩
  exact hstored.tempdirLeft h.tempdirLeft

/-! ## Behind the head -/

/-- The client gets the same but for the body. -/
def SameHead (x y : BackendResponse) : Prop :=
  x.httpStatus = y.httpStatus ∧ x.headers = y.headers ∧ x.parsedResponse = y.parsedResponse

theorem response_eq {x y : BackendResponse} (h : SameHead x y) (hbody : y.body = x.body ++ q) :
    y = { x with body := x.body ++ q } := by
  obtain ⟨hs, hh, hp⟩ := h
  obtain ⟨s, hdrs, p, b⟩ := y
  simp only at hs hh hp hbody
  rw [hs, hh, hp, hbody]

/-- Once the head is complete, everything that is read is the body. -/
theorem httpResponseRead_body (opts : BackendOpts) : ∀ (reads : List Bytes) {r : BackendCon},
    (∀ s ∈ reads, s ≠ []) → r.fileStarted → r.buffer = [] → Appendable r.con →
    ∃ r', httpResponseRead opts r (reads ++ [[]]) = some (.finished, r') ∧
      r'.response = { r.response with body := r.response.body ++ reads.flatten }
  | [], r, _, _, _, _ => ⟨r, rfl, by simp⟩
  | s :: reads, r, hne, hstarted, hbuffer, hready => by
    obtain ⟨queue, io, happend, hready', hbytes⟩ :=
      BackendCon.append_spec (r := { r with buffer := r.buffer ++ s }) hready s
    have hturn : httpResponseReadTurn opts r s = some (.goOn,
        { r with con := { r.con with writeQueue := queue, io := io }, buffer := [] }) := by
      rw [httpResponseReadTurn, if_neg (hne s List.mem_cons_self)]
      dsimp only
      rw [if_neg (by simp [hstarted]), hbuffer, List.nil_append]
      rw [hbuffer, List.nil_append] at happend
      rw [happend]
      rfl
    obtain ⟨r', hrun, hresponse⟩ := httpResponseRead_body opts reads
      (r := { r with con := { r.con with writeQueue := queue, io := io }, buffer := [] })
      (fun t ht => hne t (List.mem_cons_of_mem s ht)) hstarted rfl hready'
    refine ⟨r', by rw [List.cons_append, httpResponseRead, hturn]; exact hrun, ?_⟩
    rw [hresponse]
    simp only [BackendCon.response, List.flatten_cons]
    rw [hbytes, List.append_assoc]

theorem sameHead_responseHeaders (opts : BackendOpts) {x y : BackendCon}
    (h : SameHead x.response y.response) :
    SameHead (responseHeaders opts x).response (responseHeaders opts y).response := by
  obtain ⟨hs, hh, hp⟩ := h
  have hs : x.con.httpStatus = y.con.httpStatus := hs
  have hh : x.con.headers = y.con.headers := hh
  have hp : x.con.parsedResponse = y.con.parsedResponse := hp
  unfold responseHeaders
  rw [hp, hs]
  split_ifs
  · exact ⟨hs, by simp [BackendCon.response, hh, hp], hp⟩
  · exact ⟨hs, by simp [BackendCon.response, hh], by simp [BackendCon.response]⟩
  · exact ⟨hs, by simp [BackendCon.response, hh, hp], hp⟩
  · exact ⟨hs, hh, hp⟩

/-- `opts->headers` does not touch the body and leaves the status. -/
theorem responseHeaders_spec (opts : BackendOpts) (x : BackendCon) :
    SameQueue x.con (responseHeaders opts x).con ∧
      (responseHeaders opts x).fileStarted = x.fileStarted ∧
      (responseHeaders opts x).con.httpStatus = x.con.httpStatus := by
  unfold responseHeaders
  dsimp only
  split_ifs <;> exact ⟨⟨rfl, rfl, rfl⟩, rfl, rfl⟩

theorem headText_append (hi : i < b.length) (q : Bytes) : headText (b ++ q) i = headText b i := by
  have hprev : (b ++ q)[i - 1]? = b[i - 1]? := List.getElem?_append_left (by omega)
  rw [headText, headText, hprev]
  exact List.take_append_of_le_length (by split_ifs <;> omega)

/-- A head that is accepted: the rest of what was read is the body. -/
theorem headComplete_goOn (opts : BackendOpts)
    (hproxy : ¬ (opts.backend = .proxy ∧ ¬ isNph r.buffer))
    (hproc : httpResponseProcessHeaders opts.toOpts r.con (headText r.buffer i) = some (true, con))
    (hdirect : con.direct = false) (hready : Appendable con) :
    ∃ queue io, headComplete opts r i = some (.goOn, responseHeaders opts
        { r with con := { con with writeQueue := queue, io := io }, fileStarted := true }) ∧
      Appendable { con with writeQueue := queue, io := io } ∧
      queue.bytes = con.writeQueue.bytes ++ r.buffer.drop (i + 1) := by
  obtain ⟨queue, io, happend, hready', hbytes⟩ := BackendCon.append_spec
    (r := { r with con := con, fileStarted := true }) hready (r.buffer.drop (i + 1))
  refine ⟨queue, io, ?_, hready', hbytes⟩
  rw [headComplete, if_neg hproxy, hproc]
  dsimp only
  rw [if_neg (by rw [hdirect]; decide), happend]
  rfl

/-- What the end of a head does in a text and in a longer one. -/
inductive HeadAgrees (opts : BackendOpts) (q : Bytes) (r r' : Option (BackendRc × BackendCon)) :
    Prop
  | assertion (h : r = none) (h' : r' = none)
  | ended {rc : BackendRc} {x y : BackendCon} (hrc : rc ≠ .goOn) (h : r = some (rc, x))
      (h' : r' = some (rc, y)) (hsame : x.response = y.response)
  | goOn {x y : BackendCon} (h : r = some (.goOn, x)) (h' : r' = some (.goOn, y))
      (hx : x.fileStarted) (hy : y.fileStarted) (hready : Appendable x.con)
      (hsame : SameHead x.response y.response) (hbody : y.response.body = x.response.body ++ q)

theorem headComplete_append (opts : BackendOpts) (hready : Appendable r.con)
    (hi : i < r.buffer.length) (q : Bytes) (hnph : isNph (r.buffer ++ q) = isNph r.buffer) :
    HeadAgrees opts q (headComplete opts r i)
      (headComplete opts { r with buffer := r.buffer ++ q } i) := by
  have htext := headText_append hi q
  by_cases hproxy : opts.backend = .proxy ∧ ¬ isNph r.buffer
  · rw [headComplete, if_pos hproxy, headComplete, if_pos (by rw [hnph]; exact hproxy)]
    exact .ended (by decide) rfl rfl rfl
  · have hproxy' : ¬ (opts.backend = .proxy ∧ ¬ isNph (r.buffer ++ q)) := by rwa [hnph]
    cases hproc : httpResponseProcessHeaders opts.toOpts r.con (headText r.buffer i) with
    | none =>
      rw [headComplete, if_neg hproxy, hproc, headComplete, if_neg hproxy', htext, hproc]
      exact .assertion rfl rfl
    | some result =>
      obtain ⟨ok, con⟩ := result
      have hready' := hready.sameQueue (sameQueue_processHeaders hproc)
      cases ok with
      | false =>
        rw [headComplete, if_neg hproxy, hproc, headComplete, if_neg hproxy', htext, hproc]
        exact .ended (by decide) rfl rfl rfl
      | true =>
        by_cases hdirect : con.direct
        · rw [headComplete, if_neg hproxy, hproc, headComplete, if_neg hproxy', htext, hproc]
          dsimp only
          rw [if_pos hdirect, if_pos hdirect]
          exact .ended (by decide) rfl rfl rfl
        · have hdirect : con.direct = false := by simpa using hdirect
          obtain ⟨queue, io, hhead, hr, hbytes⟩ :=
            headComplete_goOn opts hproxy hproc hdirect hready'
          obtain ⟨queue', io', hhead', -, hbytes'⟩ := headComplete_goOn opts
            (r := { r with buffer := r.buffer ++ q }) (i := i) hproxy'
            (by rw [← hproc, ← htext]) hdirect hready'
          rw [hhead, hhead']
          obtain ⟨hqueue, hstarted, -⟩ := responseHeaders_spec opts
            { r with con := { con with writeQueue := queue, io := io }, fileStarted := true }
          obtain ⟨hqueue', hstarted', -⟩ := responseHeaders_spec opts
            { r with
              con := { con with writeQueue := queue', io := io' }
              fileStarted := true
              buffer := r.buffer ++ q }
          refine .goOn rfl rfl hstarted hstarted' (hr.sameQueue hqueue)
            (sameHead_responseHeaders opts ⟨rfl, rfl, rfl⟩) ?_
          simp only [BackendCon.response]
          rw [hqueue.1, hqueue'.1]
          dsimp only
          rw [hbytes, hbytes', List.drop_append_of_le_length hi, List.append_assoc]

/-! ## Cuts behind the decision -/

/-- Where the head of a text ends, when it has shown how it begins. -/
def headAt (b : Bytes) : Option ℕ :=
  match headKind b with
  | .noHeaders i => some i
  | .headers i => headEnd b i
  | .other => none

theorem headKind_noHeaders_lt (h : headKind b = .noHeaders i) : i < b.length := by
  unfold headKind at h
  split_ifs at h with hlf hcrlf
  · cases h
    obtain ⟨b, rfl⟩ := List.head?_eq_some_iff.mp hlf
    simp
  · cases h
    exact (List.getElem?_eq_some_iff.mp hcrlf.2).1

theorem headAt_lt (h : headAt b = some k) : k < b.length := by
  unfold headAt at h
  cases hkind : headKind b with
  | noHeaders i =>
    rw [hkind] at h
    cases h
    exact headKind_noHeaders_lt hkind
  | headers i =>
    rw [hkind] at h
    exact headEnd_lt (headKind_lt hkind) h
  | other =>
    rw [hkind] at h
    cases h

theorem headAt_append (h : headAt b = some k) (q : Bytes) : headAt (b ++ q) = some k := by
  have hne : headKind b ≠ .other := by
    intro hother
    rw [headAt, hother] at h
    cases h
  unfold headAt at h ⊢
  rw [headKind_append hne]
  cases hkind : headKind b with
  | noHeaders i =>
    rw [hkind] at h
    exact h
  | headers i =>
    rw [hkind] at h
    exact headEnd_append (headKind_lt hkind) h q
  | other => exact absurd hkind hne

/-- A text without the end of its head is not longer than the head. -/
theorem length_le_headLength (hne : headKind b ≠ .other) (h : headAt b = none) :
    b.length ≤ headLength (b ++ q) := by
  unfold headAt at h
  unfold headLength
  rw [headKind_append hne]
  cases hkind : headKind b with
  | noHeaders i =>
    rw [hkind] at h
    cases h
  | headers i =>
    rw [hkind] at h
    dsimp only at h ⊢
    cases hend : headEnd (b ++ q) i with
    | none => simp
    | some k =>
      have := length_le_headEnd (headKind_lt hkind) h hend
      rw [Option.elim_some]
      omega
  | other => exact absurd hkind hne

theorem parseHeaders_headAt (opts : BackendOpts) (r : BackendCon) (h : headAt r.buffer = some k) :
    httpResponseParseHeaders opts r = headComplete opts r k := by
  unfold headAt at h
  unfold httpResponseParseHeaders
  cases hkind : headKind r.buffer with
  | noHeaders i =>
    rw [hkind] at h
    cases h
    rfl
  | headers i =>
    rw [hkind] at h
    dsimp only at h ⊢
    rw [h]
  | other =>
    rw [hkind] at h
    cases h

theorem parseHeaders_incomplete (opts : BackendOpts) (r : BackendCon)
    (hne : headKind r.buffer ≠ .other) (h : headAt r.buffer = none)
    (hlen : r.buffer.length ≤ maxBackendHead) :
    httpResponseParseHeaders opts r = some (.goOn, r) := by
  unfold headAt at h
  unfold httpResponseParseHeaders
  cases hkind : headKind r.buffer with
  | noHeaders i =>
    rw [hkind] at h
    cases h
  | headers i =>
    rw [hkind] at h
    dsimp only at h ⊢
    rw [h]
    dsimp only
    rw [if_neg (by omega)]
  | other => exact absurd hkind hne

/-- A connection for which a backend was asked. -/
structure Awaiting (con : ResponseCon) : Prop where
  ready : Appendable con
  httpStatus : con.httpStatus = 0
  parsedResponse : con.parsedResponse = .none
  direct : con.direct = false

section Runs

variable (opts : BackendOpts) {con : ResponseCon} (streamResponse bufmin : Bool)

/-- The connection with the buffer `p`, before the head is complete. -/
def BackendCon.withBuffer (con : ResponseCon) (streamResponse bufmin : Bool) (p : Bytes) :
    BackendCon := { BackendCon.start con streamResponse bufmin with buffer := p }

variable (con) in
theorem turn_withBuffer (hs : s ≠ []) :
    httpResponseReadTurn opts (.withBuffer con streamResponse bufmin p) s =
      (httpResponseParseHeaders opts (.withBuffer con streamResponse bufmin (p ++ s))).map fun x =>
        if x.1 = .goOn ∧ x.2.fileStarted then (.goOn, { x.2 with buffer := [] }) else x := by
  rw [httpResponseReadTurn, if_neg hs]
  rfl

/-- The answer to a run, without the rest of the connection. -/
def responseOf (r : Option (BackendRc × BackendCon)) : Option BackendResponse :=
  r.map fun x => x.2.response

/-- When what was read shows how the response begins, reading on is as good as reading everything
at once. -/
theorem httpResponseRead_cut (hready : Appendable con) : ∀ (reads : List Bytes) (p S : Bytes),
    p ++ reads.flatten = S → (∀ s ∈ reads, s ≠ []) → headLength S ≤ maxBackendHead →
    (p = [] ∨ headKind p ≠ .other ∧ headAt p = none) →
    (∀ s ∈ reads.head?, headKind (p ++ s) ≠ .other) →
    responseOf (httpResponseRead opts (.withBuffer con streamResponse bufmin p) (reads ++ [[]])) =
      responseOf (httpResponseRead opts (.start con streamResponse bufmin) [S, []])
  | [], p, S, hS, _, hlen, hp, _ => by
    obtain rfl : p = S := by simpa using hS
    rcases hp with rfl | ⟨hne, hat⟩
    · rfl
    · have hp : p ≠ [] := by
        rintro rfl
        exact hne rfl
      have hturn : httpResponseReadTurn opts (.start con streamResponse bufmin) p =
          some (.goOn, .withBuffer con streamResponse bufmin p) := by
        have hbound := length_le_headLength (q := []) hne hat
        rw [List.append_nil] at hbound
        have hturn := turn_withBuffer opts con streamResponse bufmin (p := []) hp
        rw [List.nil_append, parseHeaders_incomplete opts _ hne hat (hbound.trans hlen)] at hturn
        exact hturn
      rw [httpResponseRead, hturn]
      rfl
  | s :: reads, p, S, hS, hne, hlen, hp, hfirst => by
    have hs := hne s List.mem_cons_self
    have hkind := hfirst s rfl
    have hS : (p ++ s) ++ reads.flatten = S := by
      rw [← hS, List.flatten_cons, List.append_assoc]
    subst hS
    generalize hb : p ++ s = b at hkind hlen
    have hbne : b ≠ [] := by
      rintro rfl
      exact hs (List.append_eq_nil_iff.mp hb).2
    have hturn := turn_withBuffer opts con streamResponse bufmin (p := p) hs
    have hwhole := turn_withBuffer opts con streamResponse bufmin (p := [])
      (s := b ++ reads.flatten) (by simp [hbne])
    rw [hb] at hturn
    rw [List.nil_append] at hwhole
    rw [List.cons_append, httpResponseRead, hturn, httpResponseRead,
      show BackendCon.start con streamResponse bufmin =
        .withBuffer con streamResponse bufmin [] from rfl, hwhole]
    cases hat : headAt b with
    | some k =>
      -- the head ends here, in the text so far and in the whole text
      have hi : k < b.length := headAt_lt hat
      have hnph := isNph_append_of_headKind hkind reads.flatten
      rw [parseHeaders_headAt opts _ hat, parseHeaders_headAt opts _ (headAt_append hat _)]
      have hagrees : HeadAgrees opts reads.flatten _
          (headComplete opts (.withBuffer con streamResponse bufmin (b ++ reads.flatten)) k) :=
        headComplete_append opts (r := .withBuffer con streamResponse bufmin b) hready hi _ hnph
      cases hagrees with
      | assertion h h' =>
        rw [h, h']
        rfl
      | @ended rc x y hrc h h' hsame =>
        rw [h, h', Option.map_some, Option.map_some, if_neg fun hc => hrc hc.1,
          if_neg fun hc => hrc hc.1]
        cases rc with
        | goOn => exact absurd rfl hrc
        | finished => exact congrArg some hsame
        | error => exact congrArg some hsame
      | @goOn x y h h' hx hy hready' hsame hbody =>
        rw [h, h', Option.map_some, Option.map_some, if_pos ⟨rfl, hx⟩, if_pos ⟨rfl, hy⟩]
        obtain ⟨r', hrun, hresponse⟩ := httpResponseRead_body opts reads
          (r := { x with buffer := [] }) (fun t ht => hne t (List.mem_cons_of_mem s ht)) hx rfl
          hready'
        dsimp only
        rw [hrun]
        refine congrArg some (hresponse.trans ?_)
        exact (response_eq hsame hbody).symm
    | none =>
      have hbound := (length_le_headLength hkind hat).trans hlen
      rw [parseHeaders_incomplete opts _ hkind hat hbound, Option.map_some,
        if_neg (by simp [BackendCon.withBuffer, BackendCon.start])]
      dsimp only
      rw [httpResponseRead_cut hready reads b _ rfl
        (fun t ht => hne t (List.mem_cons_of_mem s ht)) hlen (.inr ⟨hkind, hat⟩)
        fun t _ => by rw [headKind_append hkind]; exact hkind]
      rw [httpResponseRead, show BackendCon.start con streamResponse bufmin =
        .withBuffer con streamResponse bufmin [] from rfl, hwhole]

/-- What the client gets when the first read is taken for something else than headers. -/
def withoutHeaders (opts : BackendOpts) (con : ResponseCon) (S : Bytes) : BackendResponse :=
  if opts.backend = .cgi then
    ⟨200, con.headers, con.parsedResponse, con.writeQueue.bytes ++ S⟩
  else ⟨502, con.headers, con.parsedResponse, con.writeQueue.bytes⟩

/-- A first read that is taken for something else than headers does not wait. -/
theorem turn_other (hready : Appendable con) (hs : s ≠ []) (hkind : headKind s = .other) :
    ∃ rc x, httpResponseReadTurn opts (.start con streamResponse bufmin) s = some (rc, x) ∧
      x.response = withoutHeaders opts con s ∧
      (opts.backend = .cgi ∧ rc = .goOn ∧ x.fileStarted ∧ x.buffer = [] ∧ Appendable x.con ∨
        opts.backend ≠ .cgi ∧ rc = .finished) := by
  have hturn := turn_withBuffer opts con streamResponse bufmin (p := []) hs
  rw [List.nil_append] at hturn
  rw [show BackendCon.start con streamResponse bufmin =
    .withBuffer con streamResponse bufmin [] from rfl, hturn, httpResponseParseHeaders,
    show headKind (BackendCon.withBuffer con streamResponse bufmin s).buffer = .other from hkind]
  dsimp only
  by_cases hcgi : opts.backend = .cgi
  · obtain ⟨queue, io, happend, hready', hbytes⟩ :=
      BackendCon.append_spec (r := .withBuffer con streamResponse bufmin s) hready s
    rw [if_pos hcgi,
      show (BackendCon.withBuffer con streamResponse bufmin s).buffer = s from rfl, happend]
    refine ⟨_, _, rfl, ?_, .inl ⟨hcgi, rfl, rfl, rfl, ⟨hready'.1, hready'.2, hready'.3⟩⟩⟩
    rw [withoutHeaders, if_pos hcgi]
    exact congrArg (BackendResponse.mk 200 con.headers con.parsedResponse) hbytes
  · rw [if_neg hcgi]
    refine ⟨_, _, rfl, ?_, .inr ⟨hcgi, rfl⟩⟩
    rw [withoutHeaders, if_neg hcgi]
    rfl

theorem httpResponseRead_other (hready : Appendable con) (hs : s ≠ []) (hkind : headKind s = .other)
    {reads : List Bytes} (hne : ∀ t ∈ reads, t ≠ []) :
    responseOf (httpResponseRead opts (.start con streamResponse bufmin) (s :: reads ++ [[]])) =
      some (withoutHeaders opts con (s ++ reads.flatten)) := by
  obtain ⟨rc, x, hturn, hresponse, hrc⟩ := turn_other opts streamResponse bufmin hready hs hkind
  rw [List.cons_append, httpResponseRead, hturn]
  rcases hrc with ⟨hcgi, rfl, hstarted, hbuffer, hready'⟩ | ⟨hcgi, rfl⟩
  · obtain ⟨r', hrun, hr'⟩ := httpResponseRead_body opts reads hne hstarted hbuffer hready'
    dsimp only
    rw [hrun]
    refine congrArg some (hr'.trans ?_)
    rw [hresponse, withoutHeaders, withoutHeaders, if_pos hcgi, if_pos hcgi, List.append_assoc]
  · refine congrArg some (hresponse.trans ?_)
    rw [withoutHeaders, withoutHeaders, if_neg hcgi, if_neg hcgi]

/-- A response that begins with the end of its head, read at once. -/
theorem httpResponseRead_noHeaders (hcon : Awaiting con) {S : Bytes}
    (hkind : headKind S = .noHeaders i) :
    (opts.backend = .proxy → responseOf (httpResponseRead opts (.start con streamResponse bufmin)
      [S, []]) = some (withoutHeaders opts con S)) ∧
    (opts.backend ≠ .proxy → ∃ x, responseOf (httpResponseRead opts
      (.start con streamResponse bufmin) [S, []]) = some x ∧ x.httpStatus = 0) := by
  have hS : S ≠ [] := by
    rintro rfl
    cases hkind
  have hat : headAt S = some i := by rw [headAt, hkind]
  have hturn := turn_withBuffer opts con streamResponse bufmin (p := []) hS
  rw [List.nil_append, parseHeaders_headAt opts _ hat] at hturn
  have hnph : isNph S = false := by
    rw [Bool.eq_false_iff]
    intro hnph
    rw [headKind_nph hnph] at hkind
    cases hkind
  have htext : headText S i = [] := by
    unfold headKind at hkind
    split_ifs at hkind with hlf hcrlf
    · cases hkind
      rfl
    · cases hkind
      have hprev : S[0]? = some CR := by rw [← List.head?_eq_getElem?, hcrlf.1]
      simp [headText, hprev]
  rw [httpResponseRead, show BackendCon.start con streamResponse bufmin =
    .withBuffer con streamResponse bufmin [] from rfl, hturn]
  constructor
  · intro hproxy
    have hcgi : opts.backend ≠ .cgi := by rw [hproxy]; decide
    rw [headComplete, if_pos ⟨hproxy, by simp [BackendCon.withBuffer, hnph]⟩, withoutHeaders,
      if_neg hcgi]
    rfl
  · intro hproxy
    have hprocess : httpResponseProcessHeaders opts.toOpts con [] = some (true, con) := by
      rw [httpResponseProcessHeaders, headerLines, processLines]
      dsimp only
      rw [if_neg (by rw [hcon.parsedResponse]; decide)]
    obtain ⟨queue, io, hhead, -⟩ := headComplete_goOn opts
      (r := .withBuffer con streamResponse bufmin S) (i := i) (fun hc => hproxy hc.1)
      (by rw [← hprocess, ← htext]; rfl) hcon.direct hcon.ready
    obtain ⟨-, hstarted, hstatus⟩ := responseHeaders_spec opts
      { BackendCon.withBuffer con streamResponse bufmin S with
        con := { con with writeQueue := queue, io := io }
        fileStarted := true }
    rw [hhead, Option.map_some, if_pos ⟨rfl, hstarted⟩]
    exact ⟨_, rfl, hstatus.trans hcon.httpStatus⟩

/-! ## The first read -/

/-- The first read `s` of `S` stops inside the status line or the first header name. -/
def StopsInFirstName (S s : Bytes) : Prop :=
  isNph S ∧ LF ∉ s ∨ ∃ i, ¬ isNph S ∧ headKind S = .headers i ∧ s.length ≤ i

/-- The client gets the same from `reads`, in any calls, as from everything at once, and a first
read that stops inside the status line or the first header name is kept until there is more. -/
structure SameHowever (opts : BackendOpts) (con : ResponseCon) (streamResponse bufmin : Bool)
    (reads : List Bytes) : Prop where
  same : ∀ calls : List (List Bytes), calls.flatten = reads ++ [[]] →
    responseOf (responseCalls opts (.start con streamResponse bufmin) calls) =
      responseOf (httpResponseRead opts (.start con streamResponse bufmin) [reads.flatten, []])
  waits : ∀ s ∈ reads.head?, StopsInFirstName reads.flatten s →
    httpResponseReadTurn opts (.start con streamResponse bufmin) s =
      some (.goOn, .withBuffer con streamResponse bufmin s)

/-- The first read shows how the response begins; a proxy answers 502 anyway when it begins with an
empty line. -/
def FirstReadDecides (opts : BackendOpts) (reads : List Bytes) : Prop :=
  ∀ s ∈ reads.head?, headKind s = headKind reads.flatten ∨
    opts.backend = .proxy ∧ ∃ i, headKind reads.flatten = .noHeaders i

theorem headEndLoop_none : ∀ {lastEol i : ℕ} {prev : UInt8}, LF ∉ p →
    headEndLoop lastEol i prev p = none := by
  induction p with
  | nil => intro _ _ _ _; rfl
  | cons c p ih =>
    intro lastEol i prev h
    have hc : c ≠ LF := fun heq => h (by rw [heq]; exact List.mem_cons_self)
    have hp : LF ∉ p := fun hmem => h (List.mem_cons_of_mem c hmem)
    rw [headEndLoop, if_neg hc, ih hp, ite_self]

theorem cspnColonLF_of_lt (h : cspnColonLF (s ++ q) < s.length) :
    cspnColonLF s = cspnColonLF (s ++ q) := by
  unfold cspnColonLF at h ⊢
  rw [List.takeWhile_append] at h ⊢
  split_ifs at h ⊢ with hall
  · rw [List.length_append] at h
    omega
  · rfl

/-- A beginning that does not show the headers yet stops inside the first name. -/
theorem stopsInFirstName (hother : headKind s = .other) (hkind : headKind (s ++ q) = .headers i) :
    StopsInFirstName (s ++ q) s := by
  by_cases hnph : isNph (s ++ q)
  · refine .inl ⟨hnph, fun hlf => ?_⟩
    have hlen : s.length < 7 := by
      by_contra hge
      rw [isNph_append (by omega)] at hnph
      rw [headKind_nph hnph] at hother
      cases hother
    have htake : (s ++ q).take 7 = str "HTTP/1." := of_decide_eq_true hnph
    rw [List.take_append, List.take_of_length_le hlen.le] at htake
    have hmem : LF ∈ str "HTTP/1." := by
      rw [← htake]
      exact List.mem_append_left _ hlf
    exact absurd hmem (by decide)
  · refine .inr ⟨i, hnph, hkind, ?_⟩
    by_contra hlt
    have hi : i = cspnColonLF (s ++ q) ∧ (s ++ q)[cspnColonLF (s ++ q)]? = some 58 := by
      unfold headKind at hkind
      split_ifs at hkind with h1 h2 h3
      · cases hkind
        exact ⟨rfl, h3⟩
    obtain ⟨rfl, hcolon⟩ := hi
    have hspan := cspnColonLF_of_lt (s := s) (q := q) (by omega)
    rw [List.getElem?_append_left (by omega), ← hspan] at hcolon
    have hnph' : ¬ isNph s := by
      intro hs
      rw [isNph_append (length_of_isNph hs)] at hnph
      exact hnph hs
    rw [headKind_colon hcolon hnph'] at hother
    cases hother

/-- Responses are read as they would be at once exactly when the first read shows how they begin. -/
theorem sameHowever_iff (hcon : Awaiting con) {reads : List Bytes} (hne : ∀ s ∈ reads, s ≠ [])
    (hlen : headLength reads.flatten ≤ maxBackendHead) :
    SameHowever opts con streamResponse bufmin reads ↔ FirstReadDecides opts reads := by
  constructor
  · intro h s hs
    obtain ⟨rest, rfl⟩ := List.head?_eq_some_iff.mp hs
    have hsne := hne s List.mem_cons_self
    by_cases hother : headKind s = .other
    · obtain ⟨rc, x, hturn, hresponse, hrc⟩ :=
        turn_other opts streamResponse bufmin hcon.ready hsne hother
      rw [List.flatten_cons]
      cases hkind : headKind (s ++ rest.flatten) with
      | headers i =>
        -- the first read is not kept
        have hwaits := h.waits s hs (by
          rw [List.flatten_cons]
          exact stopsInFirstName hother hkind)
        rw [hturn] at hwaits
        cases hwaits
        rcases hrc with ⟨-, -, hstarted, -⟩ | ⟨-, hrc⟩
        · cases hstarted
        · cases hrc
      | noHeaders i =>
        by_cases hproxy : opts.backend = .proxy
        · exact .inr ⟨hproxy, i, rfl⟩
        · -- the status is not the one of the whole response
          obtain ⟨y, hwhole, hstatus⟩ :=
            (httpResponseRead_noHeaders opts streamResponse bufmin hcon hkind).2 hproxy
          have hsame := h.same [s :: rest ++ [[]]] (by simp)
          rw [responseCalls_eq, List.flatten_singleton, List.flatten_cons, hwhole,
            httpResponseRead_other opts streamResponse bufmin hcon.ready hsne hother
              fun t ht => hne t (List.mem_cons_of_mem s ht)] at hsame
          rw [← Option.some.inj hsame, withoutHeaders] at hstatus
          split_ifs at hstatus
      | other => exact .inl hother
    · refine .inl ?_
      rw [List.flatten_cons, headKind_append hother]
  · intro h
    refine ⟨fun calls hcalls => ?_, fun s hs hstops => ?_⟩
    · rw [responseCalls_eq, hcalls]
      cases reads with
      | nil => rfl
      | cons s rest =>
        have hsne := hne s List.mem_cons_self
        have hrest : ∀ t ∈ rest, t ≠ [] := fun t ht => hne t (List.mem_cons_of_mem s ht)
        by_cases hother : headKind s = .other
        · rw [httpResponseRead_other opts streamResponse bufmin hcon.ready hsne hother hrest,
            List.flatten_cons]
          rcases h s rfl with hkind | ⟨hproxy, i, hkind⟩
          · have hS : s ++ rest.flatten ≠ [] := by simp [hsne]
            have hwhole := httpResponseRead_other opts streamResponse bufmin hcon.ready hS
              (by rw [← List.flatten_cons, ← hkind]; exact hother)
              fun (t : Bytes) (ht : t ∈ []) => absurd ht List.not_mem_nil
            rw [List.flatten_nil, List.append_nil] at hwhole
            exact hwhole.symm
          · exact ((httpResponseRead_noHeaders opts streamResponse bufmin hcon hkind).1 hproxy).symm
        · refine httpResponseRead_cut opts streamResponse bufmin hcon.ready (s :: rest) [] _ rfl hne
            hlen (.inl rfl) fun t ht => ?_
          obtain rfl := Option.some.inj ht
          exact hother
    · obtain ⟨rest, rfl⟩ := List.head?_eq_some_iff.mp hs
      have hsne := hne s List.mem_cons_self
      rw [List.flatten_cons] at hstops hlen
      have hdecides := h s rfl
      rw [List.flatten_cons] at hdecides
      rcases hstops with ⟨hnph, hlf⟩ | ⟨i, -, hkind, hle⟩
      · -- the status line has no end yet
        have hkind := headKind_nph hnph
        have hs : headKind s = .headers 0 := by
          rcases hdecides with hsame | ⟨-, i, hempty⟩
          · rw [hsame, hkind]
          · rw [hkind] at hempty
            cases hempty
        have hat : headAt s = none := by
          rw [headAt, hs]
          exact headEndLoop_none fun hmem => hlf (List.mem_of_mem_drop hmem)
        have hother : headKind s ≠ .other := by rw [hs]; decide
        have hturn := turn_withBuffer opts con streamResponse bufmin (p := []) hsne
        rw [List.nil_append, parseHeaders_incomplete opts _ hother hat
          ((length_le_headLength hother hat).trans hlen)] at hturn
        exact hturn
      · rcases hdecides with hsame | ⟨-, j, hempty⟩
        · rw [hkind] at hsame
          have := headKind_lt hsame
          omega
        · rw [hkind] at hempty
          cases hempty

end Runs

/-- A request for which a CGI program was started. -/
def cgiCon : ResponseCon := { ResponseCon.start .get .http11 (str "/") with direct := false }

theorem awaiting_cgiCon : Awaiting cgiCon := ⟨⟨rfl, rfl, .inl rfl⟩, rfl, rfl, rfl⟩

theorem sameHowever_cgiCon :
    SameHowever ⟨.cgi, false, fun _ h => h⟩ cgiCon false false [str "A: b\n", str "\nx"] := by
  refine (sameHowever_iff _ false false awaiting_cgiCon (by decide) (by decide)).mpr fun s hs => ?_
  cases hs
  exact .inl (by decide)

/-- The reads `X` and `: y`, an empty line and `b`: the first one is taken for the body. -/
theorem not_sameHowever : ¬ ∀ (opts : BackendOpts) (streamResponse bufmin : Bool)
    (con : ResponseCon), Awaiting con → ∀ reads : List Bytes, (∀ s ∈ reads, s ≠ []) →
      headLength reads.flatten ≤ maxBackendHead →
        SameHowever opts con streamResponse bufmin reads := by
  intro h
  have hsame := h ⟨.cgi, false, fun _ h => h⟩ false false cgiCon awaiting_cgiCon
    [str "X", str ": y\n\nb"] (by decide) (by decide)
  have hwaits := hsame.waits (str "X") rfl
    (.inr ⟨1, by decide +kernel, by decide +kernel, by decide⟩)
  have hbody := congrArg (Option.map fun x => x.2.response.httpStatus) hwaits
  exact absurd hbody (by decide +kernel)

end Lighttpd
