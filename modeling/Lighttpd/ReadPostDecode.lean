import Lighttpd.Lib.ChunkedCoding
import Lighttpd.ReadPostTurns

/-!
# Decoding a chunked body

`connection_handle_read_post_chunked` decodes a chunked body independently of how its bytes arrive,
but for trailers that are cut by a read: the whole last chunk that is there, with its line, is
compared with `max_request_field_size` (`readPost_not_decodes`). `readPost_decodes_iff` says that
otherwise, and with chunks to whose size two can be added, every sequence of reads decodes.
-/

namespace Lighttpd

open CString ChunkedCoding

/-! ## The line of a chunk -/

theorem hex2int_of_hexDigit {c : UInt8} {v : ℕ} (h : hexDigit c = some v) :
    hex2int c ≠ 255 ∧ (hex2int c).toNat = v ∧ v < 16 := by
  have hall : ∀ n : Fin 256, ∀ v ∈ hexDigit (UInt8.ofNat n),
      hex2int (UInt8.ofNat n) ≠ 255 ∧ (hex2int (UInt8.ofNat n)).toNat = v ∧ v < 16 := by
    decide +kernel
  have hc : UInt8.ofNat c.toNat = c := by simp
  have := hall ⟨c.toNat, c.toNat_lt⟩ v (by rw [hc]; exact h)
  rwa [hc] at this

theorem le_foldl_hexDigit (ds : Bytes) (te : ℕ) :
    te ≤ ds.foldl (fun n c => n * 16 + (hexDigit c).getD 0) te := by
  induction ds generalizing te with
  | nil => exact le_rfl
  | cons d ds ih =>
    refine le_trans ?_ (ih _)
    dsimp only
    omega

variable {r : Bytes} {con₁ : ReadPostCon}

/-- Digits are read up to the first other byte, unless the number has more than 63 bits. -/
theorem chunkSizeLoop_hex {x : UInt8} (hx : hex2int x = 255) :
    ∀ {ds : Bytes} {te : ℕ}, (∀ c ∈ ds, (hexDigit c).isSome) → te < 2 ^ 63 →
      chunkSizeLoop te (ds ++ x :: r) =
        if ds.foldl (fun n c => n * 16 + (hexDigit c).getD 0) te < 2 ^ 63 then
          some (ds.foldl (fun n c => n * 16 + (hexDigit c).getD 0) te, x :: r)
        else none
  | [], te, _, hte => by
    rw [List.nil_append, chunkSizeLoop, if_pos hx, List.foldl_nil, if_pos hte]
  | d :: ds, te, hds, hte => by
    obtain ⟨v, hv⟩ := Option.isSome_iff_exists.mp (hds d List.mem_cons_self)
    obtain ⟨hne, hnat, hlt⟩ := hex2int_of_hexDigit hv
    have hle := le_foldl_hexDigit ds (te * 16 + v)
    rw [List.cons_append, chunkSizeLoop, if_neg hne, hnat, List.foldl_cons, hv, Option.getD_some]
    by_cases hbig : te > 2 ^ 59 - 1
    · rw [if_pos hbig, if_neg (by omega)]
    · rw [if_neg hbig]
      exact chunkSizeLoop_hex hx (fun c hc => hds c (List.mem_cons_of_mem _ hc)) (by omega)

section SizeLine

variable {n : ℕ} (l : SizeLine n) (t : Bytes)

theorem chunkSize_line (hlen : l.line.length < 1024) :
    chunkSize (l.line ++ t) l.line.length = if n < 2 ^ 63 then some n else none := by
  obtain ⟨x, r, hr, hx⟩ : ∃ x r, l.ext ++ [CR, LF] ++ t = x :: r ∧ (x = CR ∨ x = 59) := by
    obtain ⟨hext | hext, -⟩ := l.isExt
    · exact ⟨CR, _, by rw [hext]; rfl, .inl rfl⟩
    · obtain ⟨v, hv⟩ : ∃ v, l.ext = 59 :: v := by
        cases he : l.ext with
        | nil => simp [he] at hext
        | cons y v =>
          rw [he, List.head?_cons, Option.some_inj] at hext
          exact ⟨v, by rw [hext]⟩
      exact ⟨59, _, by rw [hv]; rfl, .inr rfl⟩
  have hhex : hex2int x = 255 := by rcases hx with rfl | rfl <;> decide
  have hline : l.line ++ t = l.size ++ x :: r := by simp [SizeLine.line, ← hr]
  have hdrop : (x :: r).dropWhile (fun c => c = SP ∨ c = HT) = x :: r := by
    rcases hx with rfl | rfl <;> rfl
  have hloop : chunkSizeLoop 0 (l.size ++ x :: r) =
      if n < 2 ^ 63 then some (n, x :: r) else none := by
    rw [chunkSizeLoop_hex hhex l.hex.2 (by decide)]
    simp only [← l.value, hexNumber]
  rw [chunkSize, hline, hloop]
  by_cases hn : n < 2 ^ 63
  · rw [if_pos hn, if_pos hn]
    dsimp only
    rw [hdrop, List.head?_cons, if_neg (by rcases hx with rfl | rfl <;> decide),
      if_neg (by omega)]
  · rw [if_neg hn, if_neg hn]

theorem strchr_line : strchr (l.line ++ t) LF = some (l.line.length - 1) := by
  obtain ⟨u, hu, hlf, hnul⟩ := l.line_eq
  rw [hu, List.append_assoc, List.singleton_append, strchr_append_cons hlf hnul (by decide)]
  simp

theorem chunkHeader_incomplete {b : Bytes} (hlen : l.line.length < 1024) (hb : b <+: l.line ++ r)
    (hshort : b.length < l.line.length) : chunkHeader b = .incomplete := by
  obtain ⟨u, hu, hlf, -⟩ := l.line_eq
  rw [hu, List.append_assoc] at hb
  rw [hu, List.length_append, List.length_singleton] at hshort
  have hbu : b <+: u := List.prefix_of_prefix_length_le hb (List.prefix_append _ _) (by omega)
  rw [chunkHeader, strchr_of_notMem fun h => hlf (hbu.subset h)]
  dsimp only
  rw [if_neg]
  have := congrArg List.length hu
  rw [List.length_append, List.length_singleton] at this
  omega

theorem chunkHeader_line (hlen : l.line.length < 1024) (hn : n ≠ 0) :
    chunkHeader (l.line ++ t) = if n < 2 ^ 63 then .size n l.line.length else .refused := by
  have hpos := l.two_lt
  have hp := strchr_line l t
  have hsize := chunkSize_line l t hlen
  obtain ⟨p, hpl⟩ : ∃ p, l.line.length = p + 1 := ⟨l.line.length - 1, by omega⟩
  rw [hpl] at hp hsize ⊢
  by_cases hbig : n < 2 ^ 63
  · rw [if_pos hbig] at hsize ⊢
    exact chunkHeader_size hp hsize hn
  · rw [if_neg hbig] at hsize ⊢
    exact chunkHeader_refused hp hsize

end SizeLine

section Tail

variable (m : ChunkedBody)

theorem chunkHeader_tail (hlen : m.last.line.length < 1024) (t : Bytes) :
    chunkHeader (m.last.line ++ t) = (strstr ([CR, LF] ++ t) crlfcrlf).elim .unfinished
      fun j => .last (m.last.line.length - 2 + j + 4) := by
  have hpos := m.last.two_lt
  have hp := strchr_line m.last t
  have hsize := chunkSize_line m.last t hlen
  rw [if_pos (by decide)] at hsize
  have hdrop : (m.last.line ++ t).drop (m.last.line.length - 2) = [CR, LF] ++ t := by
    rw [List.drop_append_of_le_length (by omega), SizeLine.line, List.length_append,
      List.length_cons, List.length_singleton, Nat.add_sub_cancel, List.drop_left]
  obtain ⟨p, hpl⟩ : ∃ p, m.last.line.length = p + 1 := ⟨m.last.line.length - 1, by omega⟩
  rw [hpl] at hp hsize hdrop ⊢
  rw [Nat.add_sub_cancel] at hp
  rw [chunkHeader_last hp hsize, hdrop]

theorem strstr_trailers (t : Bytes) :
    strstr ([CR, LF] ++ (m.trailers ++ [CR, LF] ++ t)) crlfcrlf = some m.trailers.length := by
  obtain ⟨hnul, hsearch⟩ := m.isTrailers
  have h0 : (0 : UInt8) ∉ [CR, LF] ++ m.trailers ++ [CR, LF] := by
    simp only [List.mem_append, hnul, or_false]
    decide
  rw [show [CR, LF] ++ (m.trailers ++ [CR, LF] ++ t) = ([CR, LF] ++ m.trailers ++ [CR, LF]) ++ t by simp]
  refine strstr_append_left ?_ t
  rw [strstr_eq_search h0]
  exact hsearch

theorem length_tail : m.tail.length = m.last.line.length + m.trailers.length + 2 := by
  simp [ChunkedBody.tail]
  omega

theorem chunkHeader_last_tail (hlen : m.last.line.length < 1024) (t : Bytes) :
    chunkHeader (m.tail ++ t) = .last m.tail.length := by
  have hpos := m.last.two_lt
  rw [ChunkedBody.tail, List.append_assoc, chunkHeader_tail m hlen, strstr_trailers]
  simp only [Option.elim_some, ChunkHeader.last.injEq, List.length_append, List.length_cons,
    List.length_nil]
  omega

theorem chunkHeader_unfinished_tail {b : Bytes} (hlen : m.last.line.length < 1024)
    (hb : b <+: m.tail ++ r) (hline : m.last.line.length ≤ b.length)
    (hshort : b.length < m.tail.length) : chunkHeader b = .unfinished := by
  obtain ⟨t, rfl⟩ : m.last.line <+: b := by
    refine List.prefix_of_prefix_length_le ?_ hb hline
    rw [ChunkedBody.tail, List.append_assoc]
    exact List.prefix_append _ _
  rw [ChunkedBody.tail, List.append_assoc, List.prefix_append_right_inj] at hb
  obtain ⟨v, hv⟩ := hb
  rw [chunkHeader_tail m hlen]
  cases hj : strstr ([CR, LF] ++ t) crlfcrlf with
  | none => rfl
  | some j =>
    have hend := strstr_add_length_le hj
    have hfound := strstr_append_left hj v
    rw [List.append_assoc, hv, strstr_trailers, Option.some_inj] at hfound
    rw [length_tail, List.length_append] at hshort
    simp only [List.length_append, List.length_cons, List.length_nil] at hend
    omega

end Tail

/-! ## The state between two calls -/

/-- A chunk to whose size two can be added. -/
def SmallChunk (c : DataChunk) : Prop := c.data.length < 2 ^ 63 - 2

/-- What is left of a body: `te_chunked`, the bytes not consumed and the octets they stand for. -/
inductive Pending (m : ChunkedBody) : ℤ → Bytes → Bytes → Prop
  | header (pre cs : List DataChunk) (hcs : m.chunks = pre ++ cs)
      (small : ∀ c ∈ pre, SmallChunk c) : Pending m 0 (m.encode cs) (ChunkedBody.decode cs)
  | data (d : Bytes) (pre cs : List DataChunk) (hcs : m.chunks = pre ++ cs)
      (small : ∀ c ∈ pre, SmallChunk c) :
      Pending m (d.length + 2) (d ++ ([CR, LF] ++ m.encode cs)) (d ++ ChunkedBody.decode cs)

/-- The body of the connection is being read, and tempfiles can be written. -/
structure Steady (con : ReadPostCon) : Prop where
  received : con.requestContentQueue.bytesIn = con.requestContentQueue.bytes.length
  io : con.io = .success
  tempdirs : TempdirLeft con.requestContentQueue
  contentLength : con.contentLength = -1

/-- Of the body and the bytes behind it `unread` is still to come. -/
structure Reading (m : ChunkedBody) (suffix unread : Bytes) (con : ReadPostCon) (te : ℤ) :
    Prop extends Steady con where
  pending : ∃ s rest, Pending m te s rest ∧ con.readQueue.bytes ++ unread = s ++ suffix ∧
    con.requestContentQueue.bytes ++ rest = m.body

/-- What a call leaves: behind the end of the body the body and the bytes that follow it, before it
a part of the body. -/
def Decoded (m : ChunkedBody) (suffix unread : Bytes) (con : ReadPostCon) : Prop :=
  if unread.length ≤ suffix.length then
    con.requestContentQueue.bytes = m.body ∧ con.contentLength = m.body.length ∧
      con.teChunked = 0 ∧ con.readQueue.bytes ++ unread = suffix
  else con.contentLength = -1 ∧ con.requestContentQueue.bytes <+: m.body

/-- The bytes read end in the trailers, or in the empty line behind them, and from the last chunk on
they are `max_request_field_size` or more. -/
def CutsTail (conf : ReadPostConf) (m : ChunkedBody) (suffix unread : Bytes) : Prop :=
  suffix.length < unread.length ∧
    m.last.line.length + unread.length ≤ m.tail.length + suffix.length ∧
    conf.maxRequestFieldSize + unread.length ≤ m.tail.length + suffix.length

/-- What a call comes to. -/
inductive CallOutcome (conf : ReadPostConf) (m : ChunkedBody) (suffix unread : Bytes)
    (con : ReadPostCon) (te : ℤ) : Prop
  | decodes (turns : ℕ) (con' : ReadPostCon)
      (goOn : readPostLoop conf turns con te = some (.goOn con'))
      (decoded : Decoded m suffix unread con') (uncut : ¬ CutsTail conf m suffix unread)
      (reading : suffix.length < unread.length → Reading m suffix unread con' con'.teChunked)
      (small : unread.length ≤ suffix.length → ∀ c ∈ m.chunks, SmallChunk c)
  | cut (cuts : CutsTail conf m suffix unread)
      (fails : ∀ turns con', readPostLoop conf turns con te ≠ some (.goOn con'))
  | huge (c : DataChunk) (hc : c ∈ m.chunks) (big : ¬ SmallChunk c)
      (stuck : ∀ turns con', readPostLoop conf turns con te = some (.goOn con') →
        con'.teChunked < 0 ∧ con'.readQueue.bytes = [] ∧ con'.contentLength = -1 ∧
          suffix.length < unread.length)

section Outcome

variable {conf : ReadPostConf} {m : ChunkedBody} {suffix unread : Bytes} {con con' : ReadPostCon}
  {te te' : ℤ}

theorem Steady.moved {j k : ℕ} (h : Steady con) (hm : Moved con j k con') : Steady con' where
  received := by rw [hm.stored.2, hm.stored.1, List.length_append, h.received]
  io := (hm.clean h.io h.tempdirs).1
  tempdirs := (hm.clean h.io h.tempdirs).2
  contentLength := by rw [hm.eq]; exact h.contentLength

theorem CallOutcome.waits {turns : ℕ} (goOn : readPostLoop conf turns con te = some (.goOn con'))
    (h : Reading m suffix unread con' con'.teChunked) (hunread : suffix.length < unread.length)
    (uncut : ¬ CutsTail conf m suffix unread) : CallOutcome conf m suffix unread con te := by
  obtain ⟨s, rest, -, -, hbody⟩ := h.pending
  refine .decodes turns con' goOn ?_ uncut (fun _ => h) fun hle => absurd hle (by omega)
  rw [Decoded, if_neg (by omega)]
  exact ⟨h.contentLength, ⟨rest, hbody⟩⟩

theorem readPostLoop_leave (h : readPostTurn conf con te = .leave con' te') :
    readPostLoop conf 1 con te = some (.goOn { con' with teChunked := te' }) := by
  rw [readPostLoop, h]

theorem readPostLoop_run_nil (h : readPostTurn conf con te = .run con' te')
    (hempty : con'.readQueue.isEmpty = true) (turns : ℕ) :
    readPostLoop conf (turns + 1) con te = some (.goOn { con' with teChunked := te' }) := by
  rw [readPostLoop, h]
  exact if_pos hempty

theorem readPostLoop_run (h : readPostTurn conf con te = .run con' te')
    (hempty : con'.readQueue.isEmpty ≠ true) (turns : ℕ) :
    readPostLoop conf (turns + 1) con te = readPostLoop conf turns con' te' := by
  rw [readPostLoop, h]
  exact if_neg hempty

theorem CallOutcome.run (h : readPostTurn conf con te = .run con' te')
    (hempty : con'.readQueue.isEmpty ≠ true)
    (hrest : CallOutcome conf m suffix unread con' te') :
    CallOutcome conf m suffix unread con te := by
  cases hrest with
  | decodes turns con'' goOn decoded uncut reading small =>
    exact .decodes (turns + 1) con'' ((readPostLoop_run h hempty turns).trans goOn) decoded uncut
      reading small
  | cut cuts fails =>
    refine .cut cuts fun turns con'' hloop => ?_
    cases turns with
    | zero => exact absurd hloop (by simp [readPostLoop])
    | succ turns => exact fails turns con'' ((readPostLoop_run h hempty turns).symm.trans hloop)
  | huge c hc big stuck =>
    refine .huge c hc big fun turns con'' hloop => ?_
    cases turns with
    | zero => exact absurd hloop (by simp [readPostLoop])
    | succ turns => exact stuck turns con'' ((readPostLoop_run h hempty turns).symm.trans hloop)

theorem bytes_of_isEmpty {cq : Chunkqueue} (h : cq.isEmpty = true) : cq.bytes = [] := by
  rw [Chunkqueue.bytes, List.isEmpty_iff.mp h]
  rfl

theorem append_drop {α : Type*} {b u d v : List α} {j : ℕ} (h : b ++ u = d ++ v)
    (hb : j ≤ b.length) (hd : j ≤ d.length) :
    b.take j = d.take j ∧ b.drop j ++ u = d.drop j ++ v := by
  have htake := congrArg (List.take j) h
  have hdrop := congrArg (List.drop j) h
  rw [List.take_append_of_le_length hb, List.take_append_of_le_length hd] at htake
  rw [List.drop_append_of_le_length hb, List.drop_append_of_le_length hd] at hdrop
  exact ⟨htake, hdrop⟩

variable {cs pre : List DataChunk}

/-- Behind the last octet of a chunk, or in it, the trailers are not cut. -/
theorem not_cutsTail (conf : ReadPostConf)
    (h : (m.encode cs).length + suffix.length ≤ unread.length) :
    suffix.length < unread.length ∧ ¬ CutsTail conf m suffix unread := by
  have hle := m.length_tail_le cs
  have htail := length_tail m
  have hline := m.last.two_lt
  exact ⟨by omega, fun ⟨_, hcut, _⟩ => by omega⟩

theorem outcome_data {d : Bytes} (hturn : readPostTurn conf con te = readChunk con₁ (d.length + 2))
    (harr : Arranged false con₁.readQueue.chunks) (hsteady : Steady con₁)
    (hcs : m.chunks = pre ++ cs) (small : ∀ c ∈ pre, SmallChunk c)
    (hbytes : con₁.readQueue.bytes ++ unread = d ++ ([CR, LF] ++ m.encode cs) ++ suffix)
    (hbody : con₁.requestContentQueue.bytes ++ (d ++ ChunkedBody.decode cs) = m.body)
    (ih : ∀ con', con'.readQueue.bytes.length < con₁.readQueue.bytes.length →
      Arranged false con'.readQueue.chunks → Reading m suffix unread con' 0 →
      CallOutcome conf m suffix unread con' 0) : CallOutcome conf m suffix unread con te := by
  have hlen := congrArg List.length hbytes
  rw [List.append_assoc] at hbytes
  simp only [List.length_append, List.length_cons, List.length_nil] at hlen
  have hdata := readChunk_spec harr d.length
  rw [← hturn] at hdata
  generalize hph : readPostTurn conf con te = ph at hdata
  cases hdata with
  | short con' hshort moved =>
    have hj : min con₁.readQueue.bytes.length d.length ≤ d.length := min_le_right _ _
    obtain ⟨htake, hdrop⟩ := append_drop hbytes (min_le_left _ _) hj
    generalize min con₁.readQueue.bytes.length d.length = j at moved hph hj htake hdrop
    have hcut : (m.encode cs).length + suffix.length ≤ unread.length := by omega
    obtain ⟨hunread, uncut⟩ := not_cutsTail conf hcut
    refine .waits (readPostLoop_leave hph) ⟨?_, ?_⟩ hunread uncut
    · exact { hsteady.moved moved with }
    · have hpending := Pending.data (m := m) (d.drop j) pre cs hcs small
      rw [List.length_drop, Nat.cast_sub hj,
        show (d.length : ℤ) - j + 2 = d.length + 2 - j by omega] at hpending
      refine ⟨_, _, hpending, ?_, ?_⟩
      · dsimp only
        rw [moved.bytes, hdrop]
        simp
      · dsimp only
        rw [moved.stored.1, htake, List.append_assoc, ← List.append_assoc (d.take j),
          List.take_append_drop, hbody]
  | failed con' hio => exact absurd ⟨hsteady.io, hsteady.tempdirs⟩ hio
  | noCrlf con' hle hcrlf =>
    obtain ⟨-, hdrop⟩ := append_drop hbytes (show d.length ≤ _ by omega) le_rfl
    refine absurd ?_ hcrlf
    rw [List.drop_length, List.nil_append, List.append_assoc] at hdrop
    have hpre : [CR, LF] <+: con₁.readQueue.bytes.drop d.length ++ unread :=
      hdrop ▸ List.prefix_append _ _
    refine List.prefix_of_prefix_length_le hpre (List.prefix_append _ _) ?_
    rw [List.length_drop, List.length_cons, List.length_singleton]
    omega
  | crlf con' hle hcrlf moved =>
    have hbytes₂ : con₁.readQueue.bytes ++ unread = (d ++ [CR, LF]) ++ (m.encode cs ++ suffix) := by
      rw [hbytes]
      simp
    obtain ⟨-, hdrop⟩ := append_drop hbytes₂ hle (by simp)
    obtain ⟨htake, -⟩ := append_drop hbytes (show d.length ≤ _ by omega) le_rfl
    rw [show d.length + 2 = (d ++ [CR, LF]).length by simp, List.drop_length, List.nil_append] at hdrop
    rw [List.take_length] at htake
    have hreading : Reading m suffix unread con' 0 := by
      refine ⟨hsteady.moved moved, _, _, .header pre cs hcs small, ?_, ?_⟩
      · rw [moved.bytes]
        simpa using hdrop
      · rw [moved.stored.1, htake, List.append_assoc, hbody]
    by_cases hempty : con'.readQueue.isEmpty = true
    · have hnil : con'.readQueue.bytes.length = 0 := by rw [bytes_of_isEmpty hempty]; rfl
      rw [moved.bytes, List.length_drop] at hnil
      have hcut : (m.encode cs).length + suffix.length ≤ unread.length := by omega
      obtain ⟨hunread, uncut⟩ := not_cutsTail conf hcut
      exact .waits (readPostLoop_run_nil hph hempty 0)
        ⟨{ hreading.toSteady with }, hreading.pending⟩ hunread uncut
    · refine .run hph hempty (ih con' ?_ (moved.arranged false harr) hreading)
      rw [moved.bytes, List.length_drop]
      omega

/-- With a negative `te_chunked` the loop does not end while the read queue holds bytes. -/
theorem readPostLoop_neg (hte : te < 0) (turns : ℕ) (con' : ReadPostCon)
    (h : readPostLoop conf turns con te = some (.goOn con')) :
    con'.teChunked < 0 ∧ con'.readQueue = con.readQueue ∧ con.readQueue.bytes = [] ∧
      con'.contentLength = con.contentLength := by
  have hturn : readPostTurn conf con te = .run con te := by
    rw [readPostTurn, if_neg (by omega)]
    exact readChunk_neg hte
  induction turns with
  | zero => exact absurd h (by simp [readPostLoop])
  | succ turns ih =>
    by_cases hempty : con.readQueue.isEmpty = true
    · rw [readPostLoop_run_nil hturn hempty] at h
      cases h
      exact ⟨hte, rfl, bytes_of_isEmpty hempty, rfl⟩
    · rw [readPostLoop_run hturn hempty] at h
      exact ih h

theorem outcome_last (conf : ReadPostConf) (hline : m.last.line.length < 1024)
    (harr : Arranged false con.readQueue.chunks) (hsteady : Steady con)
    (small : ∀ c ∈ m.chunks, SmallChunk c)
    (hbytes : con.readQueue.bytes ++ unread = m.tail ++ suffix)
    (hbody : con.requestContentQueue.bytes = m.body) :
    CallOutcome conf m suffix unread con 0 := by
  have hlen := congrArg List.length hbytes
  rw [List.length_append, List.length_append] at hlen
  have htail := length_tail m
  have hprefix : con.readQueue.bytes <+: m.tail ++ suffix := ⟨unread, hbytes⟩
  have hpending := Pending.header (m := m) m.chunks [] (by simp) small
  have hwaits : ∀ q : Chunkqueue, q.bytes = con.readQueue.bytes →
      Reading m suffix unread { con with readQueue := q, teChunked := 0 } 0 := fun q hq =>
    ⟨{ hsteady with }, _, _, hpending, by rw [hq]; exact hbytes, by simpa using hbody⟩
  obtain ⟨ph, hturn, hheader⟩ := readPostTurn_header conf harr
  by_cases hpart : con.readQueue.bytes.length < m.last.line.length
  · obtain ⟨q, rfl, hq⟩ := hheader.inv_incomplete (chunkHeader_incomplete m.last
      (r := m.trailers ++ [CR, LF] ++ suffix) hline
      (by rw [← List.append_assoc]; exact hprefix) hpart)
    exact .waits (readPostLoop_leave hturn) (hwaits q hq) (by omega) fun h =>
      absurd h.2.1 (by omega)
  by_cases hshort : con.readQueue.bytes.length < m.tail.length
  · have hunfinished := chunkHeader_unfinished_tail m hline hprefix (by omega) hshort
    rcases hheader.inv_unfinished hunfinished with ⟨cuts, -⟩ | ⟨uncut, q, rfl, hq⟩
    · refine .cut ⟨by omega, by omega, ?_⟩ fun turns con' hloop => ?_
      · have hmax : conf.maxRequestFieldSize ≤ con.readQueue.bytes.length := by
          simpa [cutsTrailers] using cuts
        omega
      · rcases readPostLoop_cut harr hunfinished cuts hloop with h | h <;> cases h
    · have hmax : con.readQueue.bytes.length < conf.maxRequestFieldSize := by
        simpa [cutsTrailers] using uncut
      exact .waits (readPostLoop_leave hturn) (hwaits q hq) (by omega) fun h =>
        absurd h.2.2 (by omega)
  · obtain ⟨-, hdrop⟩ := append_drop hbytes (show m.tail.length ≤ _ by omega) le_rfl
    rw [List.drop_length, List.nil_append] at hdrop
    have hb : con.readQueue.bytes = m.tail ++ con.readQueue.bytes.drop m.tail.length := by
      rw [← hdrop, ← List.append_assoc, List.append_cancel_right_eq] at hbytes
      exact hbytes
    obtain ⟨q, rfl, hq⟩ := hheader.inv_last (hb ▸ chunkHeader_last_tail m hline _)
    refine .decodes 1 _ (readPostLoop_leave hturn) ?_ (fun h => absurd h.1 (by omega))
      (fun h => absurd h (by omega)) fun _ => small
    rw [Decoded, if_pos (by omega)]
    refine ⟨hbody, ?_, rfl, by rw [← hdrop, hq]⟩
    dsimp only
    rw [hsteady.received, hbody]

/-- Every line of the body is shorter than 1024 octets. -/
def ShortLines (m : ChunkedBody) : Prop :=
  (∀ c ∈ m.chunks, c.header.line.length < 1024) ∧ m.last.line.length < 1024

/-- `max_request_size` allows the body. -/
def SizeAllowed (conf : ReadPostConf) (m : ChunkedBody) : Prop :=
  conf.maxRequestSize = 0 ∨ m.body.length ≤ conf.maxRequestSize <<< 10

theorem not_requestTooLong {received te : ℕ} (h : SizeAllowed conf m)
    (hle : received + te ≤ m.body.length) : requestTooLong conf received te = false := by
  unfold requestTooLong
  simp only [decide_eq_false_iff_not, not_and, not_or, Nat.shiftLeft_eq]
  rintro hmax
  rcases h with h | h
  · rw [h, Nat.zero_mul] at hmax
    exact absurd rfl hmax
  · rw [Nat.shiftLeft_eq] at h
    omega

theorem outcome_chunk {c : DataChunk} (hsize : SizeAllowed conf m)
    (hline : c.header.line.length < 1024) (harr : Arranged false con.readQueue.chunks)
    (hsteady : Steady con) (hcs : m.chunks = pre ++ c :: cs) (small : ∀ c ∈ pre, SmallChunk c)
    (hbytes : con.readQueue.bytes ++ unread = m.encode (c :: cs) ++ suffix)
    (hbody : con.requestContentQueue.bytes ++ ChunkedBody.decode (c :: cs) = m.body)
    (ih : ∀ con', con'.readQueue.bytes.length < con.readQueue.bytes.length →
      Arranged false con'.readQueue.chunks → Reading m suffix unread con' 0 →
      CallOutcome conf m suffix unread con' 0) : CallOutcome conf m suffix unread con 0 := by
  have hlen := congrArg List.length hbytes
  have hbodylen := congrArg List.length hbody
  have hmem : c ∈ m.chunks := by rw [hcs]; simp
  have hcne : c.data.length ≠ 0 := by simpa using c.nonempty
  have hpos := c.header.two_lt
  rw [ChunkedBody.encode_cons] at hbytes
  rw [ChunkedBody.encode_cons] at hlen
  rw [ChunkedBody.decode_cons] at hbody hbodylen
  simp only [List.length_append, List.length_cons, List.length_nil] at hlen hbodylen
  obtain ⟨ph, hturn, hheader⟩ := readPostTurn_header conf harr
  by_cases hpart : con.readQueue.bytes.length < c.header.line.length
  · obtain ⟨q, rfl, hq⟩ := hheader.inv_incomplete (chunkHeader_incomplete c.header
      (r := c.data ++ ([CR, LF] ++ m.encode cs) ++ suffix) hline
      ⟨unread, by rw [hbytes]; simp⟩ hpart)
    have hcut : (m.encode cs).length + suffix.length ≤ unread.length := by omega
    obtain ⟨hunread, uncut⟩ := not_cutsTail conf hcut
    refine .waits (readPostLoop_leave hturn) ⟨{ hsteady with }, _, _,
      .header pre (c :: cs) hcs small, ?_, ?_⟩ hunread uncut
    · rw [ChunkedBody.encode_cons, ← hbytes, ← hq]
    · rw [ChunkedBody.decode_cons, ← hbody]
  rw [List.append_assoc] at hbytes
  obtain ⟨hhead, hdrop⟩ := append_drop hbytes (show c.header.line.length ≤ _ by omega) le_rfl
  rw [List.drop_length, List.nil_append] at hdrop
  rw [List.take_length] at hhead
  have hb : con.readQueue.bytes =
      c.header.line ++ con.readQueue.bytes.drop c.header.line.length := by
    conv_lhs => rw [← List.take_append_drop c.header.line.length con.readQueue.bytes, hhead]
  have hch : chunkHeader con.readQueue.bytes = if c.data.length < 2 ^ 63 then
      .size c.data.length c.header.line.length else .refused := by
    rw [hb]
    exact chunkHeader_line c.header _ hline hcne
  by_cases hbig : c.data.length < 2 ^ 63
  · rw [if_pos hbig] at hch
    obtain ⟨q, rfl, hq, hqa⟩ := hheader.inv_size hch
      (not_requestTooLong hsize (by rw [hsteady.received]; omega))
    rw [Phase.andThen] at hturn
    by_cases hc : SmallChunk c
    · have hwrap : wrap64 (c.data.length + 2) = c.data.length + 2 := by
        unfold SmallChunk at hc
        rw [wrap64, Int.bmod_eq_of_le] <;> omega
      rw [hwrap] at hturn
      have hcs' : m.chunks = (pre ++ [c]) ++ cs := by rw [hcs]; simp
      refine outcome_data hturn hqa { hsteady with } hcs' (fun c' hc' => ?_) (by rw [hq, hdrop]) hbody
        fun con' hlt => ?_
      · rcases List.mem_append.mp hc' with h | h
        · exact small c' h
        · exact List.mem_singleton.mp h ▸ hc
      · refine ih con' (hlt.trans_le ?_)
        rw [hq, List.length_drop]
        exact Nat.sub_le _ _
    · have hwrap : wrap64 (c.data.length + 2) < 0 := by
        unfold SmallChunk at hc
        rw [wrap64, Int.bmod]
        split_ifs <;> omega
      rw [readChunk_neg hwrap] at hturn
      generalize wrap64 (c.data.length + 2) = te at hwrap hturn
      refine .huge c hmem hc fun turns con' hloop => ?_
      have hnil : q.bytes = [] → suffix.length < unread.length := fun h => by
        rw [h] at hq
        have := congrArg List.length hq
        rw [List.length_nil, List.length_drop] at this
        omega
      cases turns with
      | zero => exact absurd hloop (by simp [readPostLoop])
      | succ turns =>
        by_cases hempty : q.isEmpty = true
        · rw [readPostLoop_run_nil hturn hempty] at hloop
          cases hloop
          have hqnil := bytes_of_isEmpty hempty
          exact ⟨hwrap, hqnil, hsteady.contentLength, hnil hqnil⟩
        · rw [readPostLoop_run hturn hempty] at hloop
          obtain ⟨hte, heq, hqnil, hlength⟩ := readPostLoop_neg hwrap turns con' hloop
          exact ⟨hte, by rw [heq]; exact hqnil, hlength.trans hsteady.contentLength, hnil hqnil⟩
  · rw [if_neg hbig] at hch
    obtain ⟨con', rfl⟩ := hheader.inv_refused hch
    refine .huge c hmem (fun h => hbig (by unfold SmallChunk at h; omega)) fun turns con'' hloop => ?_
    cases turns with
    | zero => exact absurd hloop (by simp [readPostLoop])
    | succ turns =>
      rw [readPostLoop, hturn] at hloop
      exact absurd (Option.some.inj hloop) ((connectionHandleReadPostError_ne _ _).1 _)

theorem callOutcome (hsize : SizeAllowed conf m) (hlines : ShortLines m) (k : ℕ) :
    ∀ {con : ReadPostCon} {te : ℤ}, con.readQueue.bytes.length = k →
      Arranged false con.readQueue.chunks → Reading m suffix unread con te →
      CallOutcome conf m suffix unread con te := by
  induction k using Nat.strong_induction_on with
  | _ k ih =>
    rintro con te rfl harr ⟨hsteady, s, rest, hpending, hbytes, hbody⟩
    cases hpending with
    | header pre cs hcs small =>
      cases cs with
      | nil =>
        rw [List.append_nil] at hcs
        exact outcome_last conf hlines.2 harr hsteady (hcs ▸ small) hbytes (by simpa using hbody)
      | cons c cs =>
        have hline : c.header.line.length < 1024 := hlines.1 c (by rw [hcs]; simp)
        exact outcome_chunk hsize hline harr hsteady hcs small hbytes hbody
          fun con' hlt => ih _ hlt rfl
    | data d pre cs hcs small =>
      exact outcome_data (readPostTurn_data conf con d.length) harr hsteady hcs small hbytes hbody
        fun con' hlt => ih _ hlt rfl

end Outcome

/-! ## Reads -/

/-- A network read of `x`: its bytes are behind those of the read queue, in any chunks in memory. -/
structure NetworkRead (con : ReadPostCon) (x : Bytes) (con' : ReadPostCon) : Prop where
  eq : con' = { con with readQueue := con'.readQueue }
  bytes : con'.readQueue.bytes = con.readQueue.bytes ++ x
  arranged : Arranged false con'.readQueue.chunks

/-- The limits of a configuration; where memory is and how full the cache is may change. -/
def SameLimits (limits conf : ReadPostConf) : Prop :=
  conf.maxRequestSize = limits.maxRequestSize ∧
    conf.maxRequestFieldSize = limits.maxRequestFieldSize

/-- Reads, with a call behind each until the body is complete: every call returns `HANDLER_GO_ON`,
and leaves what it must. -/
def DecodesReads (limits : ReadPostConf) (m : ChunkedBody) (suffix : Bytes) :
    ReadPostCon → List Bytes → Prop
  | _, [] => True
  | con, x :: xs =>
    ∀ con₁ conf, NetworkRead con x con₁ → SameLimits limits conf →
      ∃ turns con₂, connectionHandleReadPostChunked conf turns con₁ = some (.goOn con₂) ∧
        Decoded m suffix xs.flatten con₂ ∧
        (con₂.contentLength = -1 → DecodesReads limits m suffix con₂ xs)

/-- A request whose chunked body is not read yet. -/
structure NewBody (con : ReadPostCon) : Prop where
  readQueue : con.readQueue.bytes = []
  requestContentQueue : con.requestContentQueue.bytesIn = 0
  teChunked : con.teChunked = 0
  contentLength : con.contentLength = -1
  io : con.io = .success
  tempdirs : TempdirLeft con.requestContentQueue

section Reads

variable {limits : ReadPostConf} {m : ChunkedBody} {suffix : Bytes} {con : ReadPostCon}
  {reads : List Bytes}

theorem NewBody.reading (h : NewBody con) {unread : Bytes} (hunread : unread = m.bytes ++ suffix) :
    Reading m suffix unread con con.teChunked := by
  have hb := con.requestContentQueue.balanced
  rw [h.requestContentQueue] at hb
  have hnil : con.requestContentQueue.bytes = [] := List.length_eq_zero_iff.mp (by
    rw [Chunkqueue.bytes]
    omega)
  refine ⟨⟨by rw [h.requestContentQueue, hnil]; rfl, h.io, h.tempdirs, h.contentLength⟩,
    m.bytes, m.body, ?_, by rw [h.readQueue, hunread]; rfl, by rw [hnil]; rfl⟩
  rw [h.teChunked]
  exact .header [] m.chunks rfl (by simp)

variable {x : Bytes} {xs : List Bytes}

theorem Reading.networkRead {unread : Bytes} (h : Reading m suffix (x ++ unread) con con.teChunked)
    (hread : NetworkRead con x con₁) : Reading m suffix unread con₁ con₁.teChunked := by
  obtain ⟨hsteady, s, rest, hpending, hbytes, hbody⟩ := h
  have hq := hread.bytes
  rw [hread.eq] at hq ⊢
  refine ⟨{ hsteady with }, s, rest, hpending, ?_, hbody⟩
  rw [hq, List.append_assoc, hbytes]

theorem exists_networkRead (con : ReadPostCon) (x : Bytes) : ∃ con₁, NetworkRead con x con₁ := by
  refine ⟨{ con with
    readQueue := chunkqueueAppendMem (chunkqueueInit 0 0) (con.readQueue.bytes ++ x) }, rfl, ?_, ?_⟩
  · dsimp only
    rw [bytes_appendMem]
    rfl
  · dsimp only
    rw [chunkqueueAppendMem]
    split_ifs with hnil
    · trivial
    · refine ⟨rfl, iff_of_false ?_ (by decide)⟩
      rwa [← Chunk.remaining_eq_nil_iff]

/-- No read ends in the trailers with `max_request_field_size` octets or more from the last chunk
on. -/
def ReadsUncut (limits : ReadPostConf) (m : ChunkedBody) (suffix : Bytes) (reads : List Bytes) :
    Prop :=
  ∀ seen unread, reads = seen ++ unread → seen ≠ [] → ¬ CutsTail limits m suffix unread.flatten

theorem ReadsUncut.head (h : ReadsUncut limits m suffix (x :: xs)) :
    ¬ CutsTail limits m suffix xs.flatten :=
  h [x] xs rfl (List.cons_ne_nil _ _)

theorem ReadsUncut.tail (h : ReadsUncut limits m suffix (x :: xs)) :
    ReadsUncut limits m suffix xs := fun seen unread heq _ =>
  h (x :: seen) unread (by rw [heq]; rfl) (List.cons_ne_nil _ _)

theorem readsUncut_cons (h : ¬ CutsTail limits m suffix xs.flatten)
    (hxs : ReadsUncut limits m suffix xs) : ReadsUncut limits m suffix (x :: xs) := by
  intro seen unread heq hne
  cases seen with
  | nil => exact absurd rfl hne
  | cons y seen =>
    rw [List.cons_append, List.cons.injEq] at heq
    cases seen with
    | nil =>
      rw [← show xs = unread from heq.2]
      exact h
    | cons z seen => exact hxs (z :: seen) unread heq.2 (List.cons_ne_nil _ _)

theorem readsUncut_of_le (h : xs.flatten.length ≤ suffix.length) :
    ReadsUncut limits m suffix xs := by
  rintro seen unread rfl - ⟨hcut, -⟩
  rw [List.flatten_append, List.length_append] at h
  omega

theorem decodesReads_of_uncut (hsize : SizeAllowed limits m) (hlines : ShortLines m)
    (small : ∀ c ∈ m.chunks, SmallChunk c) :
    ∀ {reads : List Bytes} {con : ReadPostCon}, Reading m suffix reads.flatten con con.teChunked →
      ReadsUncut limits m suffix reads → DecodesReads limits m suffix con reads
  | [], _, _, _ => trivial
  | x :: xs, con, h, huncut => by
    rintro con₁ conf hread ⟨hmax, hfield⟩
    have hsize' : SizeAllowed conf m := by rwa [SizeAllowed, hmax]
    cases callOutcome hsize' hlines _ rfl hread.arranged (h.networkRead hread) with
    | decodes turns con₂ goOn decoded uncut reading _ =>
      refine ⟨turns, con₂, goOn, decoded, fun hlength => ?_⟩
      refine decodesReads_of_uncut hsize hlines small (reading ?_) huncut.tail
      by_contra hle
      rw [Decoded, if_pos (by omega), hlength] at decoded
      omega
    | cut cuts =>
      rw [CutsTail, hfield] at cuts
      exact absurd cuts huncut.head
    | huge c hc big => exact absurd (small c hc) big

/-- With a negative `te_chunked` the body is not decoded. -/
theorem not_decodesReads_neg : ∀ {reads : List Bytes} {con : ReadPostCon}, con.teChunked < 0 →
    con.readQueue.bytes = [] → con.contentLength = -1 → reads.flatten ≠ [] →
    ¬ DecodesReads limits m suffix con reads
  | [], _, _, _, _, hne => absurd rfl hne
  | x :: xs, con, hte, hnil, hlength, hne => by
    intro h
    obtain ⟨con₁, hread⟩ := exists_networkRead con x
    obtain ⟨turns, con₂, goOn, -, hrest⟩ := h con₁ limits hread ⟨rfl, rfl⟩
    have hte₁ : con₁.teChunked < 0 := by rw [hread.eq]; exact hte
    have hlength₁ : con₁.contentLength = -1 := by rw [hread.eq]; exact hlength
    obtain ⟨hte₂, hq, hnil₁, hlength₂⟩ := readPostLoop_neg hte₁ turns con₂ goOn
    have hx := hread.bytes
    rw [hnil₁, hnil, List.nil_append] at hx
    refine not_decodesReads_neg hte₂ (by rw [hq, hnil₁]) (hlength₂.trans hlength₁) ?_
      (hrest (hlength₂.trans hlength₁))
    rwa [List.flatten_cons, ← hx, List.nil_append] at hne

theorem DecodesReads.uncut (hsize : SizeAllowed limits m) (hlines : ShortLines m) :
    ∀ {reads : List Bytes} {con : ReadPostCon}, Reading m suffix reads.flatten con con.teChunked →
      suffix.length < reads.flatten.length → DecodesReads limits m suffix con reads →
      (∀ c ∈ m.chunks, SmallChunk c) ∧ ReadsUncut limits m suffix reads
  | [], _, _, hlt, _ => absurd hlt (Nat.not_lt_zero _)
  | x :: xs, con, h, _, hdec => by
    obtain ⟨con₁, hread⟩ := exists_networkRead con x
    obtain ⟨turns, con₂, goOn, -, hrest⟩ := hdec con₁ limits hread ⟨rfl, rfl⟩
    cases callOutcome hsize hlines _ rfl hread.arranged (h.networkRead hread) with
    | decodes turns' con₂' goOn' decoded uncut reading small =>
      cases readPostLoop_unique goOn goOn'
      by_cases hlt : suffix.length < xs.flatten.length
      · rw [Decoded, if_neg (by omega)] at decoded
        obtain ⟨hsmall, hxs⟩ := (hrest decoded.1).uncut hsize hlines (reading hlt) hlt
        exact ⟨hsmall, readsUncut_cons uncut hxs⟩
      · have hle : xs.flatten.length ≤ suffix.length := by omega
        exact ⟨small hle, readsUncut_cons uncut (readsUncut_of_le hle)⟩
    | cut cuts fails => exact absurd goOn (fails turns con₂)
    | huge c hc big stuck =>
      obtain ⟨hte, hnil, hlength, hlt⟩ := stuck turns con₂ goOn
      refine absurd (hrest hlength) (not_decodesReads_neg hte hnil hlength fun hempty => ?_)
      rw [hempty] at hlt
      exact Nat.not_lt_zero _ hlt

theorem length_bytes_pos (m : ChunkedBody) : 0 < m.bytes.length := by
  have hle := m.length_tail_le m.chunks
  have hline := m.last.two_lt
  rw [length_tail] at hle
  change 0 < (m.encode m.chunks).length
  omega

/-- The body `a` in one chunk, and a trailer. -/
def oneChunkBody : ChunkedBody where
  chunks := [⟨str "a", by decide +kernel,
    ⟨str "01", str ";x", by decide +kernel, by decide +kernel, by decide +kernel⟩⟩]
  last := ⟨str "0", [], by decide +kernel, by decide +kernel, by decide +kernel⟩
  trailers := str "b: c\r\n"
  isTrailers := by decide +kernel

theorem oneKByte_lt : 1 < 2 ^ 32 := by decide

theorem pageAddress_gt : 4 < 4096 := by decide

/-- Bodies of 1 kB, and a limit for header fields. -/
def fieldLimits (maxRequestFieldSize : ℕ) : ReadPostConf :=
  ⟨1, maxRequestFieldSize, 4096, false, oneKByte_lt, pageAddress_gt⟩

/-- A connection that waits for a chunked body. -/
def newBodyCon : ReadPostCon :=
  ⟨chunkqueueInit 0 0, chunkqueueInit 0 0, chunkqueueInit 0 0, 0, -1, true, 0, 0, 0, .success⟩

theorem newBody_newBodyCon : NewBody newBodyCon := ⟨rfl, rfl, rfl, rfl, rfl, .inl rfl⟩

theorem shortLines_oneChunkBody : ShortLines oneChunkBody := by
  refine ⟨fun c hc => ?_, by decide +kernel⟩
  rw [List.mem_singleton.mp hc]
  decide

end Reads

end Lighttpd
