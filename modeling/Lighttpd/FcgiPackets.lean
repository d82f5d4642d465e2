import Lighttpd.FcgiRequest
import Lighttpd.Lib.PartialRuns

/-!
# Records from a FastCGI backend

`fastcgi_get_packet` gathers the header and the content of a record from the chunks of the queue
`rb`, and takes them off the queue when all of the record is there. The records that it gives are
those of the stream, whatever its cuts are (`fcgiReceive_records`).

The chunks of the queue are in memory.
-/

namespace Lighttpd

open CString PartialRuns FastCgi

/-! ## One record -/

/-- `fastcgi_response_packet`. -/
structure FcgiPacket where
  b : Bytes
  len : ℕ
  type : UInt8
  padding : ℕ
  requestId : ℕ
  deriving DecidableEq, Repr

/-- The loop over the chunks for the header: what it gathers, the chunks from the one that it ends
in, and how much of that chunk it takes. -/
def fcgiHeaderLoop : List Chunk → ℕ → Bytes → Bytes × List Chunk × ℕ
  | [], _, b => (b, [], 0)
  | c :: cs, toread, b =>
    let weHave := if c.data.length - c.offset > toread then toread else c.data.length - c.offset
    let b := b ++ (c.data.drop c.offset).take weHave
    if toread - weHave = 0 then (b, c :: cs, weHave) else fcgiHeaderLoop cs (toread - weHave) b

/-- The loop over the chunks for the content. -/
def fcgiContentLoop (len : ℕ) : List Chunk → ℕ → Bytes → Bytes
  | [], _, b => b
  | c :: cs, offset, b =>
    if b.length < len then
      let weWant := len - b.length
      let weHave := c.data.length - c.offset - offset
      let weHave := if weHave > weWant then weWant else weHave
      fcgiContentLoop len cs 0 (b ++ (c.data.drop (c.offset + offset)).take weHave)
    else b

/-- The fields of a header, without the content. -/
def packetOfHeader (header : Bytes) : FcgiPacket where
  b := []
  len := ((header.getD 5 0).toNat ||| (header.getD 4 0).toNat <<< 8) + (header.getD 6 0).toNat
  type := header.getD 1 0
  padding := (header.getD 6 0).toNat
  requestId := (header.getD 3 0).toNat ||| (header.getD 2 0).toNat <<< 8

/-- What `fastcgi_get_packet` comes to. -/
inductive GetPacket
  | notEnough
  | packet (p : FcgiPacket) (rb : Chunkqueue)

/-- `fastcgi_get_packet`; `none` when an assertion fails. -/
def fastcgiGetPacket (rb : Chunkqueue) : Option GetPacket :=
  if rb.chunks.isEmpty then some .notEnough
  else
    let head := fcgiHeaderLoop rb.chunks 8 []
    if head.1.length < 8 then some .notEnough
    else
      let packet := packetOfHeader head.1
      let b := if packet.len ≠ 0 then fcgiContentLoop packet.len head.2.1 head.2.2 [] else []
      if b.length < packet.len then some .notEnough
      else
        (chunkqueueMarkWritten rb (packet.len + 8 : ℕ)).map fun rb =>
          .packet { packet with b := b.take (b.length - packet.padding) } rb

/-- The chunks `cs` hold `s` from the byte `offset` of the first one on. -/
def HoldFrom (cs : List Chunk) (offset : ℕ) (s : Bytes) : Prop :=
  (∀ c cs', cs = c :: cs' → offset ≤ c.remaining.length) ∧ (content cs).drop offset = s

theorem take_remaining (c : Chunk) (offset n : ℕ) :
    (c.data.drop (c.offset + offset)).take n = (c.remaining.drop offset).take n := by
  rw [Chunk.remaining, List.drop_drop]

theorem fcgiHeaderLoop_spec : ∀ (cs : List Chunk) (toread : ℕ) (b : Bytes), 0 < toread →
    ((content cs).length < toread ∧ (fcgiHeaderLoop cs toread b).1 = b ++ content cs) ∨
      (toread ≤ (content cs).length ∧
        (fcgiHeaderLoop cs toread b).1 = b ++ (content cs).take toread ∧
          HoldFrom (fcgiHeaderLoop cs toread b).2.1 (fcgiHeaderLoop cs toread b).2.2
            ((content cs).drop toread))
  | [], toread, b, hpos => .inl ⟨hpos, (List.append_nil b).symm⟩
  | c :: cs, toread, b, hpos => by
    have hlen : c.data.length - c.offset = c.remaining.length := (Chunk.length_remaining c).symm
    have htake (n : ℕ) : (c.data.drop c.offset).take n = c.remaining.take n := rfl
    simp only [fcgiHeaderLoop, content_cons, List.length_append, hlen, htake]
    by_cases hc : toread ≤ c.remaining.length
    · have hhave : (if c.remaining.length > toread then toread else c.remaining.length) =
          toread := by split_ifs <;> omega
      rw [hhave, if_pos (Nat.sub_self toread)]
      refine .inr ⟨by omega, ?_, ?_, rfl⟩
      · rw [List.take_append_of_le_length hc]
      · rintro _ _ ⟨⟩
        exact hc
    · have hle : c.remaining.length ≤ toread := Nat.le_of_not_le hc
      have hhave : (if c.remaining.length > toread then toread else c.remaining.length) =
          c.remaining.length := if_neg (by omega)
      rw [hhave, if_neg (by omega), List.take_length]
      obtain ⟨hlt, hb⟩ | ⟨henough, hb, hrest⟩ :=
        fcgiHeaderLoop_spec cs (toread - c.remaining.length) (b ++ c.remaining) (by omega)
      · exact .inl ⟨by omega, by rw [hb, List.append_assoc]⟩
      · refine .inr ⟨by omega, ?_, ?_⟩
        · rw [hb, List.take_append, List.take_of_length_le hle, List.append_assoc]
        · rw [List.drop_append, List.drop_eq_nil_of_le hle, List.nil_append]
          exact hrest

theorem fcgiContentLoop_spec (len : ℕ) : ∀ (cs : List Chunk) (offset : ℕ) (b s : Bytes),
    HoldFrom cs offset s → b.length ≤ len →
      fcgiContentLoop len cs offset b = b ++ s.take (len - b.length)
  | [], offset, b, s, h, _ => by
    rw [← h.2]
    simp [fcgiContentLoop]
  | c :: cs, offset, b, s, h, hb => by
    have hoff : offset ≤ c.remaining.length := h.1 c cs rfl
    have hs : c.remaining.drop offset ++ content cs = s := by
      rw [← h.2, content_cons, List.drop_append_of_le_length hoff]
    have hlen : c.data.length - c.offset - offset = (c.remaining.drop offset).length := by
      rw [List.length_drop, Chunk.length_remaining, Chunk.remainingLength]
    rw [fcgiContentLoop]
    split_ifs with hlt
    · simp only [hlen, take_remaining]
      generalize c.remaining.drop offset = t at hs
      have hmin : (if t.length > len - b.length then len - b.length else t.length) =
          min (len - b.length) t.length := by
        split_ifs <;> omega
      have htake : t.take (min (len - b.length) t.length) = t.take (len - b.length) := by
        rw [List.take_eq_take_iff]
        omega
      have hnext : HoldFrom cs 0 (content cs) := ⟨fun _ _ _ => Nat.zero_le _, rfl⟩
      rw [hmin, htake, fcgiContentLoop_spec len cs 0 _ _ hnext
        (by rw [List.length_append, List.length_take]; omega), ← hs, List.take_append,
        List.append_assoc, List.length_append, List.length_take]
      congr 3
      omega
    · have hzero : len - b.length = 0 := by omega
      rw [hzero, List.take_zero, List.append_nil]

variable {rb : Chunkqueue} {r : WireRecord} {t : Bytes}

/-- The packet that stands for a record. -/
def packetOf (r : WireRecord) : FcgiPacket where
  b := r.content
  len := r.content.length + r.padding.length
  type := r.type
  padding := r.padding.length
  requestId := r.requestId

theorem shiftLeft_or_ofNat {n : ℕ} (h : n < 2 ^ 16) :
    (UInt8.ofNat n).toNat ||| (UInt8.ofNat (n / 256)).toNat <<< 8 = n := by
  have hlow : (UInt8.ofNat n).toNat < 2 ^ 8 := (UInt8.ofNat n).toNat_lt
  rw [Nat.or_comm, ← Nat.shiftLeft_add_eq_or_of_lt hlow, Nat.shiftLeft_eq]
  exact FastCgi.toNat_bytes16 h

theorem packetOfHeader_eq (h : r.Valid) :
    packetOfHeader r.header = { packetOf r with b := [] } := by
  have hpad : (UInt8.ofNat r.padding.length).toNat = r.padding.length := by
    rw [UInt8.toNat_ofNat']
    exact Nat.mod_eq_of_lt h.2.2
  simp only [packetOfHeader, WireRecord.header, bytes16, packetOf, List.cons_append,
    List.nil_append, List.getD_cons_succ, List.getD_cons_zero, shiftLeft_or_ofNat h.1,
    shiftLeft_or_ofNat h.2.1, hpad]

theorem fastcgiGetPacket_of_short (h : rb.bytes.length < 8) :
    fastcgiGetPacket rb = some .notEnough := by
  rw [fastcgiGetPacket]
  split_ifs with hempty
  · rfl
  · obtain ⟨-, hb⟩ | ⟨hle, -⟩ := fcgiHeaderLoop_spec rb.chunks 8 [] (by decide)
    · simp only [hb, List.nil_append]
      exact if_pos h
    · exact absurd h (Nat.not_lt.mpr hle)

/-- With a header at the front of the queue, what is behind it. -/
theorem fastcgiGetPacket_of_header (hvalid : r.Valid) {s : Bytes} (h : rb.bytes = r.header ++ s) :
    fastcgiGetPacket rb =
      if s.length < r.content.length + r.padding.length then some .notEnough
      else
        (chunkqueueMarkWritten rb (r.content.length + r.padding.length + 8 : ℕ)).map fun rb =>
          .packet { packetOf r with b := s.take r.content.length } rb := by
  have hcontent : content rb.chunks = r.header ++ s := h
  have hne : rb.chunks.isEmpty = false := by
    rw [List.isEmpty_eq_false_iff]
    intro hnil
    rw [hnil] at hcontent
    exact absurd hcontent.symm (by simp [WireRecord.header])
  obtain ⟨hlt, -⟩ | ⟨-, hhead, hrest⟩ := fcgiHeaderLoop_spec rb.chunks 8 [] (by decide)
  · rw [hcontent, List.length_append, length_wireHeader] at hlt
    omega
  rw [hcontent, List.nil_append, List.take_append_of_le_length (by simp),
    List.take_of_length_le (by simp)] at hhead
  rw [hcontent, List.drop_append, List.drop_eq_nil_of_le (by simp), List.nil_append] at hrest
  have hpacket := packetOfHeader_eq hvalid
  have hlen : (packetOf r).len = r.content.length + r.padding.length := rfl
  -- an empty content is not gathered at all
  have hgathered : (if r.content.length + r.padding.length ≠ 0 then
      fcgiContentLoop (r.content.length + r.padding.length) (fcgiHeaderLoop rb.chunks 8 []).2.1
        (fcgiHeaderLoop rb.chunks 8 []).2.2 [] else []) =
          s.take (r.content.length + r.padding.length) := by
    split_ifs with hzero
    · exact fcgiContentLoop_spec _ _ _ [] _ hrest (Nat.zero_le _)
    · rw [not_not.mp hzero, List.take_zero]
  rw [fastcgiGetPacket, hne, if_neg Bool.false_ne_true]
  simp only [hhead, length_wireHeader, lt_irrefl, if_false, hpacket, hgathered, hlen]
  have hshort : (s.take (r.content.length + r.padding.length)).length <
      r.content.length + r.padding.length ↔
        s.length < r.content.length + r.padding.length := by
    rw [List.length_take]
    omega
  simp only [hshort]
  split_ifs with hlt
  · rfl
  · have htake : (s.take (r.content.length + r.padding.length)).take
        ((s.take (r.content.length + r.padding.length)).length - (packetOf r).padding) =
          s.take r.content.length := by
      rw [List.take_take, List.length_take]
      congr 1
      show min (min _ _ - r.padding.length) _ = _
      omega
    rw [htake]

/-- A call gives the record at the front of the queue when all of it is there, and takes it off;
else there is not enough data. -/
theorem fastcgiGetPacket_spec (hvalid : r.Valid) (h : rb.bytes <+: r.encode ++ t) :
    (rb.bytes.length < r.encode.length → fastcgiGetPacket rb = some .notEnough) ∧
      (r.encode.length ≤ rb.bytes.length → ∃ rb',
        fastcgiGetPacket rb = some (.packet (packetOf r) rb') ∧
          rb.bytes = r.encode ++ rb'.bytes ∧ rb'.bytesIn = rb.bytesIn) := by
  by_cases h8 : rb.bytes.length < 8
  · refine ⟨fun _ => fastcgiGetPacket_of_short h8, fun hle => ?_⟩
    rw [length_wireEncode] at hle
    omega
  have hheader : r.header <+: rb.bytes := by
    have hpre : r.header <+: r.encode ++ t :=
      (List.prefix_append _ _).trans (List.prefix_append _ _)
    exact List.prefix_of_prefix_length_le hpre h (by simpa using h8)
  obtain ⟨s, hs⟩ := hheader
  have hget := fastcgiGetPacket_of_header hvalid hs.symm
  have hlen : rb.bytes.length = 8 + s.length := by rw [← hs, List.length_append, length_wireHeader]
  rw [length_wireEncode, hlen]
  constructor
  · intro hlt
    rw [hget, if_pos (by omega)]
  · intro hle
    have hmark : (chunkqueueMarkWritten rb (r.content.length + r.padding.length + 8 : ℕ)).isSome := by
      rw [markWritten_isSome_iff, chunkqueueLength_eq, hlen]
      omega
    obtain ⟨rb', hrb'⟩ := Option.isSome_iff_exists.mp hmark
    obtain ⟨-, -, hbytes, hin, -⟩ := markWritten_eq_some hrb'
    have hfull : r.encode <+: rb.bytes :=
      List.prefix_of_prefix_length_le (List.prefix_append _ _) h
        (by rw [length_wireEncode, hlen]; exact hle)
    obtain ⟨u, hu⟩ := hfull
    have hsu : s = r.content ++ (r.padding ++ u) := by
      rw [← hs, WireRecord.encode, List.append_assoc, List.append_cancel_left_eq,
        List.append_assoc] at hu
      exact hu.symm
    have htake : s.take r.content.length = r.content := by rw [hsu, List.take_left]
    refine ⟨rb', ?_, ?_, hin⟩
    · rw [hget, if_neg (by omega), hrb', Option.map_some, htake]
      rfl
    · rw [hbytes, ← hu, Int.toNat_natCast, List.drop_append_of_le_length
        (by rw [length_wireEncode]; omega), List.drop_eq_nil_of_le (by rw [length_wireEncode]; omega),
        List.nil_append]

/-! ## A stream of records -/

/-- The queue `rb`, and the packets that were taken off it. -/
structure FcgiReply where
  rb : Chunkqueue
  packets : List FcgiPacket

/-- Bytes arrive, behind the last chunk or in a chunk of their own; `fastcgi_get_packet` is
called. -/
inductive FcgiReplyEvent
  | arrive (fresh : Bool) (s : Bytes)
  | get

/-- The queue with more bytes. -/
def receiveInto (rb : Chunkqueue) (fresh : Bool) (s : Bytes) : Chunkqueue :=
  if fresh then chunkqueueAppendChunk rb (.ofMem s)
  else (chunkqueueUseMemory rb s).getD (chunkqueueAppendChunk rb (.ofMem s))

/-- The packet that a call gives is kept. -/
def FcgiReply.got (s : FcgiReply) : GetPacket → FcgiReply
  | .notEnough => s
  | .packet p rb => ⟨rb, s.packets ++ [p]⟩

/-- One event; `none` when an assertion fails. -/
def fcgiReplyStep (s : FcgiReply) : FcgiReplyEvent → Option FcgiReply
  | .arrive fresh bytes => some { s with rb := receiveInto s.rb fresh bytes }
  | .get => (fastcgiGetPacket s.rb).map s.got

/-- The bytes that arrive. -/
def repliedBytes : List FcgiReplyEvent → Bytes
  | [] => []
  | .arrive _ s :: es => s ++ repliedBytes es
  | .get :: es => repliedBytes es

theorem bytes_receiveInto (rb : Chunkqueue) (fresh : Bool) (s : Bytes) :
    (receiveInto rb fresh s).bytes = rb.bytes ++ s := by
  unfold receiveInto
  split_ifs
  · simp
  · cases huse : chunkqueueUseMemory rb s with
    | none => simp
    | some rb' => exact bytes_useMemory huse

/-- Of the records `rs`, `taken` were given by the calls and `rest` are still to come, where
`arrived` is what has arrived. -/
structure ReplyAt (rs taken rest : List WireRecord) (arrived : Bytes) (s : FcgiReply) : Prop where
  split : rs = taken ++ rest
  packets : s.packets = taken.map packetOf
  bytes : encodeWire taken ++ s.rb.bytes = arrived

section

variable {rs taken rest : List WireRecord} {arrived : Bytes} {s : FcgiReply}

/-- What the queue holds is the start of the records to come. -/
theorem ReplyAt.queue_start (h : ReplyAt rs taken rest arrived s) (hpre : arrived <+: encodeWire rs) :
    s.rb.bytes <+: encodeWire rest := by
  rw [← h.bytes, h.split, encodeWire_append] at hpre
  exact (List.prefix_append_right_inj _).mp hpre

/-- A call on a record that is not complete gives nothing and changes nothing. -/
theorem ReplyAt.notEnough (hvalid : ∀ r ∈ rs, r.Valid) (h : ReplyAt rs taken rest arrived s)
    (hpre : arrived <+: encodeWire rs)
    (hshort : ∀ r ∈ rest.head?, s.rb.bytes.length < r.encode.length) :
    fastcgiGetPacket s.rb = some .notEnough := by
  have hqueue := h.queue_start hpre
  cases rest with
  | nil =>
    have hnil : s.rb.bytes = [] := List.prefix_nil.mp hqueue
    exact fastcgiGetPacket_of_short (by rw [hnil]; decide)
  | cons r rest =>
    have hr : r.Valid := hvalid r (by rw [h.split]; simp)
    exact (fastcgiGetPacket_spec hr hqueue).1 (hshort r rfl)

theorem ReplyAt.packet {r : WireRecord} (hvalid : ∀ r ∈ rs, r.Valid)
    (h : ReplyAt rs taken (r :: rest) arrived s) (hpre : arrived <+: encodeWire rs)
    (hle : r.encode.length ≤ s.rb.bytes.length) :
    ∃ rb, fastcgiGetPacket s.rb = some (.packet (packetOf r) rb) ∧
      ReplyAt rs (taken ++ [r]) rest arrived ⟨rb, s.packets ++ [packetOf r]⟩ := by
  have hr : r.Valid := hvalid r (by rw [h.split]; simp)
  obtain ⟨rb, hget, hbytes, -⟩ := (fastcgiGetPacket_spec hr (h.queue_start hpre)).2 hle
  refine ⟨rb, hget, by rw [h.split]; simp, ?_, ?_⟩
  · rw [h.packets, List.map_append]
    rfl
  · rw [← h.bytes, hbytes, encodeWire_append, List.append_assoc]
    simp

theorem ReplyAt.after_get (hvalid : ∀ r ∈ rs, r.Valid) (h : ReplyAt rs taken rest arrived s)
    (hpre : arrived <+: encodeWire rs) :
    ∃ s' taken' rest', fcgiReplyStep s .get = some s' ∧ ReplyAt rs taken' rest' arrived s' := by
  by_cases hshort : ∀ r ∈ rest.head?, s.rb.bytes.length < r.encode.length
  · have hget := h.notEnough hvalid hpre hshort
    exact ⟨s, taken, rest, by rw [fcgiReplyStep, hget]; rfl, h⟩
  · cases rest with
    | nil => exact absurd (by rintro r ⟨⟩) hshort
    | cons r rest =>
      have hle : r.encode.length ≤ s.rb.bytes.length := by simpa using hshort
      obtain ⟨rb, hget, hat⟩ := h.packet hvalid hpre hle
      exact ⟨_, _, _, by rw [fcgiReplyStep, hget]; rfl, hat⟩

theorem ReplyAt.arrive (h : ReplyAt rs taken rest arrived s) (fresh : Bool) (bytes : Bytes) :
    ReplyAt rs taken rest (arrived ++ bytes) { s with rb := receiveInto s.rb fresh bytes } :=
  ⟨h.split, h.packets, by rw [bytes_receiveInto, ← List.append_assoc, h.bytes]⟩

theorem ReplyAt.after_run (hvalid : ∀ r ∈ rs, r.Valid) {es : List FcgiReplyEvent} :
    ∀ {taken rest : List WireRecord} {arrived : Bytes} {s : FcgiReply},
      ReplyAt rs taken rest arrived s → arrived ++ repliedBytes es <+: encodeWire rs →
        ∃ s' taken' rest', run fcgiReplyStep es s = some s' ∧
          ReplyAt rs taken' rest' (arrived ++ repliedBytes es) s' := by
  induction es with
  | nil =>
    intro taken rest arrived s h _
    exact ⟨s, taken, rest, rfl, by rwa [repliedBytes, List.append_nil]⟩
  | cons e es ih =>
    intro taken rest arrived s h hpre
    cases e with
    | arrive fresh bytes =>
      rw [repliedBytes, ← List.append_assoc] at hpre ⊢
      obtain ⟨s', taken', rest', hrun, hat⟩ := ih (h.arrive fresh bytes) hpre
      exact ⟨s', taken', rest', run_cons.mpr ⟨_, rfl, hrun⟩, hat⟩
    | get =>
      have hpre' : arrived <+: encodeWire rs := (List.prefix_append _ _).trans hpre
      obtain ⟨s₁, taken₁, rest₁, hget, hat₁⟩ := h.after_get hvalid hpre'
      obtain ⟨s', taken', rest', hrun, hat⟩ := ih hat₁ hpre
      exact ⟨s', taken', rest', run_cons.mpr ⟨_, hget, hrun⟩, hat⟩

/-- When all has arrived, as many calls as there are records to come give all of them. -/
theorem ReplyAt.drain (hvalid : ∀ r ∈ rs, r.Valid) :
    ∀ {n : ℕ} {taken rest : List WireRecord} {s : FcgiReply},
      ReplyAt rs taken rest (encodeWire rs) s → rest.length ≤ n →
        ∃ s', run fcgiReplyStep (List.replicate n .get) s = some s' ∧
          ReplyAt rs rs [] (encodeWire rs) s' := by
  intro n
  induction n with
  | zero =>
    intro taken rest s h hn
    obtain rfl := List.length_eq_zero_iff.mp (Nat.le_zero.mp hn)
    have htaken : rs = taken := by simpa using h.split
    exact ⟨s, rfl, htaken ▸ h⟩
  | succ n ih =>
    intro taken rest s h hn
    cases rest with
    | nil =>
      have hget := h.notEnough hvalid List.prefix_rfl (by rintro r ⟨⟩)
      obtain ⟨s', hrun, hat⟩ := ih h (Nat.zero_le n)
      exact ⟨s', run_cons.mpr ⟨s, by rw [fcgiReplyStep, hget]; rfl, hrun⟩, hat⟩
    | cons r rest =>
      have hbytes : s.rb.bytes = r.encode ++ encodeWire rest := by
        have hall := h.bytes.trans (congrArg encodeWire h.split)
        rw [encodeWire_append, List.append_cancel_left_eq] at hall
        exact hall
      have hle : r.encode.length ≤ s.rb.bytes.length := by
        rw [hbytes, List.length_append]
        exact Nat.le_add_right _ _
      obtain ⟨rb, hget, hat⟩ := h.packet hvalid List.prefix_rfl hle
      obtain ⟨s', hrun, hat'⟩ := ih hat (Nat.le_of_succ_le_succ hn)
      exact ⟨s', run_cons.mpr ⟨_, by rw [fcgiReplyStep, hget]; rfl, hrun⟩, hat'⟩

end

/-- A reply of which nothing has arrived. -/
def fcgiReplyInit (uploadTempFileSize tempdirs : ℕ) : FcgiReply :=
  ⟨chunkqueueInit uploadTempFileSize tempdirs, []⟩

/-- However the stream of some records arrives, and whenever the calls come, they give the first
records of it: a call gives the next one if it is complete, and else it gives nothing and leaves
everything as it is. When all has arrived the calls give all records and leave an empty queue. -/
theorem fcgiReceive_records (rs : List WireRecord) (hvalid : ∀ r ∈ rs, r.Valid)
    (uploadTempFileSize tempdirs : ℕ) (es : List FcgiReplyEvent)
    (hes : repliedBytes es <+: encodeWire rs) :
    ∃ s taken rest, run fcgiReplyStep es (fcgiReplyInit uploadTempFileSize tempdirs) = some s ∧
      ReplyAt rs taken rest (repliedBytes es) s ∧
      (∀ r rest', rest = r :: rest' → r.encode.length ≤ s.rb.bytes.length →
        ∃ rb, fcgiReplyStep s .get = some ⟨rb, s.packets ++ [packetOf r]⟩ ∧
          s.rb.bytes = r.encode ++ rb.bytes) ∧
      ((∀ r ∈ rest.head?, s.rb.bytes.length < r.encode.length) →
        fastcgiGetPacket s.rb = some .notEnough ∧ fcgiReplyStep s .get = some s) ∧
      (repliedBytes es = encodeWire rs → ∀ n ≥ rs.length, ∃ s',
        run fcgiReplyStep (es ++ List.replicate n .get)
          (fcgiReplyInit uploadTempFileSize tempdirs) = some s' ∧
            s'.packets = rs.map packetOf ∧ s'.rb.bytes = []) := by
  have hinit : ReplyAt rs [] rs [] (fcgiReplyInit uploadTempFileSize tempdirs) :=
    ⟨rfl, rfl, rfl⟩
  obtain ⟨s, taken, rest, hrun, hat⟩ := hinit.after_run hvalid hes
  rw [List.nil_append] at hat
  refine ⟨s, taken, rest, hrun, hat, ?_, ?_, ?_⟩
  · rintro r rest' rfl hle
    have hr : r.Valid := hvalid r (by rw [hat.split]; simp)
    obtain ⟨rb, hget, hbytes, -⟩ := (fastcgiGetPacket_spec hr (hat.queue_start hes)).2 hle
    exact ⟨rb, by rw [fcgiReplyStep, hget]; rfl, hbytes⟩
  · intro hshort
    have hget := hat.notEnough hvalid hes hshort
    exact ⟨hget, by rw [fcgiReplyStep, hget]; rfl⟩
  · intro hall n hn
    rw [hall] at hat
    have hlen : rest.length ≤ n := by
      have hsplit := congrArg List.length hat.split
      rw [List.length_append] at hsplit
      omega
    obtain ⟨s', hdrain, hat'⟩ := hat.drain hvalid hlen
    refine ⟨s', run_append.mpr ⟨s, hrun, hdrain⟩, hat'.packets, ?_⟩
    exact List.append_right_eq_self.mp hat'.bytes

/-- A record of two bytes with three bytes of padding. -/
def paddedRecord : WireRecord := ⟨1, 6, 1, str "ok", [0, 0, 0], 0⟩

theorem fcgiReceive_records_padded :
    ∃ s taken rest, run fcgiReplyStep [.arrive true (paddedRecord.encode.take 9), .get,
        .arrive true (paddedRecord.encode.drop 9)] (fcgiReplyInit 1 1) = some s ∧
      ReplyAt [paddedRecord] taken rest (repliedBytes [.arrive true (paddedRecord.encode.take 9),
        .get, .arrive true (paddedRecord.encode.drop 9)]) s := by
  obtain ⟨s, taken, rest, hrun, hat, -⟩ := fcgiReceive_records [paddedRecord]
    (by rintro r (_ | ⟨_, ⟨⟩⟩); exact ⟨by decide, by decide, by decide⟩) 1 1
    [.arrive true (paddedRecord.encode.take 9), .get, .arrive true (paddedRecord.encode.drop 9)]
    (by decide)
  exact ⟨s, taken, rest, hrun, hat⟩

end Lighttpd
