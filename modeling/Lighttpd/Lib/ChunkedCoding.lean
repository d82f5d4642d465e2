import Lighttpd.Lib.CString

/-!
# The chunked coding

A chunked message is a list of chunks, each the hex digits of its size, CRLF, its octets and CRLF,
and then the last chunk of size zero and an empty line. `ChunkedMessage m body` says that `m` is
such a message whose chunks are not empty and have the octets of `body`; a message has one body
(`ChunkedMessage.unique`).
-/

namespace ChunkedCoding

open CString

/-- The value of a hex digit. -/
def hexDigit (c : UInt8) : Option ℕ :=
  if 48 ≤ c ∧ c ≤ 57 then some (c.toNat - 48)
  else if 97 ≤ c ∧ c ≤ 102 then some (c.toNat - 87)
  else if 65 ≤ c ∧ c ≤ 70 then some (c.toNat - 55)
  else none

/-- The number that hex digits stand for. -/
def hexNumber (s : Bytes) : ℕ := s.foldl (fun n c => n * 16 + (hexDigit c).getD 0) 0

/-- Hex digits, one at least. -/
def IsHex (s : Bytes) : Prop := s ≠ [] ∧ ∀ c ∈ s, (hexDigit c).isSome

instance (s : Bytes) : Decidable (IsHex s) :=
  inferInstanceAs (Decidable (s ≠ [] ∧ ∀ c ∈ s, (hexDigit c).isSome))

theorem CR_notMem_of_isHex {s : Bytes} (h : IsHex s) : CR ∉ s := fun hc =>
  absurd (h.2 CR hc) (by decide)

/-- One chunk with the octets `data`. -/
def IsChunk (m data : Bytes) : Prop :=
  ∃ size, IsHex size ∧ hexNumber size = data.length ∧ m = size ++ [CR, LF] ++ data ++ [CR, LF]

/-- A chunked message without trailers, and its body. No chunk but the last is empty. -/
inductive ChunkedMessage : Bytes → Bytes → Prop
  | last {size : Bytes} (hex : IsHex size) (zero : hexNumber size = 0) :
      ChunkedMessage (size ++ [CR, LF] ++ [CR, LF]) []
  | chunk {c data m body : Bytes} (isChunk : IsChunk c data) (nonempty : data ≠ [])
      (rest : ChunkedMessage m body) : ChunkedMessage (c ++ m) (data ++ body)

/-- The first chunk of a message, with what follows, or the last one. -/
theorem ChunkedMessage.cases_size {m body : Bytes} (h : ChunkedMessage m body) :
    ∃ size t, IsHex size ∧ m = size ++ CR :: t ∧
      ((hexNumber size = 0 ∧ body = []) ∨
        ∃ data m' body', hexNumber size = data.length ∧ data ≠ [] ∧
          t = LF :: (data ++ ([CR, LF] ++ m')) ∧ body = data ++ body' ∧
          ChunkedMessage m' body') := by
  cases h with
  | @last size hex zero => exact ⟨size, _, hex, by simp; rfl, .inl ⟨zero, rfl⟩⟩
  | @chunk c data m body isChunk nonempty rest =>
    obtain ⟨size, hex, hlen, rfl⟩ := isChunk
    exact ⟨size, _, hex, by simp; rfl, .inr ⟨data, m, body, hlen, nonempty, by simp, rfl, rest⟩⟩

theorem ChunkedMessage.unique {m body body' : Bytes} (h : ChunkedMessage m body)
    (h' : ChunkedMessage m body') : body = body' := by
  induction h generalizing body' with
  | @last size hex zero =>
    obtain ⟨size', t, hex', heq, hcases⟩ := h'.cases_size
    have hsize : size = size' := (append_cons_inj (t := [LF, CR, LF]) (CR_notMem_of_isHex hex)
      (CR_notMem_of_isHex hex') (by simpa using heq)).1
    obtain ⟨-, hbody⟩ | ⟨data, m', b', hlen, hne, -⟩ := hcases
    · exact hbody.symm
    · rw [← hsize, zero] at hlen
      exact absurd (List.length_eq_zero_iff.1 hlen.symm) hne
  | @chunk c data m body isChunk nonempty rest ih =>
    obtain ⟨size, hex, hlen, rfl⟩ := isChunk
    obtain ⟨size', t, hex', heq, hcases⟩ := h'.cases_size
    obtain ⟨hsize, ht⟩ := append_cons_inj (t := LF :: (data ++ ([CR, LF] ++ m)))
      (CR_notMem_of_isHex hex) (CR_notMem_of_isHex hex') (by simpa using heq)
    rw [← hsize] at hcases
    obtain ⟨hzero, -⟩ | ⟨data', m', b', hlen', -, ht', hbody, hrest⟩ := hcases
    · exact absurd (List.length_eq_zero_iff.1 (hlen.symm.trans hzero)) nonempty
    · rw [ht', List.cons.injEq] at ht
      obtain ⟨hd, hm⟩ := List.append_inj ht.2 (hlen.symm.trans hlen')
      rw [List.append_cancel_left_eq] at hm
      rw [hbody, hd, ih (hm ▸ hrest)]

/-! ## Extensions and trailers -/

/-- A chunk extension: nothing, or a semicolon and bytes other than NUL and LF. -/
def IsExt (ext : Bytes) : Prop :=
  (ext = [] ∨ ext.head? = some 59) ∧ LF ∉ ext ∧ (0 : UInt8) ∉ ext

instance (ext : Bytes) : Decidable (IsExt ext) :=
  inferInstanceAs (Decidable ((ext = [] ∨ ext.head? = some 59) ∧ LF ∉ ext ∧ (0 : UInt8) ∉ ext))

/-- The line before a chunk of `n` octets, without its CRLF: any spelling of the size in hex digits,
and an extension. -/
structure SizeLine (n : ℕ) where
  size : Bytes
  ext : Bytes
  hex : IsHex size
  value : hexNumber size = n
  isExt : IsExt ext

/-- The bytes of the line. -/
def SizeLine.line {n : ℕ} (l : SizeLine n) : Bytes := l.size ++ l.ext ++ [CR, LF]

/-- A chunk that is not empty. -/
structure DataChunk where
  data : Bytes
  nonempty : data ≠ []
  header : SizeLine data.length

/-- The bytes of a chunk. -/
def DataChunk.bytes (c : DataChunk) : Bytes := c.header.line ++ c.data ++ [CR, LF]

/-- Trailers: the first empty line is the one behind them. -/
def IsTrailers (t : Bytes) : Prop :=
  (0 : UInt8) ∉ t ∧ search [CR, LF, CR, LF] ([CR, LF] ++ t ++ [CR, LF]) = some t.length

instance (t : Bytes) : Decidable (IsTrailers t) :=
  inferInstanceAs (Decidable ((0 : UInt8) ∉ t ∧
    search [CR, LF, CR, LF] ([CR, LF] ++ t ++ [CR, LF]) = some t.length))

/-- A chunked body: chunks, the last chunk and trailers. -/
structure ChunkedBody where
  chunks : List DataChunk
  last : SizeLine 0
  trailers : Bytes
  isTrailers : IsTrailers trailers

namespace ChunkedBody

/-- The last chunk and the trailers. -/
def tail (m : ChunkedBody) : Bytes := m.last.line ++ (m.trailers ++ [CR, LF])

/-- The bytes of chunks and what follows them. -/
def encode (m : ChunkedBody) (cs : List DataChunk) : Bytes := cs.flatMap DataChunk.bytes ++ m.tail

/-- The octets of chunks. -/
def decode (cs : List DataChunk) : Bytes := cs.flatMap DataChunk.data

/-- The bytes that are sent. -/
def bytes (m : ChunkedBody) : Bytes := m.encode m.chunks

/-- The body. -/
def body (m : ChunkedBody) : Bytes := decode m.chunks

variable (m : ChunkedBody) (c : DataChunk) (cs : List DataChunk)

@[simp] theorem encode_nil : m.encode [] = m.tail := rfl

@[simp] theorem encode_cons :
    m.encode (c :: cs) = c.header.line ++ (c.data ++ ([CR, LF] ++ m.encode cs)) := by
  simp [encode, DataChunk.bytes]

@[simp] theorem decode_nil : decode [] = [] := rfl

@[simp] theorem decode_cons : decode (c :: cs) = c.data ++ decode cs := by simp [decode]

theorem length_tail_le : m.tail.length ≤ (m.encode cs).length := by simp [encode]

end ChunkedBody

theorem SizeLine.two_lt {n : ℕ} (l : SizeLine n) : 2 < l.line.length := by
  have := List.length_pos_of_ne_nil l.hex.1
  simp only [line, List.length_append, List.length_cons, List.length_nil]
  omega

theorem IsHex.notMem {s : Bytes} (h : IsHex s) : LF ∉ s ∧ (0 : UInt8) ∉ s :=
  ⟨fun hc => absurd (h.2 LF hc) (by decide), fun hc => absurd (h.2 0 hc) (by decide)⟩

/-- The line feed of a line is its last byte, and no byte before it is NUL. -/
theorem SizeLine.line_eq {n : ℕ} (l : SizeLine n) :
    ∃ u, l.line = u ++ [LF] ∧ LF ∉ u ∧ (0 : UInt8) ∉ u := by
  obtain ⟨hlf, hnul⟩ := l.hex.notMem
  obtain ⟨-, hlf', hnul'⟩ := l.isExt
  refine ⟨l.size ++ l.ext ++ [CR], by simp [line], ?_, ?_⟩
  · simp only [List.mem_append, hlf, hlf', false_or, List.mem_singleton]
    decide
  · simp only [List.mem_append, hnul, hnul', false_or, List.mem_singleton]
    decide

/-- The line in front of a chunk, up to its line feed: hex digits, blanks, nothing or a semicolon
with an extension, and CRLF. An extension has neither a CR nor a LF. -/
def IsChunkLine (l : Bytes) : Prop :=
  ∃ size blanks ext, l = size ++ blanks ++ ext ++ [CR, LF] ∧ IsHex size ∧
    (∀ c ∈ blanks, c = SP ∨ c = HT) ∧ (ext = [] ∨ ext.head? = some 59) ∧ CR ∉ ext ∧ LF ∉ ext

theorem notMem_of_blanks {s : Bytes} {c : UInt8} (h : ∀ c ∈ s, c = SP ∨ c = HT) (hsp : c ≠ SP)
    (hht : c ≠ HT) : c ∉ s := fun hc => (h c hc).elim hsp hht

theorem notMem_of_hex {s : Bytes} {c : UInt8} (h : ∀ c ∈ s, (hexDigit c).isSome)
    (hc : hexDigit c = none) : c ∉ s := fun hmem => by simpa [hc] using h c hmem

/-- The first CR of such a line is in front of its line feed, and its first byte is a digit. -/
theorem IsChunkLine.exists_eq {l : Bytes} (h : IsChunkLine l) :
    ∃ d w, l = d :: (w ++ [CR, LF]) ∧ (hexDigit d).isSome ∧ CR ∉ d :: w := by
  obtain ⟨size, blanks, ext, rfl, ⟨hne, hex⟩, hblanks, -, hcr, -⟩ := h
  obtain ⟨d, ds, rfl⟩ := List.exists_cons_of_ne_nil hne
  refine ⟨d, ds ++ blanks ++ ext, by simp, hex d List.mem_cons_self, ?_⟩
  rw [← List.cons_append, ← List.cons_append, List.mem_append, List.mem_append]
  rintro ((hc | hc) | hc)
  · exact notMem_of_hex hex (by decide) hc
  · exact notMem_of_blanks hblanks (by decide) (by decide) hc
  · exact hcr hc

end ChunkedCoding
