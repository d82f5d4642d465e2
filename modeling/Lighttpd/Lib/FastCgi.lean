import Lighttpd.Lib.CString

/-!
# FastCGI records

A record is a header of eight bytes (version, type, request id, length of the content, length of
the padding, and a byte that is reserved) with its content and the padding behind it. `parse`
reads a stream that consists of whole records; it reads back what `encode` writes
(`parse_encode`).

The content of the records with the parameters is a stream of names and values, each pair with its
two lengths in front, of one byte or of four. `decodePairs` reads back what `encodePairs` writes
(`decodePairs_encodePairs`).
-/

namespace FastCgi

open CString

/-- A record. -/
structure Record where
  type : UInt8
  requestId : ℕ
  content : Bytes
  deriving DecidableEq, Repr

/-- The numbers of the header have two bytes each. -/
def Record.Valid (r : Record) : Prop := r.requestId < 2 ^ 16 ∧ r.content.length < 2 ^ 16

/-- A number of two bytes, the higher one first. -/
def bytes16 (n : ℕ) : Bytes := [UInt8.ofNat (n / 256), UInt8.ofNat n]

/-- The header of a record without padding. -/
def header (type : UInt8) (requestId contentLength : ℕ) : Bytes :=
  1 :: type :: bytes16 requestId ++ bytes16 contentLength ++ [0, 0]

/-- A record without padding. -/
def Record.encode (r : Record) : Bytes := header r.type r.requestId r.content.length ++ r.content

/-- A stream of records. -/
def encode (rs : List Record) : Bytes := rs.flatMap Record.encode

/-- The records of a stream, by recursion on a bound for their number. -/
def parseAux : ℕ → Bytes → Option (List Record)
  | _, [] => some []
  | n + 1, version :: type :: id1 :: id0 :: len1 :: len0 :: padding :: _ :: rest =>
    let len := len1.toNat * 256 + len0.toNat
    if version = 1 ∧ len + padding.toNat ≤ rest.length then
      (parseAux n (rest.drop (len + padding.toNat))).map
        (⟨type, id1.toNat * 256 + id0.toNat, rest.take len⟩ :: ·)
    else none
  | _, _ :: _ => none

/-- The records of a stream; `none` when it does not consist of whole records. -/
def parse (s : Bytes) : Option (List Record) := parseAux s.length s

@[simp] theorem length_header (type : UInt8) (requestId contentLength : ℕ) :
    (header type requestId contentLength).length = 8 := rfl

@[simp] theorem length_encode_record (r : Record) : r.encode.length = 8 + r.content.length := by
  simp [Record.encode]

@[simp] theorem encode_nil : encode [] = [] := rfl

@[simp] theorem encode_cons (r : Record) (rs : List Record) :
    encode (r :: rs) = r.encode ++ encode rs := rfl

@[simp] theorem encode_append (rs rs' : List Record) :
    encode (rs ++ rs') = encode rs ++ encode rs' := by
  simp [encode]

theorem length_encode (rs : List Record) :
    (encode rs).length = 8 * rs.length + (rs.map fun r => r.content.length).sum := by
  induction rs with
  | nil => rfl
  | cons r rs ih =>
    simp only [encode_cons, List.length_append, length_encode_record, ih, List.length_cons,
      List.map_cons, List.sum_cons]
    omega

theorem toNat_bytes16 {n : ℕ} (h : n < 2 ^ 16) :
    (UInt8.ofNat (n / 256)).toNat * 256 + (UInt8.ofNat n).toNat = n := by
  simp only [UInt8.toNat_ofNat']
  omega

theorem parseAux_encode_record {r : Record} (h : r.Valid) (n : ℕ) (s : Bytes) :
    parseAux (n + 1) (r.encode ++ s) = (parseAux n s).map (r :: ·) := by
  have hlen := toNat_bytes16 h.2
  have hid := toNat_bytes16 h.1
  have h0 : (0 : UInt8).toNat = 0 := rfl
  simp only [Record.encode, header, bytes16, List.cons_append, List.nil_append, parseAux, hlen,
    hid, h0, Nat.add_zero]
  rw [if_pos ⟨trivial, by simp⟩, List.take_left, List.drop_left]

theorem parse_encode {rs : List Record} (h : ∀ r ∈ rs, r.Valid) :
    parse (encode rs) = some rs := by
  have key : ∀ (rs : List Record) (n : ℕ), (∀ r ∈ rs, r.Valid) → rs.length ≤ n →
      parseAux n (encode rs) = some rs := by
    intro rs
    induction rs with
    | nil =>
      intro n _ _
      cases n <;> rfl
    | cons r rs ih =>
      intro n hv hn
      obtain ⟨m, rfl⟩ := Nat.exists_eq_add_of_lt (Nat.lt_of_lt_of_le (Nat.succ_pos _) hn)
      rw [encode_cons, Nat.zero_add, parseAux_encode_record (hv r List.mem_cons_self),
        ih m (fun r' h' => hv r' (List.mem_cons_of_mem r h'))
          (by rw [List.length_cons] at hn; omega)]
      rfl
  refine key rs _ h ?_
  rw [length_encode]
  omega

/-! ## Records with padding -/

/-- A record as it comes from the other side: with any version, any padding and any value in the
byte that is reserved. -/
structure WireRecord where
  version : UInt8
  type : UInt8
  requestId : ℕ
  content : Bytes
  padding : Bytes
  reserved : UInt8
  deriving DecidableEq, Repr

/-- The numbers of the header have two bytes and one byte. -/
def WireRecord.Valid (r : WireRecord) : Prop :=
  r.requestId < 2 ^ 16 ∧ r.content.length < 2 ^ 16 ∧ r.padding.length < 2 ^ 8

/-- The header of the record. -/
def WireRecord.header (r : WireRecord) : Bytes :=
  r.version :: r.type :: bytes16 r.requestId ++ bytes16 r.content.length ++
    [UInt8.ofNat r.padding.length, r.reserved]

def WireRecord.encode (r : WireRecord) : Bytes := r.header ++ (r.content ++ r.padding)

/-- A stream of records. -/
def encodeWire (rs : List WireRecord) : Bytes := rs.flatMap WireRecord.encode

@[simp] theorem length_wireHeader (r : WireRecord) : r.header.length = 8 := rfl

@[simp] theorem encodeWire_nil : encodeWire [] = [] := rfl

@[simp] theorem encodeWire_cons (r : WireRecord) (rs : List WireRecord) :
    encodeWire (r :: rs) = r.encode ++ encodeWire rs := rfl

@[simp] theorem encodeWire_append (rs rs' : List WireRecord) :
    encodeWire (rs ++ rs') = encodeWire rs ++ encodeWire rs' := by
  simp [encodeWire]

theorem length_wireEncode (r : WireRecord) :
    r.encode.length = 8 + (r.content.length + r.padding.length) := by
  simp [WireRecord.encode]

/-! ## Names and values -/

/-- A length of one byte, or of four with the highest bit set. -/
def encodeLength (n : ℕ) : Bytes :=
  if n < 128 then [UInt8.ofNat n]
  else
    [UInt8.ofNat (n / 2 ^ 24 + 128), UInt8.ofNat (n / 2 ^ 16), UInt8.ofNat (n / 2 ^ 8),
      UInt8.ofNat n]

/-- The rest of a length of four bytes that starts with `b`. -/
def decodeLong (b : UInt8) : Bytes → Option (ℕ × Bytes)
  | b2 :: b1 :: b0 :: s =>
    some ((b.toNat - 128) * 2 ^ 24 + b2.toNat * 2 ^ 16 + b1.toNat * 2 ^ 8 + b0.toNat, s)
  | _ => none

/-- The length at the front, and what is behind it. -/
def decodeLength : Bytes → Option (ℕ × Bytes)
  | [] => none
  | b :: s => if b < 128 then some (b.toNat, s) else decodeLong b s

/-- A name and a value. -/
def encodePair (p : Bytes × Bytes) : Bytes :=
  encodeLength p.1.length ++ encodeLength p.2.length ++ p.1 ++ p.2

def encodePairs (ps : List (Bytes × Bytes)) : Bytes := ps.flatMap encodePair

/-- The pair at the front, and what is behind it. -/
def decodePair (s : Bytes) : Option ((Bytes × Bytes) × Bytes) :=
  (decodeLength s).bind fun k =>
    (decodeLength k.2).bind fun v =>
      if k.1 + v.1 ≤ v.2.length then
        some ((v.2.take k.1, (v.2.drop k.1).take v.1), v.2.drop (k.1 + v.1))
      else none

/-- The pairs of a stream, by recursion on a bound for their number. -/
def decodePairsAux : ℕ → Bytes → Option (List (Bytes × Bytes))
  | _, [] => some []
  | 0, _ :: _ => none
  | n + 1, b :: s =>
    (decodePair (b :: s)).bind fun r => (decodePairsAux n r.2).map (r.1 :: ·)

/-- The pairs of a stream. -/
def decodePairs (s : Bytes) : Option (List (Bytes × Bytes)) := decodePairsAux s.length s

theorem decodeLength_encodeLength {n : ℕ} (h : n < 2 ^ 31) (s : Bytes) :
    decodeLength (encodeLength n ++ s) = some (n, s) := by
  unfold encodeLength
  split_ifs with hn
  · have hto : (UInt8.ofNat n).toNat = n := by
      rw [UInt8.toNat_ofNat']
      omega
    have hlt : UInt8.ofNat n < 128 := by
      rw [UInt8.lt_iff_toNat_lt, hto]
      exact hn
    rw [List.singleton_append, decodeLength, if_pos hlt, hto]
  · have hto : (UInt8.ofNat (n / 2 ^ 24 + 128)).toNat = n / 2 ^ 24 + 128 := by
      rw [UInt8.toNat_ofNat']
      omega
    have hlt : ¬ UInt8.ofNat (n / 2 ^ 24 + 128) < 128 := by
      rw [UInt8.lt_iff_toNat_lt, hto]
      exact Nat.not_lt.mpr (Nat.le_add_left _ _)
    simp only [List.cons_append, List.nil_append, decodeLength, if_neg hlt, decodeLong, hto,
      UInt8.toNat_ofNat', Option.some.injEq, Prod.mk.injEq, and_true]
    omega

theorem encodeLength_ne_nil (n : ℕ) : encodeLength n ≠ [] := by
  unfold encodeLength
  split_ifs <;> exact List.cons_ne_nil _ _

/-- Both lengths have at most 31 bits. -/
def ShortPair (p : Bytes × Bytes) : Prop := p.1.length < 2 ^ 31 ∧ p.2.length < 2 ^ 31

theorem decodePair_encodePair {p : Bytes × Bytes} (h : ShortPair p) (s : Bytes) :
    decodePair (encodePair p ++ s) = some (p, s) := by
  simp only [encodePair, decodePair, List.append_assoc, decodeLength_encodeLength h.1,
    decodeLength_encodeLength h.2, Option.bind_some]
  rw [if_pos (by simp), List.take_left, List.drop_left, List.take_left, ← List.drop_drop,
    List.drop_left, List.drop_left]

theorem length_encodePair_pos (p : Bytes × Bytes) : 0 < (encodePair p).length := by
  have hpos := List.length_pos_iff.mpr (encodeLength_ne_nil p.1.length)
  simp only [encodePair, List.length_append]
  omega

theorem decodePairs_encodePairs {ps : List (Bytes × Bytes)} (h : ∀ p ∈ ps, ShortPair p) :
    decodePairs (encodePairs ps) = some ps := by
  have key : ∀ (ps : List (Bytes × Bytes)) (n : ℕ), (∀ p ∈ ps, ShortPair p) →
      (encodePairs ps).length ≤ n → decodePairsAux n (encodePairs ps) = some ps := by
    intro ps
    induction ps with
    | nil =>
      intro n _ _
      cases n <;> rfl
    | cons p ps ih =>
      intro n hshort hn
      have hcons : encodePairs (p :: ps) = encodePair p ++ encodePairs ps := rfl
      have hpos := length_encodePair_pos p
      rw [hcons, List.length_append] at hn
      obtain ⟨m, rfl⟩ := Nat.exists_eq_add_one.mpr (show 0 < n by omega)
      obtain ⟨c, t, hct⟩ := List.exists_cons_of_length_pos hpos
      have hpair := decodePair_encodePair (hshort p List.mem_cons_self) (encodePairs ps)
      rw [hct, List.cons_append] at hpair
      rw [hcons, hct, List.cons_append, decodePairsAux, hpair, Option.bind_some,
        ih m (fun q hq => hshort q (List.mem_cons_of_mem p hq)) (by omega)]
      rfl
  exact key ps _ h le_rfl

end FastCgi
