import Lighttpd.PathSimplifyMemory
import Lighttpd.ResponsePrepare

/-!
# Encoding and decoding strings of a URI

`buffer_append_string_encoded` counts the bytes that it will write, reserves them and writes them in
a second pass. `buffer_urldecode_internal` decodes a buffer in place. Decoding what was encoded
gives the string back, with control characters replaced, and the decoder never needs more space than
the string has (`urlCoding_inverse`).
-/

namespace Lighttpd

open CString

/-! ## The encoder -/

/-- `buffer_encoding_t` -/
inductive BufferEncoding
  | relUri
  | relUriPart
  | html
  | minimalXml
  | hex
  | httpHeader
  deriving DecidableEq, Repr

/-- The rows 30 to 7F of the tables for URIs. -/
def encodedCharsUriRows : List ℕ :=
  [0, 0, 0, 0, 0, 0, 0, 0, 0, 0, 1, 1, 1, 1, 1, 1,
   1, 0, 0, 0, 0, 0, 0, 0, 0, 0, 0, 0, 0, 0, 0, 0,
   0, 0, 0, 0, 0, 0, 0, 0, 0, 0, 0, 1, 1, 1, 1, 0,
   1, 0, 0, 0, 0, 0, 0, 0, 0, 0, 0, 0, 0, 0, 0, 0,
   0, 0, 0, 0, 0, 0, 0, 0, 0, 0, 0, 1, 1, 1, 0, 1]

/-- `encoded_chars_rel_uri_part` -/
def encodedCharsRelUriPart : List ℕ :=
  List.replicate 32 1 ++ [1, 0, 1, 1, 1, 1, 1, 1, 0, 0, 0, 1, 1, 0, 0, 1] ++
    encodedCharsUriRows ++ List.replicate 128 1

/-- `encoded_chars_rel_uri` -/
def encodedCharsRelUri : List ℕ :=
  List.replicate 32 1 ++ [1, 0, 1, 1, 1, 1, 1, 1, 0, 0, 0, 1, 1, 0, 0, 0] ++
    encodedCharsUriRows ++ List.replicate 128 1

/-- The rows 20 to 7F of the tables for markup. -/
def encodedCharsMarkupRows : List ℕ :=
  [0, 0, 1, 0, 0, 0, 1, 1, 0, 0, 0, 0, 0, 0, 0, 0,
   0, 0, 0, 0, 0, 0, 0, 0, 0, 0, 0, 0, 1, 0, 1, 0,
   0, 0, 0, 0, 0, 0, 0, 0, 0, 0, 0, 0, 0, 0, 0, 0,
   0, 0, 0, 0, 0, 0, 0, 0, 0, 0, 0, 0, 0, 0, 0, 0,
   1, 0, 0, 0, 0, 0, 0, 0, 0, 0, 0, 0, 0, 0, 0, 0,
   0, 0, 0, 0, 0, 0, 0, 0, 0, 0, 0, 0, 0, 0, 0, 1]

/-- `encoded_chars_html` -/
def encodedCharsHtml : List ℕ :=
  List.replicate 32 1 ++ encodedCharsMarkupRows ++ List.replicate 128 1

/-- `encoded_chars_minimal_xml` -/
def encodedCharsMinimalXml : List ℕ :=
  List.replicate 32 1 ++ encodedCharsMarkupRows ++ List.replicate 128 0

/-- `encoded_chars_hex` -/
def encodedCharsHex : List ℕ := List.replicate 256 1

/-- `encoded_chars_http_header` -/
def encodedCharsHttpHeader : List ℕ := List.replicate 10 0 ++ [1] ++ List.replicate 245 0

/-- `map` -/
def BufferEncoding.map : BufferEncoding → List ℕ
  | relUri => encodedCharsRelUri
  | relUriPart => encodedCharsRelUriPart
  | html => encodedCharsHtml
  | minimalXml => encodedCharsMinimalXml
  | hex => encodedCharsHex
  | httpHeader => encodedCharsHttpHeader

/-- `map[c]` -/
def BufferEncoding.isEncoded (encoding : BufferEncoding) (c : UInt8) : Bool :=
  encoding.map.getD c.toNat 0 ≠ 0

/-- `hex_chars` -/
def hexChars : Bytes := str "0123456789abcdef"

/-- `hex_chars[(c >> 4) & 0x0F]` and `hex_chars[c & 0x0F]` -/
def hexPair (c : UInt8) : Bytes :=
  [hexChars.getD ((c >>> 4) &&& 0x0f).toNat 0, hexChars.getD (c &&& 0x0f).toNat 0]

/-- What is added to `d_len` for a byte in the pass that counts. -/
def encodedLen (encoding : BufferEncoding) (c : UInt8) : ℕ :=
  if encoding.isEncoded c then
    match encoding with
    | .relUri => 3
    | .relUriPart => 3
    | .html => 6
    | .minimalXml => 6
    | .httpHeader => 2
    | .hex => 2
  else 1

/-- What is written for a byte in the second pass. -/
def encodedBytes (encoding : BufferEncoding) (c : UInt8) : Bytes :=
  if encoding.isEncoded c then
    match encoding with
    | .relUri => 37 :: hexPair c
    | .relUriPart => 37 :: hexPair c
    | .html => str "&#x" ++ hexPair c ++ str ";"
    | .minimalXml => str "&#x" ++ hexPair c ++ str ";"
    | .hex => hexPair c
    | .httpHeader => [c, HT]
  else [c]

/-- The bytes that are reserved. -/
def reservedLen (encoding : BufferEncoding) (s : Bytes) : ℕ := (s.map (encodedLen encoding)).sum

/-- The bytes that are written. -/
def writtenBytes (encoding : BufferEncoding) (s : Bytes) : Bytes := s.flatMap (encodedBytes encoding)

/-- `buffer_append_string_encoded`: what is written is put over the bytes that are reserved. -/
def bufferAppendStringEncoded (b : Buffer) (s : Bytes) (encoding : BufferEncoding) : Buffer :=
  if s.length = 0 then b
  else
    let dLen := reservedLen encoding s
    let written := writtenBytes encoding s
    some (b.string ++ (written ++ (List.replicate dLen 0).drop written.length))

theorem length_writtenBytes (encoding : BufferEncoding) (s : Bytes) :
    (writtenBytes encoding s).length = reservedLen encoding s := by
  induction s with
  | nil => rfl
  | cons c s ih =>
    have hc : (encodedBytes encoding c).length = encodedLen encoding c := by
      unfold encodedBytes encodedLen
      split_ifs
      · cases encoding <;> rfl
      · rfl
    rw [writtenBytes, List.flatMap_cons, List.length_append, hc, reservedLen, List.map_cons,
      List.sum_cons]
    exact congrArg _ ih

theorem string_bufferAppendStringEncoded (b : Buffer) (s : Bytes) (encoding : BufferEncoding) :
    (bufferAppendStringEncoded b s encoding).string = b.string ++ writtenBytes encoding s := by
  unfold bufferAppendStringEncoded
  split_ifs with h
  · rw [List.length_eq_zero_iff.mp h]
    exact (List.append_nil _).symm
  · dsimp only
    rw [length_writtenBytes, List.drop_eq_nil_of_le (by simp), List.append_nil]
    rfl

/-- The first loop of `buffer_urldecode_internal`, up to a `%` or the end: the memory and `src`. -/
def urldecodePrefix (isQuery : Bool) : ℕ → Bytes → ℕ → Bytes × ℕ
  | 0, mem, src => (mem, src)
  | fuel + 1, mem, src =>
    let c := mem.getD src 0
    if c = 0 ∨ c = 37 then (mem, src)
    else urldecodePrefix isQuery fuel (if isQuery ∧ c = 43 then writeAt mem src SP else mem) (src + 1)

/-- The second loop: the memory and `dst`. -/
def urldecodeMemLoop (isQuery : Bool) : ℕ → Bytes → ℕ → ℕ → Bytes × ℕ
  | 0, mem, _, dst => (mem, dst)
  | fuel + 1, mem, src, dst =>
    let c := mem.getD src 0
    if c = 0 then (mem, dst)
    else if isQuery ∧ c = 43 then
      urldecodeMemLoop isQuery fuel (writeAt mem dst SP) (src + 1) (dst + 1)
    else if c = 37 then
      let mem := writeAt mem dst 37
      let high := hex2int (mem.getD (src + 1) 0)
      if high ≠ 255 then
        let low := hex2int (mem.getD (src + 2) 0)
        if low ≠ 255 then
          urldecodeMemLoop isQuery fuel (writeAt mem dst (decodedByte high low)) (src + 3) (dst + 1)
        else urldecodeMemLoop isQuery fuel mem (src + 1) (dst + 1)
      else urldecodeMemLoop isQuery fuel mem (src + 1) (dst + 1)
    else urldecodeMemLoop isQuery fuel (writeAt mem dst c) (src + 1) (dst + 1)

/-- `buffer_urldecode_internal` of the string `url` with `spare` behind its NUL: the memory and
`used`. -/
def bufferUrldecodeMem (isQuery : Bool) (url spare : Bytes) : Bytes × ℕ :=
  let mem := url ++ 0 :: spare
  if url = [] then (mem, url.length + 1)
  else
    let r := urldecodePrefix isQuery (url.length + 1) mem 0
    let r' := urldecodeMemLoop isQuery (url.length + 1) r.1 r.2 r.2
    (writeAt r'.1 r'.2 0, r'.2 + 1)

/-! ## Decoding in place -/

theorem length_writeAt_of_lt {d : Bytes} {out : ℕ} (h : out < d.length) (c : UInt8) :
    (writeAt d out c).length = d.length := by
  simp only [writeAt, List.length_append, List.length_take, List.length_cons, List.length_drop]
  omega

theorem writeAt_writeAt {d : Bytes} {out : ℕ} (h : out ≤ d.length) (b c : UInt8) :
    writeAt (writeAt d out b) out c = writeAt d out c := by
  have hlen : (d.take out).length = out := by simpa using h
  rw [writeAt, writeAt, List.take_append_of_le_length hlen.ge, List.take_take, Nat.min_self,
    List.drop_append, hlen, List.drop_eq_nil_of_le (by omega), List.nil_append,
    Nat.add_sub_cancel_left]
  rfl

/-- Memory of `n` bytes: `out` is decoded and ends before `dst`, and from `src` on there is `rest`. -/
structure DecodeMem (n : ℕ) (mem : Bytes) (src dst : ℕ) (out rest : Bytes) : Prop where
  length_eq : mem.length = n
  take_eq : mem.take dst = out
  length_out : out.length = dst
  dst_le : dst ≤ src
  drop_eq : mem.drop src = rest

namespace DecodeMem

variable {n src dst : ℕ} {mem out rest : Bytes} {c : UInt8}

theorem getD_eq (h : DecodeMem n mem src dst out rest) (k : ℕ) :
    mem.getD (src + k) 0 = rest.getD k 0 := by
  rw [List.getD_eq_getElem?_getD, List.getD_eq_getElem?_getD, ← h.drop_eq, List.getElem?_drop]

theorem src_lt (h : DecodeMem n mem src dst out (c :: rest)) : src < mem.length := by
  have := congrArg List.length h.drop_eq
  rw [List.length_drop, List.length_cons] at this
  omega

theorem dst_lt (h : DecodeMem n mem src dst out (c :: rest)) : dst < mem.length :=
  h.dst_le.trans_lt h.src_lt

theorem advance (h : DecodeMem n mem src dst out (c :: rest)) :
    DecodeMem n mem (src + 1) dst out rest where
  length_eq := h.length_eq
  take_eq := h.take_eq
  length_out := h.length_out
  dst_le := h.dst_le.trans src.le_succ
  drop_eq := by
    rw [← List.drop_drop, h.drop_eq]
    rfl

theorem write (h : DecodeMem n mem src dst out (c :: rest)) (x : UInt8) :
    DecodeMem n (writeAt mem dst x) (src + 1) (dst + 1) (out ++ [x]) rest where
  length_eq := (length_writeAt_of_lt h.dst_lt x).trans h.length_eq
  take_eq := by rw [take_writeAt h.dst_lt.le, h.take_eq]
  length_out := by rw [List.length_append, h.length_out, List.length_singleton]
  dst_le := Nat.succ_le_succ h.dst_le
  drop_eq := (drop_writeAt h.dst_lt.le h.dst_le x).trans h.advance.drop_eq

theorem writeAt_self (h : DecodeMem n mem src src out (c :: rest)) : writeAt mem src c = mem := by
  rw [writeAt, ← List.drop_drop, h.drop_eq, List.drop_one, List.tail_cons, ← h.drop_eq,
    List.take_append_drop]

end DecodeMem

theorem hex2int_zero : hex2int 0 = 255 := by decide

/-- A turn at a `%`, with the bytes behind it. -/
theorem urldecodeMemLoop_percent {isQuery : Bool} {n fuel src dst : ℕ} {mem out rest : Bytes}
    (h : DecodeMem n mem src dst out (37 :: rest)) :
    urldecodeMemLoop isQuery (fuel + 1) mem src dst =
      if hex2int (rest.getD 0 0) ≠ 255 ∧ hex2int (rest.getD 1 0) ≠ 255 then
        urldecodeMemLoop isQuery fuel
          (writeAt mem dst (decodedByte (hex2int (rest.getD 0 0)) (hex2int (rest.getD 1 0))))
          (src + 3) (dst + 1)
      else urldecodeMemLoop isQuery fuel (writeAt mem dst 37) (src + 1) (dst + 1) := by
  have hc : mem.getD src 0 = 37 := h.getD_eq 0
  have hhigh : (writeAt mem dst 37).getD (src + 1) 0 = rest.getD 0 0 := (h.write 37).getD_eq 0
  have hlow : (writeAt mem dst 37).getD (src + 2) 0 = rest.getD 1 0 := (h.write 37).getD_eq 1
  have h43 : ¬ (isQuery = true ∧ (37 : UInt8) = 43) := fun h => absurd h.2 (by decide)
  rw [urldecodeMemLoop, hc, if_neg (by decide), if_neg h43, if_pos rfl]
  dsimp only
  rw [hhigh, hlow, writeAt_writeAt h.dst_lt.le]
  by_cases h0 : hex2int (rest.getD 0 0) ≠ 255
  · rw [if_pos h0]
    by_cases h1 : hex2int (rest.getD 1 0) ≠ 255
    · rw [if_pos h1, if_pos ⟨h0, h1⟩]
    · rw [if_neg h1, if_neg fun h => h1 h.2]
  · rw [if_neg h0, if_neg fun h => h0 h.1]

theorem urldecodeMemLoop_spec {isQuery : Bool} {n : ℕ} {spare w : Bytes} :
    ∀ {fuel src dst : ℕ} {mem out : Bytes}, DecodeMem n mem src dst out (w ++ 0 :: spare) →
      (0 : UInt8) ∉ w → w.length < fuel →
      ∃ src', DecodeMem n (urldecodeMemLoop isQuery fuel mem src dst).1 src'
        (urldecodeMemLoop isQuery fuel mem src dst).2 (out ++ urldecodeLoop isQuery w)
        (0 :: spare) := by
  fun_induction urldecodeLoop isQuery w with
  | case1 =>
    intro fuel src dst mem out h _ hf
    obtain ⟨fuel, rfl⟩ := Nat.exists_eq_add_one.mpr hf
    have hc : mem.getD src 0 = 0 := h.getD_eq 0
    rw [urldecodeMemLoop, hc, if_pos rfl, List.append_nil]
    exact ⟨src, h⟩
  | case2 c s hplus ih =>
    intro fuel src dst mem out h hw hf
    obtain ⟨fuel, rfl⟩ := Nat.exists_eq_add_one.mpr (Nat.zero_lt_of_lt hf)
    have hc : mem.getD src 0 = c := h.getD_eq 0
    rw [urldecodeMemLoop, hc, if_neg (List.ne_of_not_mem_cons hw).symm, if_pos hplus,
      List.append_cons]
    exact ih (h.write SP) (List.not_mem_of_not_mem_cons hw) (Nat.lt_of_succ_lt_succ hf)
  | case3 high low s hhex hplus ih =>
    intro fuel src dst mem out h hw hf
    obtain ⟨fuel, rfl⟩ := Nat.exists_eq_add_one.mpr (Nat.zero_lt_of_lt hf)
    have hw' : (0 : UInt8) ∉ s := fun h0 => hw (by simp [h0])
    rw [@urldecodeMemLoop_percent _ _ _ _ _ _ _ (high :: low :: (s ++ 0 :: spare)) h]
    simp only [List.getD_cons_zero, List.getD_cons_succ]
    rw [if_pos hhex, List.append_cons]
    refine ih (h.write _).advance.advance hw' ?_
    simp only [List.length_cons] at hf
    omega
  | case4 high low s hhex hplus ih =>
    intro fuel src dst mem out h hw hf
    obtain ⟨fuel, rfl⟩ := Nat.exists_eq_add_one.mpr (Nat.zero_lt_of_lt hf)
    rw [@urldecodeMemLoop_percent _ _ _ _ _ _ _ (high :: low :: (s ++ 0 :: spare)) h]
    simp only [List.getD_cons_zero, List.getD_cons_succ]
    rw [if_neg hhex, List.append_cons]
    exact ih (h.write 37) (List.not_mem_of_not_mem_cons hw) (Nat.lt_of_succ_lt_succ hf)
  | case5 high hplus ih =>
    intro fuel src dst mem out h hw hf
    obtain ⟨fuel, rfl⟩ := Nat.exists_eq_add_one.mpr (Nat.zero_lt_of_lt hf)
    rw [@urldecodeMemLoop_percent _ _ _ _ _ _ _ (high :: 0 :: spare) h]
    simp only [List.getD_cons_zero, List.getD_cons_succ]
    rw [if_neg fun h => h.2 hex2int_zero, List.append_cons]
    exact ih (h.write 37) (List.not_mem_of_not_mem_cons hw) (Nat.lt_of_succ_lt_succ hf)
  | case6 hplus =>
    intro fuel src dst mem out h hw hf
    obtain ⟨fuel, rfl⟩ := Nat.exists_eq_add_one.mpr (Nat.zero_lt_of_lt hf)
    obtain ⟨fuel, rfl⟩ := Nat.exists_eq_add_one.mpr (Nat.zero_lt_of_lt (Nat.lt_of_succ_lt_succ hf))
    have hend := h.write 37
    have hc : (writeAt mem dst 37).getD (src + 1) 0 = 0 := hend.getD_eq 0
    rw [@urldecodeMemLoop_percent _ _ _ _ _ _ _ (0 :: spare) h]
    simp only [List.getD_cons_zero]
    rw [if_neg fun h => h.1 hex2int_zero, urldecodeMemLoop, hc, if_pos rfl]
    exact ⟨src + 1, hend⟩
  | case7 c s hplus hc37 ih =>
    intro fuel src dst mem out h hw hf
    obtain ⟨fuel, rfl⟩ := Nat.exists_eq_add_one.mpr (Nat.zero_lt_of_lt hf)
    have hc : mem.getD src 0 = c := h.getD_eq 0
    rw [urldecodeMemLoop, hc, if_neg (List.ne_of_not_mem_cons hw).symm, if_neg hplus, if_neg hc37,
      List.append_cons]
    exact ih (h.write c) (List.not_mem_of_not_mem_cons hw) (Nat.lt_of_succ_lt_succ hf)

/-- The first loop does in place what the second one does to a string without a `%`. -/
theorem urldecodePrefix_spec {isQuery : Bool} {n : ℕ} {spare : Bytes} :
    ∀ {w : Bytes} {fuel src : ℕ} {mem out : Bytes}, DecodeMem n mem src src out (w ++ 0 :: spare) →
      (0 : UInt8) ∉ w → w.length < fuel →
      DecodeMem n (urldecodePrefix isQuery fuel mem src).1 (urldecodePrefix isQuery fuel mem src).2
        (urldecodePrefix isQuery fuel mem src).2
        (out ++ (w.takeWhile (· ≠ 37)).map fun c => if isQuery ∧ c = 43 then SP else c)
        (w.dropWhile (· ≠ 37) ++ 0 :: spare)
  | w, 0, _, _, _, _, _, hf => absurd hf (Nat.not_lt_zero _)
  | [], fuel + 1, src, mem, out, h, _, _ => by
    have hc : mem.getD src 0 = 0 := h.getD_eq 0
    rw [urldecodePrefix, hc, if_pos (.inl rfl), List.takeWhile_nil, List.map_nil, List.append_nil]
    exact h
  | c :: w, fuel + 1, src, mem, out, h, hw, hf => by
    have hc : mem.getD src 0 = c := h.getD_eq 0
    have h0 : c ≠ 0 := (List.ne_of_not_mem_cons hw).symm
    rw [urldecodePrefix, hc]
    by_cases h37 : c = 37
    · rw [if_pos (.inr h37), List.takeWhile_cons_of_neg (by simpa using h37),
        List.dropWhile_cons_of_neg (by simpa using h37), List.map_nil, List.append_nil]
      exact h
    · have hmem : (if isQuery = true ∧ c = 43 then writeAt mem src SP else mem) =
          writeAt mem src (if isQuery = true ∧ c = 43 then SP else c) := by
        split_ifs
        · rfl
        · exact h.writeAt_self.symm
      rw [if_neg (not_or.mpr ⟨h0, h37⟩), List.takeWhile_cons_of_pos (by simpa using h37),
        List.dropWhile_cons_of_pos (by simpa using h37), List.map_cons, List.append_cons, hmem]
      exact urldecodePrefix_spec (h.write _) (List.not_mem_of_not_mem_cons hw)
        (Nat.lt_of_succ_lt_succ hf)

theorem bufferUrldecodeInternal_eq (url : Bytes) (isQuery : Bool) :
    bufferUrldecodeInternal url isQuery = urldecodeLoop isQuery (cstr url) := by
  unfold bufferUrldecodeInternal
  dsimp only
  induction cstr url with
  | nil => rfl
  | cons c s ih =>
    by_cases h37 : c = 37
    · rw [List.takeWhile_cons_of_neg (by simpa using h37),
        List.dropWhile_cons_of_neg (by simpa using h37), List.map_nil, List.nil_append]
    · rw [List.takeWhile_cons_of_pos (by simpa using h37),
        List.dropWhile_cons_of_pos (by simpa using h37), List.map_cons, List.cons_append, ih]
      conv_rhs => unfold urldecodeLoop
      split_ifs <;> rfl

/-- The decoder leaves the decoded string, which is not longer, with a NUL behind it. -/
theorem bufferUrldecodeMem_spec (isQuery : Bool) (url spare : Bytes) :
    (bufferUrldecodeMem isQuery url spare).1.take ((bufferUrldecodeMem isQuery url spare).2 - 1) =
        bufferUrldecodeInternal url isQuery ∧
      (bufferUrldecodeInternal url isQuery).length ≤ url.length ∧
      (bufferUrldecodeMem isQuery url spare).2 =
        (bufferUrldecodeInternal url isQuery).length + 1 ∧
      (bufferUrldecodeMem isQuery url spare).1[(bufferUrldecodeMem isQuery url spare).2 - 1]? =
        some 0 := by
  unfold bufferUrldecodeMem
  by_cases hurl : url = []
  · subst hurl
    cases isQuery <;> simp [bufferUrldecodeInternal, cstr, urldecodeLoop]
  rw [if_neg hurl]
  dsimp only
  obtain ⟨spare', hspare⟩ := exists_cstr_append url spare
  have hlen : (cstr url).length ≤ url.length := (cstr_isPrefix url).length_le
  have hstart : DecodeMem (url ++ 0 :: spare).length (url ++ 0 :: spare) 0 0 []
      (cstr url ++ 0 :: spare') := ⟨rfl, rfl, rfl, le_rfl, hspare⟩
  have hprefix := @urldecodePrefix_spec isQuery _ _ _ _ _ _ _ hstart (notMem_cstr url)
    (Nat.lt_succ_of_le hlen)
  have hnul : (0 : UInt8) ∉ (cstr url).dropWhile (· ≠ 37) := fun h0 =>
    notMem_cstr url ((List.dropWhile_sublist _).subset h0)
  have hdrop := (List.dropWhile_sublist (l := cstr url) (fun c => decide (c ≠ 37))).length_le
  obtain ⟨src', hend⟩ := @urldecodeMemLoop_spec isQuery _ _ _ _ _ _ _ _ hprefix hnul
    (Nat.lt_succ_of_le (hdrop.trans hlen))
  have hout : [] ++ ((cstr url).takeWhile (· ≠ 37)).map
      (fun c => if isQuery = true ∧ c = 43 then SP else c) ++
        urldecodeLoop isQuery ((cstr url).dropWhile (· ≠ 37)) =
      bufferUrldecodeInternal url isQuery := rfl
  rw [hout] at hend
  have hsrc : src' ≤ url.length := by
    have hl := congrArg List.length hend.drop_eq
    have hl' := congrArg List.length hspare
    rw [List.length_drop, hend.length_eq, hl'] at hl
    simp only [List.length_append, List.length_cons] at hl hl'
    omega
  have hdst := hend.dst_le
  have htake := (hend.write 0).take_eq
  rw [Nat.add_sub_cancel]
  refine ⟨?_, hend.length_out.trans_le (hdst.trans hsrc), by rw [hend.length_out], ?_⟩
  · have hmin := congrArg (List.take (bufferUrldecodeInternal url isQuery).length) htake
    rw [List.take_left, List.take_take, hend.length_out, Nat.min_eq_left (Nat.le_succ _)] at hmin
    exact hmin
  · rw [getElem?_of_take htake (by simp [hend.length_out]),
      List.getElem?_append_right hend.length_out.le, hend.length_out, Nat.sub_self]
    rfl

/-- A control character becomes an underscore. -/
def printable (c : UInt8) : UInt8 := if c < 32 ∨ c = 127 then 95 else c

variable {encoding : BufferEncoding}

/-- The tables for URIs: what is encoded decodes, and what is not is no special character. -/
theorem isEncoded_uri (he : encoding = .relUri ∨ encoding = .relUriPart) (c : UInt8) :
    (encoding.isEncoded c → hex2int (hexChars.getD ((c >>> 4) &&& 0x0f).toNat 0) ≠ 255 ∧
        hex2int (hexChars.getD (c &&& 0x0f).toNat 0) ≠ 255 ∧
        decodedByte (hex2int (hexChars.getD ((c >>> 4) &&& 0x0f).toNat 0))
          (hex2int (hexChars.getD (c &&& 0x0f).toNat 0)) = printable c) ∧
      (¬ encoding.isEncoded c → c ≠ 0 ∧ c ≠ 37 ∧ c ≠ 43 ∧ printable c = c) := by
  have hhex : ∀ n < 256, hex2int (hexChars.getD ((UInt8.ofNat n >>> 4) &&& 0x0f).toNat 0) ≠ 255 ∧
      hex2int (hexChars.getD (UInt8.ofNat n &&& 0x0f).toNat 0) ≠ 255 ∧
      decodedByte (hex2int (hexChars.getD ((UInt8.ofNat n >>> 4) &&& 0x0f).toNat 0))
        (hex2int (hexChars.getD (UInt8.ofNat n &&& 0x0f).toNat 0)) = printable (UInt8.ofNat n) := by
    decide +kernel
  have htable : ∀ n < 256,
      (encodedCharsRelUri.getD n 0 = 0 ∨ encodedCharsRelUriPart.getD n 0 = 0) →
      UInt8.ofNat n ≠ 0 ∧ UInt8.ofNat n ≠ 37 ∧ UInt8.ofNat n ≠ 43 ∧
        printable (UInt8.ofNat n) = UInt8.ofNat n := by
    decide +kernel
  have hc := hhex c.toNat c.toNat_lt
  have ht := htable c.toNat c.toNat_lt
  rw [UInt8.ofNat_toNat] at hc ht
  refine ⟨fun _ => hc, fun h => ht ?_⟩
  have hzero : encoding.map.getD c.toNat 0 = 0 := by simpa [BufferEncoding.isEncoded] using h
  rcases he with rfl | rfl
  · exact .inl hzero
  · exact .inr hzero

theorem encodedBytes_uri (he : encoding = .relUri ∨ encoding = .relUriPart) (c : UInt8) :
    encodedBytes encoding c = if encoding.isEncoded c then 37 :: hexPair c else [c] := by
  rcases he with rfl | rfl <;> rfl

theorem urldecodeLoop_encodedBytes (he : encoding = .relUri ∨ encoding = .relUriPart)
    (isQuery : Bool) (c : UInt8) (s : Bytes) :
    urldecodeLoop isQuery (encodedBytes encoding c ++ s) =
      printable c :: urldecodeLoop isQuery s := by
  obtain ⟨henc, hplain⟩ := isEncoded_uri he c
  rw [encodedBytes_uri he]
  split_ifs with h
  · obtain ⟨hhigh, hlow, hdec⟩ := henc h
    rw [hexPair, List.cons_append, List.cons_append, List.cons_append, List.nil_append,
      urldecodeLoop, if_neg fun h => absurd h.2 (by decide), if_pos rfl, if_pos ⟨hhigh, hlow⟩,
      hdec]
  · obtain ⟨-, h37, h43, hc⟩ := hplain h
    rw [List.singleton_append]
    conv_lhs => unfold urldecodeLoop
    rw [if_neg fun h => h43 h.2, if_neg h37, hc]

theorem urldecodeLoop_writtenBytes (he : encoding = .relUri ∨ encoding = .relUriPart)
    (isQuery : Bool) (s : Bytes) :
    urldecodeLoop isQuery (writtenBytes encoding s) = s.map printable := by
  induction s with
  | nil => rfl
  | cons c s ih =>
    rw [writtenBytes, List.flatMap_cons, urldecodeLoop_encodedBytes he, List.map_cons, ← ih]
    rfl

theorem notMem_writtenBytes (he : encoding = .relUri ∨ encoding = .relUriPart) (s : Bytes) :
    (0 : UInt8) ∉ writtenBytes encoding s := by
  intro h0
  obtain ⟨c, -, hc⟩ := List.mem_flatMap.mp h0
  obtain ⟨henc, hplain⟩ := isEncoded_uri he c
  rw [encodedBytes_uri he] at hc
  split_ifs at hc with h
  · obtain ⟨hhigh, hlow, -⟩ := henc h
    simp only [hexPair, List.mem_cons, List.not_mem_nil, or_false] at hc
    rcases hc with hc | hc | hc
    · cases hc
    · exact hhigh (hc ▸ hex2int_zero)
    · exact hlow (hc ▸ hex2int_zero)
  · exact (hplain h).1 (List.mem_singleton.mp hc).symm

/-- Decoding gives back what was encoded for a URI, the encoder writes as much as it reserves, and
the decoder stays within the string and ends it with a NUL. -/
theorem urlCoding_inverse (encoding : BufferEncoding) (isQuery : Bool) (b : Buffer) :
    (encoding = .relUri ∨ encoding = .relUriPart → ∀ s,
      bufferUrldecodeInternal (bufferAppendStringEncoded none s encoding).string isQuery =
        s.map printable) ∧
    (∀ s, (writtenBytes encoding s).length = reservedLen encoding s ∧
      (bufferAppendStringEncoded b s encoding).string = b.string ++ writtenBytes encoding s) ∧
    ∀ url spare,
      (bufferUrldecodeMem isQuery url spare).1.take ((bufferUrldecodeMem isQuery url spare).2 - 1) =
          bufferUrldecodeInternal url isQuery ∧
        (bufferUrldecodeInternal url isQuery).length ≤ url.length ∧
        (bufferUrldecodeMem isQuery url spare).2 =
          (bufferUrldecodeInternal url isQuery).length + 1 ∧
        (bufferUrldecodeMem isQuery url spare).1[(bufferUrldecodeMem isQuery url spare).2 - 1]? =
          some 0 := by
  refine ⟨fun he s => ?_, fun s => ⟨length_writtenBytes encoding s,
    string_bufferAppendStringEncoded b s encoding⟩, bufferUrldecodeMem_spec isQuery⟩
  rw [string_bufferAppendStringEncoded, bufferUrldecodeInternal_eq,
    cstr_of_notMem (by simpa [Buffer.string] using notMem_writtenBytes he s)]
  exact urldecodeLoop_writtenBytes he isQuery s

/-- A string with a control character, a percent and a plus sign. -/
theorem urlCoding_inverse_plus :
    bufferUrldecodeInternal (bufferAppendStringEncoded none (str "\n%+") .relUri).string true =
      (str "\n%+").map printable :=
  (urlCoding_inverse .relUri true none).1 (Or.inl rfl) (str "\n%+")

end Lighttpd
