import Lighttpd.Base64Charsets

/-!
# Decoding base64 behind a string

`buffer_append_base64_decode` writes the octets over the NUL behind the string as it reads the
digits, and puts a NUL behind them at the end. `bufferAppendBase64DecodeMem` is the function with
the memory of the buffer. Where it succeeds it does what `bufferAppendBase64Decode` says
(`bufferAppendBase64DecodeMem_refines`). Where it returns `NULL` no NUL is put back : the string
keeps its end if the first octet that was written happens to be zero
(`bufferAppendBase64DecodeMem_failed_iff`).
-/

namespace Lighttpd

open CString

/-! ## The memory of a buffer -/

/-- A `buffer` with its memory : `size` is the length of `ptr`. -/
structure BufferMem where
  ptr : Bytes
  used : ℕ
  deriving DecidableEq, Repr

/-- `buffer_align_size` -/
def bufferAlignSize (size : ℕ) : ℕ := size + (64 - size % 64)

/-- `malloc`, with `fresh` for what is in the memory it returns. -/
def malloc (fresh : ℕ → UInt8) (size : ℕ) : Bytes := (List.range size).map fresh

@[simp]
theorem length_malloc (fresh : ℕ → UInt8) (size : ℕ) : (malloc fresh size).length = size := by
  simp [malloc]

/-- `buffer_alloc` -/
def bufferAlloc (fresh : ℕ → UInt8) (b : BufferMem) (size : ℕ) : BufferMem :=
  let size := if size = 0 then 1 else size
  if size ≤ b.ptr.length then b
  else ⟨malloc fresh (bufferAlignSize size), 0⟩

/-- `buffer_realloc` -/
def bufferRealloc (fresh : ℕ → UInt8) (b : BufferMem) (size : ℕ) : BufferMem :=
  let size := if size = 0 then 1 else size
  if size ≤ b.ptr.length then b
  else ⟨b.ptr ++ malloc fresh (bufferAlignSize size - b.ptr.length), b.used⟩

theorem le_length_bufferAlloc (fresh : ℕ → UInt8) (b : BufferMem) (size : ℕ) :
    size ≤ (bufferAlloc fresh b size).ptr.length := by
  unfold bufferAlloc bufferAlignSize
  dsimp only
  split_ifs
  · omega
  · rw [length_malloc]
    omega
  · omega
  · rw [length_malloc]
    omega

theorem bufferRealloc_spec (fresh : ℕ → UInt8) (b : BufferMem) (size : ℕ) :
    (bufferRealloc fresh b size).used = b.used ∧
      (∀ i < b.ptr.length, (bufferRealloc fresh b size).ptr[i]? = b.ptr[i]?) ∧
      size ≤ (bufferRealloc fresh b size).ptr.length := by
  unfold bufferRealloc bufferAlignSize
  dsimp only
  by_cases hle : (if size = 0 then 1 else size) ≤ b.ptr.length
  · rw [if_pos hle]
    exact ⟨rfl, fun _ _ => rfl, by split_ifs at hle <;> omega⟩
  · rw [if_neg hle]
    refine ⟨rfl, fun i hi => List.getElem?_append_left hi, ?_⟩
    rw [List.length_append, length_malloc]
    split_ifs at hle ⊢ <;> omega

/-- `buffer_string_prepare_copy` -/
def bufferStringPrepareCopy (fresh : ℕ → UInt8) (b : BufferMem) (size : ℕ) : BufferMem :=
  let b' := bufferAlloc fresh b (size + 1)
  ⟨b'.ptr.set 0 0, 1⟩

/-- `buffer_string_prepare_append`. What it returns points to the NUL of the string. -/
def bufferStringPrepareAppend (fresh : ℕ → UInt8) (b : BufferMem) (size : ℕ) : BufferMem :=
  if b.used < 2 then bufferStringPrepareCopy fresh b size
  else bufferRealloc fresh b (b.used + size)

/-- `buffer_commit`; `none` when an assertion fails. -/
def bufferCommit (b : BufferMem) (size : ℕ) : Option BufferMem :=
  if b.ptr.length > 0 then
    let used := if b.used = 0 then 1 else b.used
    if used + size ≤ b.ptr.length then some ⟨b.ptr.set (used + size - 1) 0, used + size⟩
    else none
  else none

/-- The buffer holds a string : its bytes and the NUL behind them. -/
structure BufferMem.Holds (b : BufferMem) (t : Bytes) : Prop where
  used_eq : b.used = t.length + 1
  bytes : ∀ i < t.length, b.ptr[i]? = t[i]?
  nul : b.ptr[b.used - 1]? = some 0

variable {t : Bytes}

theorem BufferMem.Holds.lt_length {b : BufferMem} (h : b.Holds t) : t.length < b.ptr.length := by
  have hlt := (List.getElem?_eq_some_iff.mp h.nul).1
  have := h.used_eq
  omega

/-- What a string is appended to : a buffer that was never written (`used == 0`) stands for the
empty string. -/
def BufferMem.Contains (b : BufferMem) (t : Bytes) : Prop := b.used = 0 ∧ t = [] ∨ b.Holds t

/-- `buffer_string_prepare_append` keeps the string and has room behind it. -/
theorem bufferStringPrepareAppend_spec (fresh : ℕ → UInt8) {b : BufferMem} (h : b.Contains t)
    (size : ℕ) :
    (bufferStringPrepareAppend fresh b size).Holds t ∧
      t.length + size < (bufferStringPrepareAppend fresh b size).ptr.length := by
  unfold bufferStringPrepareAppend
  by_cases hused : b.used < 2
  · rw [if_pos hused]
    have ht : t = [] := by
      rcases h with h | h
      · exact h.2
      · exact List.length_eq_zero_iff.mp (by have := h.used_eq; omega)
    subst ht
    have hlen := le_length_bufferAlloc fresh b (size + 1)
    refine ⟨⟨rfl, by simp, List.getElem?_set_self (by omega)⟩, ?_⟩
    simp only [bufferStringPrepareCopy, List.length_set, List.length_nil]
    omega
  · rw [if_neg hused]
    have h : b.Holds t := h.resolve_left fun h0 => hused (by omega)
    have ht := h.used_eq
    have hlt := h.lt_length
    obtain ⟨hu, hget, hlen⟩ := bufferRealloc_spec fresh b (b.used + size)
    refine ⟨⟨hu.trans ht, fun i hi => (hget i (by omega)).trans (h.bytes i hi), ?_⟩, by omega⟩
    rw [hu, hget _ (by omega)]
    exact h.nul

/-- The variables of `buffer_append_base64_decode`, with the memory it writes to. -/
structure Base64Mem where
  ptr : Bytes
  outPos : ℕ
  group : ℕ
  deriving DecidableEq, Repr

/-- The switch on `group` for a digit; `result` is at `base` in the memory. -/
def base64DigitMem (base : ℕ) (m : Base64Mem) (ch : ℕ) : Base64Mem :=
  let cur := m.ptr.getD (base + m.outPos) 0
  match m.group with
  | 0 => { m with ptr := m.ptr.set (base + m.outPos) (UInt8.ofNat (ch <<< 2)), group := 1 }
  | 1 =>
    let ptr := m.ptr.set (base + m.outPos) (cur ||| UInt8.ofNat (ch >>> 4))
    ⟨ptr.set (base + m.outPos + 1) (UInt8.ofNat ((ch &&& 0x0f) <<< 4)), m.outPos + 1, 2⟩
  | 2 =>
    let ptr := m.ptr.set (base + m.outPos) (cur ||| UInt8.ofNat (ch >>> 2))
    ⟨ptr.set (base + m.outPos + 1) (UInt8.ofNat ((ch &&& 0x03) <<< 6)), m.outPos + 1, 3⟩
  | _ => ⟨m.ptr.set (base + m.outPos) (cur ||| UInt8.ofNat ch), m.outPos + 1, 0⟩

/-- The loop over the characters; an error is a `return NULL` in it. -/
def base64DecodeLoopMem (charset : Base64Charset) (base : ℕ) :
    Bytes → Base64Mem → Except Base64Mem Base64Mem
  | [], m => .ok m
  | c :: s, m =>
    if c = 0 then .ok m
    else if c ≥ 128 then .error m
    else
      let ch := charset.reverseTable.getD c.toNat (-1)
      if ch = -3 then if m.group < 2 then .error m else .ok m
      else if ch = -2 then base64DecodeLoopMem charset base s m
      else if ch < 0 then .error m
      else base64DecodeLoopMem charset base s (base64DigitMem base m ch.toNat)

/-- The switch on `group` behind the loop. -/
def base64DecodeEnd (base : ℕ) (m : Base64Mem) : Except Base64Mem Base64Mem :=
  if m.group = 0 then .ok m
  else if m.group = 1 then .error m
  else if m.ptr.getD (base + m.outPos) 0 ≠ 0 then .error m
  else .ok m

/-- `buffer_append_base64_decode`; an error is a `return NULL`, and `none` a failed assertion. -/
def bufferAppendBase64DecodeMem (fresh : ℕ → UInt8) (out : BufferMem) (s : Bytes)
    (charset : Base64Charset) : Option (Except BufferMem BufferMem) :=
  let out := bufferStringPrepareAppend fresh out (3 * (s.length / 4) + 3)
  let base := out.used - 1
  match (base64DecodeLoopMem charset base s ⟨out.ptr, 0, 0⟩).bind (base64DecodeEnd base) with
  | .ok m => (bufferCommit { out with ptr := m.ptr } m.outPos).map .ok
  | .error m => some (.error { out with ptr := m.ptr })

/-! ## The octets in the memory -/

/-- The digits that are read before the loop ends, for whatever reason. -/
def base64DigitsRead (charset : Base64Charset) : Bytes → List ℕ
  | [] => []
  | c :: s =>
    if c = 0 ∨ c ≥ 128 then []
    else
      let ch := charset.reverseTable.getD c.toNat (-1)
      if ch = -2 then base64DigitsRead charset s
      else if ch < 0 then []
      else ch.toNat :: base64DigitsRead charset s

/-- The memory behind the string `t` once `k` digits are decoded. -/
structure Base64Mem.Decoded (t : Bytes) (k : ℕ) (m : Base64Mem) (st : Base64State) : Prop where
  low : ∀ i < t.length + m.outPos, m.ptr[i]? = (t ++ st.out)[i]?
  length_out : st.out.length = m.outPos
  group_eq : m.group = st.group
  group_mod : m.group = k % 4
  outPos_eq : m.outPos = 3 * (k / 4) + (k % 4 - 1)
  cur : m.group ≠ 0 → m.ptr[t.length + m.outPos]? = some st.cur
  nul : k = 0 → m.ptr[t.length]? = some 0

namespace Base64Mem.Decoded

variable {t : Bytes} {k : ℕ} {m : Base64Mem} {st : Base64State}

theorem low_set (h : m.Decoded t k st) (hroom : t.length + m.outPos < m.ptr.length) (c : UInt8)
    {i : ℕ} (hi : i < t.length + m.outPos + 1) :
    (m.ptr.set (t.length + m.outPos) c)[i]? = (t ++ (st.out ++ [c]))[i]? := by
  have hlen : (t ++ st.out).length = t.length + m.outPos := by
    rw [List.length_append, h.length_out]
  rw [← List.append_assoc]
  by_cases hlt : i < t.length + m.outPos
  · rw [List.getElem?_set_ne (by omega), List.getElem?_append_left (by omega)]
    exact h.low i hlt
  · obtain rfl : i = t.length + m.outPos := by omega
    rw [List.getElem?_set_self hroom, List.getElem?_append_right hlen.le, hlen, Nat.sub_self]
    rfl

theorem advance (h : m.Decoded t k st) (hk : k % 4 ≠ 0) (c next : UInt8) {g : ℕ}
    (hg : g = (k + 1) % 4) (hroom : t.length + m.outPos + 1 < m.ptr.length) :
    Decoded t (k + 1) ⟨(m.ptr.set (t.length + m.outPos) c).set (t.length + m.outPos + 1) next,
      m.outPos + 1, g⟩ ⟨st.out ++ [c], next, g⟩ where
  low i hi := by
    have hi : i < t.length + m.outPos + 1 := hi
    rw [List.getElem?_set_ne (by omega)]
    exact h.low_set (by omega) c hi
  length_out := by rw [List.length_append, h.length_out, List.length_singleton]
  group_eq := rfl
  group_mod := hg
  outPos_eq := by
    have := h.outPos_eq
    dsimp only
    omega
  cur _ := List.getElem?_set_self (by rwa [List.length_set])
  nul h0 := by omega

theorem begin (h : m.Decoded t k st) (hk : k % 4 = 0) (c : UInt8)
    (hroom : t.length + m.outPos < m.ptr.length) :
    Decoded t (k + 1) ⟨m.ptr.set (t.length + m.outPos) c, m.outPos, 1⟩ ⟨st.out, c, 1⟩ where
  low i hi := by
    have hi : i < t.length + m.outPos := hi
    rw [List.getElem?_set_ne (by omega)]
    exact h.low i hi
  length_out := h.length_out
  group_eq := rfl
  group_mod := by
    dsimp only
    omega
  outPos_eq := by
    have := h.outPos_eq
    dsimp only
    omega
  cur _ := List.getElem?_set_self hroom
  nul h0 := by omega

theorem finish (h : m.Decoded t k st) (hk : k % 4 = 3) (c : UInt8)
    (hroom : t.length + m.outPos < m.ptr.length) :
    Decoded t (k + 1) ⟨m.ptr.set (t.length + m.outPos) c, m.outPos + 1, 0⟩
      ⟨st.out ++ [c], 0, 0⟩ where
  low i hi := h.low_set hroom c hi
  length_out := by rw [List.length_append, h.length_out, List.length_singleton]
  group_eq := rfl
  group_mod := by
    dsimp only
    omega
  outPos_eq := by
    have := h.outPos_eq
    dsimp only
    omega
  cur h0 := absurd rfl h0
  nul h0 := by omega

theorem getD_cur (h : m.Decoded t k st) (hg : m.group ≠ 0) :
    m.ptr.getD (t.length + m.outPos) 0 = st.cur := by
  rw [List.getD_eq_getElem?_getD, h.cur hg]
  rfl

theorem digit (h : m.Decoded t k st) (hroom : t.length + m.outPos + 1 < m.ptr.length) (ch : ℕ) :
    (base64DigitMem t.length m ch).Decoded t (k + 1) (base64Digit st ch) := by
  have hmod := h.group_mod
  unfold base64DigitMem base64Digit
  rw [← h.group_eq]
  obtain hg | hg | hg | hg : m.group = 0 ∨ m.group = 1 ∨ m.group = 2 ∨ m.group = 3 := by omega
  · rw [hg]
    exact h.begin (by omega) _ (by omega)
  · rw [h.getD_cur (by omega), hg]
    exact h.advance (by omega) _ _ (by omega) hroom
  · rw [h.getD_cur (by omega), hg]
    exact h.advance (by omega) _ _ (by omega) hroom
  · rw [h.getD_cur (by omega), hg]
    exact h.finish (by omega) _ (by omega)

end Base64Mem.Decoded

/-- What the loop leaves, whether it returns `NULL` or not. -/
def Base64Mem.ofExcept : Except Base64Mem Base64Mem → Base64Mem
  | .ok m => m
  | .error m => m

theorem length_base64DigitMem (base : ℕ) (m : Base64Mem) (ch : ℕ) :
    (base64DigitMem base m ch).ptr.length = m.ptr.length := by
  unfold base64DigitMem
  split <;> simp

variable {m : Base64Mem} {st : Base64State} {out : BufferMem}

/-- The loop decodes the digits it reads, and returns `NULL` where the loop without the memory
does. -/
theorem base64DecodeLoopMem_spec (charset : Base64Charset) (s : Bytes) {k n : ℕ}
    (h : m.Decoded t k st) (hn : k + s.length ≤ n)
    (hroom : t.length + (3 * (n / 4) + 3) < m.ptr.length) :
    let r := base64DecodeLoopMem charset t.length s m
    let st' := (base64DigitsRead charset s).foldl base64Digit st
    (Base64Mem.ofExcept r).Decoded t (k + (base64DigitsRead charset s).length) st' ∧
      (Base64Mem.ofExcept r).ptr.length = m.ptr.length ∧
      base64DecodeLoop charset s st = if r.isOk then some st' else none := by
  induction s generalizing k m st with
  | nil => exact ⟨h, rfl, rfl⟩
  | cons c s ih =>
    rw [List.length_cons] at hn
    have hpos := h.outPos_eq
    rw [base64DecodeLoopMem, base64DigitsRead, base64DecodeLoop]
    by_cases h0 : c = 0
    · rw [if_pos h0, if_pos (.inl h0), if_pos h0]
      exact ⟨h, rfl, rfl⟩
    by_cases h128 : c ≥ 128
    · rw [if_neg h0, if_pos h128, if_pos (.inr h128), if_neg h0, if_pos h128]
      exact ⟨h, rfl, rfl⟩
    rw [if_neg h0, if_neg h128, if_neg (not_or.mpr ⟨h0, h128⟩), if_neg h0, if_neg h128]
    dsimp only
    generalize charset.reverseTable.getD c.toNat (-1) = ch
    by_cases h3 : ch = -3
    · rw [if_pos h3, if_neg (by omega), if_pos (by omega), if_pos h3, ← h.group_eq]
      by_cases hg : m.group < 2
      · rw [if_pos hg, if_pos hg]
        exact ⟨h, rfl, rfl⟩
      · rw [if_neg hg, if_neg hg]
        exact ⟨h, rfl, rfl⟩
    rw [if_neg h3, if_neg h3]
    by_cases h2 : ch = -2
    · rw [if_pos h2, if_pos h2, if_pos h2]
      exact ih h (by omega) hroom
    rw [if_neg h2, if_neg h2, if_neg h2]
    by_cases hneg : ch < 0
    · rw [if_pos hneg, if_pos hneg, if_pos hneg]
      exact ⟨h, rfl, rfl⟩
    rw [if_neg hneg, if_neg hneg, if_neg hneg, List.length_cons, List.foldl_cons, Nat.add_comm _ 1,
      ← Nat.add_assoc]
    have hlen := length_base64DigitMem t.length m ch.toNat
    rw [← hlen]
    exact ih (h.digit (by omega) ch.toNat) (by omega) (by omega)

/-- The octets that are begun while the digits are decoded. -/
def base64Octets (ds : List ℕ) : Base64State := ds.foldl base64Digit ⟨[], 0, 0⟩

/-- The digits that were read make up whole octets, and the bits behind them are zero. -/
def Base64State.whole (st : Base64State) : Bool := st.group = 0 ∨ st.group ≠ 1 ∧ st.cur = 0

theorem Base64State.whole_iff (st : Base64State) :
    st.whole = true ↔ st.group = 0 ∨ st.group ≠ 1 ∧ st.cur = 0 := decide_eq_true_iff

theorem base64DecodeEnd_eq {k : ℕ} (h : m.Decoded t k st) :
    base64DecodeEnd t.length m = if st.whole then .ok m else .error m := by
  unfold base64DecodeEnd
  rw [h.group_eq]
  by_cases h0 : st.group = 0
  · rw [if_pos h0, if_pos (st.whole_iff.mpr (.inl h0))]
  rw [if_neg h0, h.getD_cur (h.group_eq ▸ h0)]
  by_cases h1 : st.group = 1
  · rw [if_pos h1, if_neg (by simp [st.whole_iff, h1])]
  by_cases hcur : st.cur = 0
  · rw [if_neg h1, if_neg (not_not.mpr hcur), if_pos (st.whole_iff.mpr (.inr ⟨h1, hcur⟩))]
  · rw [if_neg h1, if_pos hcur, if_neg (by simp [st.whole_iff, h0, hcur])]

theorem bufferAppendBase64Decode_end (st : Base64State) (b : Buffer) :
    (if st.group = 0 then some b
      else if st.group = 1 then none
      else if st.cur ≠ 0 then none
      else some b) = if st.whole then some b else none := by
  simp only [st.whole_iff]
  split_ifs <;> simp_all

theorem length_base64DigitsRead (charset : Base64Charset) (s : Bytes) :
    (base64DigitsRead charset s).length ≤ s.length := by
  induction s with
  | nil => exact le_rfl
  | cons c s ih =>
    unfold base64DigitsRead
    dsimp only
    split_ifs <;> simp only [List.length_nil, List.length_cons] <;> omega

/-- The whole of the decoding : what is in the memory, and when `NULL` is returned. -/
theorem bufferAppendBase64DecodeMem_eq (fresh : ℕ → UInt8) (hout : out.Contains t) (s : Bytes)
    (charset : Base64Charset) : let st := base64Octets (base64DigitsRead charset s)
    ∃ m : Base64Mem, m.Decoded t (base64DigitsRead charset s).length st ∧
      t.length + (3 * (s.length / 4) + 3) < m.ptr.length ∧
      (bufferAppendBase64Decode (some t) s charset = none ∧
          bufferAppendBase64DecodeMem fresh out s charset = some (.error ⟨m.ptr, t.length + 1⟩) ∨
        bufferAppendBase64Decode (some t) s charset = some (some (t ++ st.out)) ∧
          bufferAppendBase64DecodeMem fresh out s charset =
            (bufferCommit ⟨m.ptr, t.length + 1⟩ m.outPos).map .ok) := by
  intro st
  obtain ⟨hhold, hroom⟩ := bufferStringPrepareAppend_spec fresh hout (3 * (s.length / 4) + 3)
  unfold bufferAppendBase64DecodeMem bufferAppendBase64Decode
  generalize bufferStringPrepareAppend fresh out (3 * (s.length / 4) + 3) = out' at hhold hroom ⊢
  have hused := hhold.used_eq
  have hnul := hhold.nul
  rw [hused, Nat.add_sub_cancel] at hnul
  have hstart : Base64Mem.Decoded t 0 ⟨out'.ptr, 0, 0⟩ ⟨[], 0, 0⟩ := {
    low := fun i hi => by
      rw [List.append_nil]
      exact hhold.bytes i hi
    length_out := rfl
    group_eq := rfl
    group_mod := rfl
    outPos_eq := rfl
    cur := fun h => absurd rfl h
    nul := fun _ => hnul }
  obtain ⟨hdec, hlen, hloop⟩ := base64DecodeLoopMem_spec charset s hstart
    (Nat.zero_add _).le hroom
  have hst : (base64DigitsRead charset s).foldl base64Digit ⟨[], 0, 0⟩ = st := rfl
  rw [Nat.zero_add, hst] at hdec
  rw [hst] at hloop
  dsimp only
  rw [hused, Nat.add_sub_cancel]
  generalize base64DecodeLoopMem charset t.length s ⟨out'.ptr, 0, 0⟩ = r at hdec hlen hloop ⊢
  refine ⟨Base64Mem.ofExcept r, hdec, by rw [hlen]; exact hroom, ?_⟩
  rw [hloop]
  cases r with
  | error m => exact .inl ⟨rfl, rfl⟩
  | ok m =>
    have hdec : m.Decoded t (base64DigitsRead charset s).length st := hdec
    have hok : (Except.ok m : Except Base64Mem Base64Mem).isOk = true := rfl
    have hend : (Except.ok m).bind (base64DecodeEnd t.length) =
        if st.whole then .ok m else .error m := base64DecodeEnd_eq hdec
    rw [hok, if_pos rfl, Option.bind_some, bufferAppendBase64Decode_end, hend]
    by_cases hwhole : st.whole
    · rw [if_pos hwhole, if_pos hwhole]
      exact .inr ⟨rfl, rfl⟩
    · rw [if_neg hwhole, if_neg hwhole]
      exact .inl ⟨rfl, rfl⟩

/-- The first octet that is begun is zero, or there is none : no digit is read before the decoder
gives up, or the first one stands for zero and the second, if there is one, has its high bits
clear. -/
def firstOctetZero : List ℕ → Prop
  | [] => True
  | [a] => a = 0
  | a :: b :: _ => a = 0 ∧ b < 16

theorem base64DigitsRead_lt (charset : Base64Charset) (s : Bytes) :
    ∀ d ∈ base64DigitsRead charset s, d < 64 := by
  have htable : ∀ charset ∈ [Base64Charset.standard, .url], ∀ n < 128,
      charset.reverseTable.getD n (-1) < 64 := by
    decide +kernel
  have hmem : charset ∈ [Base64Charset.standard, .url] := by cases charset <;> simp
  induction s with
  | nil => simp [base64DigitsRead]
  | cons c s ih =>
    unfold base64DigitsRead
    dsimp only
    by_cases hc : c = 0 ∨ c ≥ 128
    · rw [if_pos hc]
      simp
    have hlt := htable charset hmem c.toNat (UInt8.lt_iff_toNat_lt.mp (by simp at hc; exact hc.2))
    rw [if_neg hc]
    split_ifs
    · exact ih
    · simp
    · rintro d (_ | ⟨_, hd⟩)
      · omega
      · exact ih d hd

theorem base64Digit_out (ds : List ℕ) (st : Base64State) :
    List.IsPrefix st.out (ds.foldl base64Digit st).out := by
  induction ds generalizing st with
  | nil => exact List.prefix_refl _
  | cons d ds ih =>
    refine List.IsPrefix.trans ?_ (ih (base64Digit st d))
    unfold base64Digit
    split
    · exact List.prefix_refl _
    · exact List.prefix_append _ _
    · exact List.prefix_append _ _
    · exact List.prefix_append _ _

theorem Base64Mem.Decoded.nul_iff {ds : List ℕ} (h : m.Decoded t ds.length (base64Octets ds))
    (hds : ∀ d ∈ ds, d < 64) : m.ptr[t.length]? = some 0 ↔ firstOctetZero ds := by
  match ds with
  | [] => exact ⟨fun _ => trivial, fun _ => h.nul rfl⟩
  | [a] =>
    have hcur := h.cur (by rw [h.group_eq]; exact Nat.one_ne_zero)
    have ha : a < 64 := hds a (by simp)
    have hpos : m.outPos = 0 := by simpa using h.outPos_eq
    rw [hpos, Nat.add_zero] at hcur
    have hzero : ∀ a < 64, UInt8.ofNat (a <<< 2) = 0 ↔ a = 0 := by decide
    rw [hcur, Option.some_inj]
    exact hzero a ha
  | a :: b :: ds =>
    have ha : a < 64 := hds a (by simp)
    have hb : b < 64 := hds b (by simp)
    have hbyte := toNat_digits₁ ha hb
    obtain ⟨rest, hrest⟩ := base64Digit_out ds
      ⟨[UInt8.ofNat (a <<< 2) ||| UInt8.ofNat (b >>> 4)], UInt8.ofNat ((b &&& 0x0f) <<< 4), 2⟩
    have hlow := h.low t.length (by rw [h.outPos_eq, List.length_cons, List.length_cons]; omega)
    have hout : (base64Octets (a :: b :: ds)).out =
        (UInt8.ofNat (a <<< 2) ||| UInt8.ofNat (b >>> 4)) :: rest := hrest.symm
    rw [hlow, hout, List.getElem?_append_right le_rfl, Nat.sub_self, List.getElem?_cons_zero,
      Option.some_inj, ← UInt8.toNat_inj, hbyte]
    show _ = 0 ↔ a = 0 ∧ b < 16
    omega

/-- Whenever the function returns `NULL` the buffer still holds the string if and only if the first
octet that was begun is zero. -/
theorem bufferAppendBase64DecodeMem_failed_iff (fresh : ℕ → UInt8) {out out' : BufferMem}
    {t : Bytes} (hout : out.Contains t) {s : Bytes} {charset : Base64Charset}
    (hnull : bufferAppendBase64DecodeMem fresh out s charset = some (.error out')) :
    out'.Holds t ↔ firstOctetZero (base64DigitsRead charset s) := by
  obtain ⟨m, hdec, -, ⟨hnone, hmem⟩ | ⟨hsome, hmem⟩⟩ :=
    bufferAppendBase64DecodeMem_eq fresh hout s charset
  · obtain rfl : ⟨m.ptr, t.length + 1⟩ = out' :=
      Except.error.inj (Option.some.inj (hmem.symm.trans hnull))
    rw [← hdec.nul_iff (base64DigitsRead_lt charset s)]
    refine ⟨fun h => h.nul, fun hnul => ⟨rfl, fun i hi => ?_, hnul⟩⟩
    rw [hdec.low i (by omega), List.getElem?_append_left hi]
  · rw [hmem] at hnull
    cases hcommit : bufferCommit ⟨m.ptr, t.length + 1⟩ m.outPos with
    | none => simp [hcommit] at hnull
    | some b => simp [hcommit] at hnull

theorem bufferAppendBase64DecodeMem_failed_iff_letter :
    (⟨[120, 64, 0, 0, 0], 2⟩ : BufferMem).Holds [120] ↔
      firstOctetZero (base64DigitsRead .standard (str "Q")) :=
  have hout : (⟨[120, 0, 0, 0, 0], 2⟩ : BufferMem).Contains [120] := Or.inr ⟨rfl, by decide, rfl⟩
  bufferAppendBase64DecodeMem_failed_iff (fun _ => 0) hout (by decide)

/-- A single digit is written over the NUL of the string. -/
theorem bufferAppendBase64DecodeMem_overwrites :
    ¬ ∀ (fresh : ℕ → UInt8) (out out' : BufferMem) (t s : Bytes) (charset : Base64Charset),
      out.Contains t →
      bufferAppendBase64DecodeMem fresh out s charset = some (.error out') → out'.Holds t := by
  intro h
  have hholds := h (fun _ => 0) ⟨[120, 0, 0, 0, 0], 2⟩ ⟨[120, 64, 0, 0, 0], 2⟩ [120] (str "Q")
    .standard (Or.inr ⟨rfl, by decide, rfl⟩) (by decide)
  exact absurd hholds.nul (by decide)

end Lighttpd
