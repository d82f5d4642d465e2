import Lighttpd.PathSimplify

/-!
# Simplifying a path within one buffer

`buffer_path_simplify` may be given one buffer as source and destination. Then the bytes that it
reads are those that it has not written over: `out` never comes before `walk`. A run on one buffer
and a run on two write the same bytes (`bufferPathSimplifyMem_eq`), and what they write is a normal
path (`bufferPathSimplifyMem_spec`).
-/

namespace Lighttpd

open CString PathSegments

/-- `*walk`, in the memory `src`, or in that of `dest` when both are one buffer. -/
def readWalk (src : Option Bytes) (dest : Bytes) (walk : ℕ) : UInt8 := (src.getD dest).getD walk 0

/-- The loop of `buffer_path_simplify`, for at most `fuel` turns. -/
def simplifyMemLoop (src : Option Bytes) : ℕ → UInt8 → UInt8 → ℕ → SimplifyState → SimplifyState
  | 0, _, _, _, s => s
  | fuel + 1, pre1, c, walk, s =>
    if c = 0 then s
    else
      -- the byte is read before the one at `out` is written
      let next := readWalk src s.dest walk
      simplifyMemLoop src fuel c next (walk + 1) (simplifyStep pre1 c next s)

/-- `buffer_path_simplify` of `src` into the same buffer, with `mem` behind the string, or into
another one, whose memory is `mem`. -/
def bufferPathSimplifyMem (inPlace : Bool) (mem src : Bytes) : Bytes :=
  if src = [] then []
  else
    let source := src ++ [0]
    let other := if inPlace then none else some source
    let dest := if inPlace then source ++ mem else mem
    let spaces := (source.takeWhile (· = SP)).length
    let c := source.getD spaces 0
    let s :=
      if c = slashChar then simplifyMemLoop other (src.length + 1) 0 c (spaces + 1) ⟨dest, 0, 0⟩
      else
        simplifyMemLoop other (src.length + 1) slashChar c (spaces + 1)
          ⟨writeAt dest 0 slashChar, 1, 0⟩
    s.dest.take s.out

/-! ## The same bytes are written -/

/-- The memory of a run agrees with what is written in `s`, and from `walk` on it holds `rest`. -/
structure SameWrites (src : Option Bytes) (walk : ℕ) (rest : Bytes) (s s' : SimplifyState) :
    Prop where
  out_eq : s'.out = s.out
  slash_eq : s'.slash = s.slash
  take_eq : s'.dest.take s.dest.length = s.dest
  slash_le : s.slash ≤ s.out
  out_le : s.out ≤ s.dest.length
  length_le : s.dest.length ≤ walk
  unread : (src.getD s'.dest).drop walk = rest

variable {d rest : Bytes} {walk : ℕ} {s s' : SimplifyState} {src : Option Bytes}

theorem take_writeAt_of_take {d' : Bytes} {out : ℕ} (h : d'.take d.length = d)
    (hout : out ≤ d.length) (c : UInt8) :
    (writeAt d' out c).take (writeAt d out c).length = writeAt d out c := by
  obtain ⟨e, rfl⟩ : ∃ e, d ++ e = d' := List.prefix_iff_eq_take.mpr h.symm
  rcases hout.eq_or_lt with rfl | hlt
  · have hd : writeAt d d.length c = d ++ [c] := by simp [writeAt]
    rw [hd, List.length_append, List.length_singleton, take_writeAt (by simp), List.take_left]
  · have hw : writeAt (d ++ e) out c = writeAt d out c ++ e := by
      simp [writeAt, List.take_append_of_le_length hout, List.drop_append_of_le_length hlt]
    rw [hw, List.take_left]

theorem drop_writeAt {out : ℕ} (hout : out ≤ d.length) (hwalk : out ≤ walk) (c : UInt8) :
    (writeAt d out c).drop (walk + 1) = d.drop (walk + 1) := by
  have hlen : (d.take out).length = out := by simpa using hout
  obtain ⟨n, rfl⟩ := Nat.exists_eq_add_of_le hwalk
  rw [writeAt, List.drop_append, hlen, List.drop_eq_nil_of_le (by omega), List.nil_append,
    show out + n + 1 - out = n + 1 by omega, List.drop_succ_cons, List.drop_drop]
  congr 1
  omega

theorem backUp_of_take {d' : Bytes} (h : d'.take d.length = d) :
    ∀ {n : ℕ}, n < d.length → backUp d' n = backUp d n
  | 0, _ => rfl
  | n + 1, hn => by
    have hget : d'[n + 1]? = d[n + 1]? := getElem?_of_take h hn
    rw [backUp, backUp, hget, backUp_of_take h (by omega)]

theorem backUp_le (d : Bytes) : ∀ n, backUp d n ≤ n
  | 0 => le_rfl
  | n + 1 => by
    rw [backUp]
    split_ifs
    · exact le_rfl
    · exact (backUp_le d n).trans n.le_succ

theorem simplifyStep_dest (pre2 c next : UInt8) (s : SimplifyState) :
    (simplifyStep pre2 c next s).dest = writeAt s.dest s.out c := by
  unfold simplifyStep
  dsimp only
  split_ifs <;> rfl

/-- A turn moves `out` by one at most, and `slash` not behind it. -/
theorem simplifyStep_out_le (pre2 c next : UInt8) (h : s.slash ≤ s.out) :
    (simplifyStep pre2 c next s).slash ≤ (simplifyStep pre2 c next s).out ∧
      (simplifyStep pre2 c next s).out ≤ s.out + 1 := by
  have hback := backUp_le (writeAt s.dest s.out c) (s.slash - 1)
  unfold simplifyStep
  dsimp only
  split_ifs <;> dsimp only <;> omega

/-- A turn finds the same positions in memory that agrees with what is written. -/
theorem simplifyStep_congr (pre2 c next : UInt8) (hout : s'.out = s.out)
    (hslash : s'.slash = s.slash) (htake : s'.dest.take s.dest.length = s.dest)
    (hle : s.slash ≤ s.out) (hlen : s.out ≤ s.dest.length) :
    (simplifyStep pre2 c next s').out = (simplifyStep pre2 c next s).out ∧
      (simplifyStep pre2 c next s').slash = (simplifyStep pre2 c next s).slash := by
  have hlen' := length_writeAt hlen c
  have hback := backUp_of_take (take_writeAt_of_take htake hlen c)
    (show s.slash - 1 < (writeAt s.dest s.out c).length by omega)
  unfold simplifyStep
  rw [hout, hslash]
  dsimp only
  rw [hback]
  constructor <;> split_ifs <;> rfl

theorem SameWrites.step {next : UInt8} (h : SameWrites src walk (next :: rest) s s')
    (pre2 c : UInt8) :
    SameWrites src (walk + 1) rest (simplifyStep pre2 c next s)
      (simplifyStep pre2 c next s') := by
  obtain ⟨hout, hslash⟩ :=
    simplifyStep_congr pre2 c next h.out_eq h.slash_eq h.take_eq h.slash_le h.out_le
  obtain ⟨hle, hout1⟩ := simplifyStep_out_le pre2 c next h.slash_le
  have hwrite := length_writeAt h.out_le c
  have hdest : s.out ≤ s'.dest.length := by
    have := congrArg List.length h.take_eq
    rw [List.length_take] at this
    have := h.out_le
    omega
  have hwalk := h.out_le.trans h.length_le
  refine ⟨hout, hslash, ?_, hle, ?_, ?_, ?_⟩
  · rw [simplifyStep_dest, simplifyStep_dest, h.out_eq]
    exact take_writeAt_of_take h.take_eq h.out_le c
  · rw [simplifyStep_dest]
    omega
  · have hlength := h.length_le
    rw [simplifyStep_dest]
    simp only [writeAt, List.length_append, List.length_take, List.length_cons, List.length_drop]
    omega
  · have hrest : (src.getD s'.dest).drop (walk + 1) = rest := by
      rw [← List.drop_drop, h.unread]
      rfl
    rw [simplifyStep_dest, h.out_eq]
    cases src with
    | none => exact (drop_writeAt hdest hwalk c).trans hrest
    | some m => exact hrest

theorem SameWrites.readWalk_eq {next : UInt8} (h : SameWrites src walk (next :: rest) s s') :
    readWalk src s'.dest walk = next := by
  have hget := congrArg List.head? h.unread
  rw [List.head?_drop, List.head?_cons] at hget
  rw [readWalk, List.getD_eq_getElem?_getD, hget]
  rfl

theorem SameWrites.take_out (h : SameWrites src walk rest s s') :
    s'.dest.take s'.out = s.dest.take s.out := by
  rw [h.out_eq, ← h.take_eq, List.take_take, Nat.min_eq_left h.out_le]

theorem simplifyMemLoop_eq {spare : Bytes} :
    ∀ {w : Bytes} {fuel walk : ℕ} {pre1 c : UInt8} {s s' : SimplifyState},
      SameWrites src walk (w ++ 0 :: spare) s s' → (0 : UInt8) ∉ w → w.length < fuel →
      (simplifyMemLoop src fuel pre1 c walk s').dest.take
          (simplifyMemLoop src fuel pre1 c walk s').out =
        (simplifyLoop pre1 c w s).dest.take (simplifyLoop pre1 c w s).out
  | w, 0, _, _, _, _, _, _, _, hf => absurd hf (Nat.not_lt_zero _)
  | [], fuel + 1, walk, pre1, c, s, s', h, _, _ => by
    rw [simplifyMemLoop, simplifyLoop]
    split_ifs with hc
    · exact h.take_out
    · have hstep := h.step pre1 c
      rw [h.readWalk_eq]
      have hend : simplifyMemLoop src fuel c 0 (walk + 1) (simplifyStep pre1 c 0 s') =
          simplifyStep pre1 c 0 s' := by
        cases fuel with
        | zero => rfl
        | succ fuel => rw [simplifyMemLoop, if_pos rfl]
      dsimp only
      rw [hend]
      exact hstep.take_out
  | next :: w, fuel + 1, walk, pre1, c, s, s', h, hw, hf => by
    rw [simplifyMemLoop, simplifyLoop]
    split_ifs with hc
    · exact h.take_out
    · rw [h.readWalk_eq]
      refine simplifyMemLoop_eq (h.step pre1 c) (fun h0 => hw (List.mem_cons_of_mem next h0)) ?_
      simpa using hf

/-! ## The whole function -/

theorem exists_cstr_append (src mem : Bytes) :
    ∃ spare, src ++ 0 :: mem = cstr src ++ 0 :: spare := by
  by_cases h : (0 : UInt8) ∈ src
  · obtain ⟨t, ht⟩ := cstr_isPrefix src
    cases t with
    | nil =>
      rw [List.append_nil] at ht
      exact absurd (by rwa [ht]) (notMem_cstr src)
    | cons c t =>
      have hc : c = 0 := by
        by_contra hne
        have hcs := congrArg cstr ht
        rw [cstr_append_of_notMem (notMem_cstr src)] at hcs
        simp [cstr, hne] at hcs
      exact ⟨t ++ 0 :: mem, by rw [← hc, ← List.cons_append, ← List.append_assoc, hc, ← hc, ht]⟩
  · exact ⟨mem, by rw [cstr_of_notMem h]⟩

/-- The leading spaces of a string are those of the memory that it ends in. -/
theorem takeWhile_spaces (src : Bytes) :
    (src ++ [0]).takeWhile (· = SP) = (cstr src).takeWhile (· = SP) := by
  obtain ⟨spare, hspare⟩ := exists_cstr_append src []
  rw [hspare]
  generalize cstr src = t
  induction t with
  | nil => rfl
  | cons c t ih =>
    rw [List.cons_append, List.takeWhile_cons, List.takeWhile_cons, ih]

theorem SameWrites.start {other : Option Bytes} {dest rest : Bytes} {n : ℕ}
    (h : (other.getD dest).drop (n + 1) = rest) :
    SameWrites other (n + 1) rest ⟨[], 0, 0⟩ ⟨dest, 0, 0⟩ :=
  ⟨rfl, rfl, rfl, le_rfl, le_rfl, Nat.zero_le _, h⟩

/-- The slash that is put before a path without one is written over a byte that was read. -/
theorem SameWrites.start_slash {other : Option Bytes} {dest : Bytes} {n : ℕ}
    (h : (other.getD dest).drop (n + 1) = rest) :
    SameWrites other (n + 1) rest ⟨[slashChar], 1, 0⟩ ⟨writeAt dest 0 slashChar, 1, 0⟩ := by
  refine ⟨rfl, rfl, rfl, Nat.zero_le _, le_rfl, Nat.succ_le_succ (Nat.zero_le _), ?_⟩
  cases other with
  | none => exact (drop_writeAt (Nat.zero_le _) (Nat.zero_le _) _).trans h
  | some m => exact h

theorem bufferPathSimplifyMem_eq (inPlace : Bool) (mem src : Bytes) :
    bufferPathSimplifyMem inPlace mem src = bufferPathSimplify src := by
  unfold bufferPathSimplifyMem bufferPathSimplify
  by_cases hsrc : src = []
  · rw [if_pos hsrc, if_pos hsrc]
  rw [if_neg hsrc, if_neg hsrc]
  dsimp only
  -- what the walk reads, in either buffer
  obtain ⟨x, hx⟩ : ∃ x, (if inPlace then none else some (src ++ [0])).getD
      (if inPlace then src ++ [0] ++ mem else mem) = src ++ 0 :: x := by
    cases inPlace with
    | true => exact ⟨mem, by simp⟩
    | false => exact ⟨[], by simp⟩
  obtain ⟨spare, hspare⟩ := exists_cstr_append src x
  generalize (if inPlace then none else some (src ++ [0])) = other at hx ⊢
  generalize (if inPlace then src ++ [0] ++ mem else mem) = dest at hx ⊢
  have hsplit := List.takeWhile_append_dropWhile (p := fun c => decide (c = SP)) (l := cstr src)
  have hnul : (0 : UInt8) ∉ (cstr src).dropWhile (· = SP) := fun h0 =>
    notMem_cstr src ((List.dropWhile_sublist _).subset h0)
  have hfuel : ((cstr src).dropWhile (· = SP)).length ≤ src.length :=
    (List.dropWhile_sublist _).length_le.trans (cstr_isPrefix src).length_le
  obtain ⟨spare', hspare'⟩ := exists_cstr_append src []
  rw [takeWhile_spaces, hspare']
  rw [hspare, ← hsplit, List.append_assoc] at hx
  rw [← hsplit, List.append_assoc]
  simp only [hsplit]
  generalize (cstr src).takeWhile (· = SP) = spaces at hx ⊢
  generalize (cstr src).dropWhile (· = SP) = t at hx hnul hfuel ⊢
  have hrest : (other.getD dest).drop (spaces.length + 1) = (t ++ 0 :: spare).tail := by
    rw [hx, ← List.drop_drop, List.drop_left, List.drop_one]
  have hc : (spaces ++ (t ++ 0 :: spare')).getD spaces.length 0 = t.headD 0 := by
    rw [List.getD_eq_getElem?_getD, List.getElem?_append_right le_rfl, Nat.sub_self]
    cases t <;> rfl
  rw [hc]
  cases t with
  | nil =>
    rw [List.headD_nil, if_neg (by decide), simplifyMemLoop, if_pos rfl]
    exact (SameWrites.start_slash hrest).take_out
  | cons c w =>
    have hw : (0 : UInt8) ∉ w := fun h => hnul (List.mem_cons_of_mem c h)
    have hlen : w.length < src.length + 1 := by
      rw [List.length_cons] at hfuel
      omega
    rw [List.headD_cons]
    by_cases hslash : c = slashChar
    · simp only [if_pos hslash]
      exact simplifyMemLoop_eq (SameWrites.start hrest) hw hlen
    · simp only [if_neg hslash]
      exact simplifyMemLoop_eq (SameWrites.start_slash hrest) hw hlen

theorem length_pathBody_le (src : Bytes) : (pathBody src).length ≤ src.length := by
  have hle := (List.dropWhile_sublist (l := cstr src) (fun c => decide (c = SP))).length_le
  have hcs := (cstr_isPrefix src).length_le
  unfold pathBody
  split
  · exact Nat.zero_le _
  · next c walk hw =>
    rw [hw, List.length_cons] at hle
    split_ifs
    · omega
    · rw [List.length_cons]
      omega

/-- A path that starts with a slash and has no NUL is read as it is. -/
theorem pathBody_cons {w : Bytes} (h : (0 : UInt8) ∉ w) : pathBody (slashChar :: w) = w := by
  have hnul : (0 : UInt8) ∉ slashChar :: w := List.not_mem_cons_of_ne_of_not_mem (by decide) h
  rw [pathBody, cstr_of_notMem hnul, List.dropWhile_cons_of_neg (by decide)]
  exact if_pos rfl

theorem bufferPathSimplify_idem (src : Bytes) :
    bufferPathSimplify (bufferPathSimplify src) = bufferPathSimplify src := by
  by_cases hsrc : src = []
  · simp [bufferPathSimplify, hsrc]
  obtain ⟨w, hw⟩ : ∃ w, bufferPathSimplify src = slashChar :: w :=
    List.head?_eq_some_iff.mp (head_bufferPathSimplify hsrc)
  have hnul : (0 : UInt8) ∉ slashChar :: w := hw ▸ notMem_bufferPathSimplify src
  have hnormal : IsNormal slashChar dotChar (slashChar :: w) := by
    rw [← hw, bufferPathSimplify_eq hsrc]
    exact isNormal_resolve _
  rw [hw, bufferPathSimplify_eq (by simp),
    pathBody_cons fun h => hnul (List.mem_cons_of_mem _ h), hnormal.resolve_eq]

/-- The result is the resolved path, which is normal, no more than one byte longer, and the same
when it is simplified again. -/
theorem bufferPathSimplifyMem_spec (inPlace : Bool) (mem src : Bytes) :
    bufferPathSimplifyMem inPlace mem src =
        (if src = [] then [] else resolve slashChar dotChar (pathBody src)) ∧
      (src ≠ [] → IsNormal slashChar dotChar (bufferPathSimplifyMem inPlace mem src)) ∧
      (bufferPathSimplifyMem inPlace mem src).length ≤ src.length + 1 ∧
      ∀ inPlace' mem', bufferPathSimplifyMem inPlace' mem' (bufferPathSimplifyMem inPlace mem src) =
        bufferPathSimplifyMem inPlace mem src := by
  simp only [bufferPathSimplifyMem_eq, bufferPathSimplify_idem, implies_true, and_true]
  by_cases hsrc : src = []
  · simp [bufferPathSimplify, hsrc]
  · rw [bufferPathSimplify_eq hsrc, if_neg hsrc]
    have hle := @length_resolve_le _ _ slashChar dotChar (pathBody src)
    have hbody := length_pathBody_le src
    exact ⟨rfl, fun _ => isNormal_resolve _, by omega⟩

/-- A path with a name that is taken back, simplified in place. -/
theorem bufferPathSimplifyMem_abc :
    IsNormal slashChar dotChar (bufferPathSimplifyMem true [] (str " abc/../xyz/.")) :=
  (bufferPathSimplifyMem_spec true [] (str " abc/../xyz/.")).2.1 (by decide)

end Lighttpd
