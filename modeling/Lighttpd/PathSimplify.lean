import Lighttpd.Buffer
import Lighttpd.Lib.PathSegments

/-!
# Simplifying a path in place

`buffer_path_simplify` walks over the path with a write position `out` and the position
`slash` behind the last finished segment, and it takes finished segments back by moving
`out`. A byte behind `out` stays in memory: `out++` after a dot segment shows the slash
again that was written there. `bufferPathSimplify_eq` says that the bytes before `out` are
in the end the path with its dot segments resolved.
-/

namespace Lighttpd

open CString PathSegments

/-- `'/'`. -/
abbrev slashChar : UInt8 := 47

/-- `'.'`. -/
abbrev dotChar : UInt8 := 46

/-- The memory of `dest` written so far and the positions `out` and `slash` in it. -/
structure SimplifyState where
  dest : Bytes
  out : ℕ
  slash : ℕ
  deriving DecidableEq, Repr

/-- `*out = c`. -/
def writeAt (dest : Bytes) (out : ℕ) (c : UInt8) : Bytes := dest.take out ++ c :: dest.drop (out + 1)

/-- `while (out > start && *out != '/') out--`. -/
def backUp (dest : Bytes) : ℕ → ℕ
  | 0 => 0
  | out + 1 => if dest[out + 1]? = some slashChar then out + 1 else backUp dest out

/-- One turn of the loop: `c` is written, `pre2` was written before it and `next` is the
byte behind it. -/
def simplifyStep (pre2 c next : UInt8) (s : SimplifyState) : SimplifyState :=
  let dest := writeAt s.dest s.out c
  let out := s.out + 1
  if next = slashChar ∨ next = 0 then
    let toklen := out - s.slash
    let out :=
      if toklen = 3 ∧ pre2 = dotChar ∧ c = dotChar then
        let out := if s.slash > 0 then backUp dest (s.slash - 1) else s.slash
        if next = 0 then out + 1 else out
      else if toklen = 1 ∨ (pre2 = slashChar ∧ c = dotChar) then
        if next = 0 then s.slash + 1 else s.slash
      else out
    ⟨dest, out, out⟩
  else ⟨dest, out, s.slash⟩

/-- The loop: `c` is the byte read last, `pre1` the one before, and `walk` what follows. -/
def simplifyLoop (pre1 c : UInt8) : Bytes → SimplifyState → SimplifyState
  | [], s => if c = 0 then s else simplifyStep pre1 c 0 s
  | next :: walk, s =>
    if c = 0 then s else simplifyLoop c next walk (simplifyStep pre1 c next s)

/-- `buffer_path_simplify`. -/
def bufferPathSimplify (src : Bytes) : Bytes :=
  if src = [] then []
  else
    let s : SimplifyState :=
      match (cstr src).dropWhile (· = SP) with
      | [] => ⟨[slashChar], 1, 0⟩
      | c :: walk =>
        if c = slashChar then simplifyLoop 0 c walk ⟨[], 0, 0⟩
        else simplifyLoop slashChar c walk ⟨[slashChar], 1, 0⟩
    s.dest.take s.out

/-- Segments `st` are finished and the part `tok` of the next one is written. -/
structure Written (s : SimplifyState) (st : List Bytes) (tok : Bytes) : Prop where
  take_out : s.dest.take s.out = join slashChar st ++ tok
  slash_eq : s.slash = (join slashChar st).length
  out_eq : s.out = s.slash + tok.length
  out_le : s.out ≤ s.dest.length

variable {dest : Bytes} {n : ℕ}

theorem take_writeAt {out : ℕ} (h : out ≤ dest.length) (c : UInt8) :
    (writeAt dest out c).take (out + 1) = dest.take out ++ [c] := by
  have hlen : (dest.take out).length = out := by simpa using h
  rw [writeAt, List.take_append, hlen, Nat.add_sub_cancel_left, List.take_succ_cons, List.take_zero,
    List.take_of_length_le (by omega)]

theorem length_writeAt {out : ℕ} (h : out ≤ dest.length) (c : UInt8) :
    out + 1 ≤ (writeAt dest out c).length := by
  simp [writeAt]
  omega

theorem backUp_eq {m : ℕ} (hm : dest[m]? = some slashChar) :
    ∀ {k : ℕ}, (∀ j, m < j → j ≤ m + k → dest[j]? ≠ some slashChar) → backUp dest (m + k) = m
  | 0, _ => by
    cases m with
    | zero => rfl
    | succ m => simp [backUp, hm]
  | k + 1, h => by
    rw [← Nat.add_assoc, backUp, if_neg (h _ (by omega) (by omega))]
    exact backUp_eq hm fun j hj hjk => h j hj (by omega)

theorem getElem?_of_take {u : Bytes} {i : ℕ} (h : dest.take n = u) (hi : i < u.length) :
    dest[i]? = u[i]? := by
  rw [← h, List.getElem?_take_of_lt]
  rw [← h, List.length_take] at hi
  omega

/-- Moving back from the end of the finished segments drops the last one. -/
theorem backUp_join {tok : Bytes} {st : List Bytes} (hst : ∀ s ∈ st, slashChar ∉ s)
    (h : dest.take n = join slashChar st ++ tok) :
    (if (join slashChar st).length > 0 then backUp dest ((join slashChar st).length - 1)
      else (join slashChar st).length) = (join slashChar st.dropLast).length := by
  rcases List.eq_nil_or_concat' st with rfl | ⟨st, seg, rfl⟩
  · simp
  · rw [join_append] at h ⊢
    simp only [join_cons, join_nil, List.append_nil, List.length_append, List.length_cons,
      List.dropLast_concat] at h ⊢
    rw [if_pos (by omega)]
    have hseg : slashChar ∉ seg := hst seg (by simp)
    have hget : ∀ j, (join slashChar st).length ≤ j →
        j ≤ (join slashChar st).length + seg.length →
        dest[j]? = (slashChar :: seg)[j - (join slashChar st).length]? := by
      intro j hj hj'
      rw [getElem?_of_take h (by simp; omega), List.append_assoc, List.getElem?_append_right hj,
        List.getElem?_append_left (by simp; omega)]
    have hm := hget (join slashChar st).length le_rfl (by omega)
    rw [Nat.sub_self, List.getElem?_cons_zero] at hm
    refine backUp_eq (k := seg.length) hm fun j hj hj' hc => hseg ?_
    rw [hget j hj.le hj'] at hc
    obtain ⟨i, rfl⟩ := Nat.exists_eq_add_of_lt hj
    rw [show (join slashChar st).length + i + 1 - (join slashChar st).length = i + 1 by omega,
      List.getElem?_cons_succ] at hc
    exact List.mem_of_getElem? hc

section

variable {s : SimplifyState} {st : List Bytes} {tok seg : Bytes} {pre2 c : UInt8}

theorem Written.writeAt (h : Written s st tok) (c : UInt8) :
    Written ⟨writeAt s.dest s.out c, s.out + 1, s.slash⟩ st (tok ++ [c]) where
  take_out := by
    rw [take_writeAt h.out_le, h.take_out, List.append_assoc]
  slash_eq := h.slash_eq
  out_eq := by
    rw [List.length_append, List.length_singleton, h.out_eq, Nat.add_assoc]
  out_le := length_writeAt h.out_le c

theorem Written.step (h : Written s st tok) {next : UInt8} (hslash : next ≠ slashChar)
    (hnul : next ≠ 0) : Written (simplifyStep pre2 c next s) st (tok ++ [c]) := by
  rw [simplifyStep, if_neg (by simp [hslash, hnul])]
  exact h.writeAt c

theorem toklen_dots_iff (htok : tok ++ [c] = slashChar :: seg) (hseg : slashChar ∉ seg)
    (hpre : ∀ x, tok.getLast? = some x → pre2 = x) :
    ((tok ++ [c]).length = 3 ∧ pre2 = dotChar ∧ c = dotChar ↔ seg = [dotChar, dotChar]) ∧
      ((tok ++ [c]).length = 1 ∨ (pre2 = slashChar ∧ c = dotChar) ↔
        seg = [] ∨ seg = [dotChar]) := by
  cases tok with
  | nil =>
    simp only [List.nil_append, List.cons.injEq] at htok
    obtain ⟨-, rfl⟩ := htok
    simp
  | cons x u =>
    simp only [List.cons_append, List.cons.injEq] at htok
    obtain ⟨rfl, rfl⟩ := htok
    rcases List.eq_nil_or_concat' u with rfl | ⟨v, y, rfl⟩
    · obtain rfl := hpre slashChar rfl
      simp
    · have hpy : pre2 = y := hpre y (List.getLast?_concat (l := slashChar :: v))
      have hy : y ≠ slashChar := fun h => hseg (by simp [h])
      subst hpy
      refine ⟨?_, iff_of_false (by simp [hy]) fun h => ?_⟩
      · cases v with
        | nil => simp
        | cons z v => exact iff_of_false (by simp) fun h => by simpa using congrArg List.length h
      · rcases h with h | h <;> simpa using congrArg List.length h

theorem take_length_of_take {u v : Bytes} (h : dest.take n = u ++ v) : dest.take u.length = u := by
  have hle : u.length ≤ n := by
    have := congrArg List.length h
    simp at this
    omega
  rw [← Nat.min_eq_left hle, ← List.take_take, h, List.take_left]

/-- Behind the segments that a dot segment leaves, the slash is still in memory. -/
theorem exists_slash (st : List Bytes) (hseg : IsDots dotChar seg) :
    ∃ rest, join slashChar st ++ slashChar :: seg =
      join slashChar (resolveStep dotChar st seg) ++ slashChar :: rest := by
  rw [resolveStep]
  split_ifs with h2 h01
  · rcases List.eq_nil_or_concat' st with rfl | ⟨st, s', rfl⟩
    · exact ⟨seg, rfl⟩
    · exact ⟨s' ++ slashChar :: seg, by simp⟩
  · exact ⟨seg, rfl⟩
  · unfold IsDots at hseg
    tauto

/-- A finished segment takes `out` to the end of what is left of the path. -/
theorem simplifyStep_out (h : Written s st tok) (hst : ∀ s ∈ st, slashChar ∉ s)
    (htok : tok ++ [c] = slashChar :: seg) (hseg : slashChar ∉ seg)
    (hpre : ∀ x, tok.getLast? = some x → pre2 = x) {next : UInt8}
    (hnext : next = slashChar ∨ next = 0) :
    (simplifyStep pre2 c next s).dest = Lighttpd.writeAt s.dest s.out c ∧
      (simplifyStep pre2 c next s).slash = (simplifyStep pre2 c next s).out ∧
      (simplifyStep pre2 c next s).out =
        (join slashChar (resolveStep dotChar st seg)).length +
          if IsDots dotChar seg ∧ next = 0 then 1 else 0 := by
  have hw := h.writeAt c
  have hlen : s.out + 1 - s.slash = (tok ++ [c]).length := by
    have := hw.out_eq
    simp only at this
    omega
  obtain ⟨h2, h01⟩ := toklen_dots_iff htok hseg hpre
  have hback := backUp_join hst hw.take_out
  rw [← h.slash_eq] at hback
  rw [simplifyStep, if_pos hnext]
  refine ⟨rfl, rfl, ?_⟩
  simp only [hlen, h2, h01]
  by_cases hd : seg = [dotChar, dotChar]
  · have hdots : IsDots dotChar seg := .inr (.inr hd)
    rw [if_pos hd, hback, resolveStep, if_pos hd]
    simp only [hdots, true_and]
    split_ifs <;> rfl
  · rw [if_neg hd, resolveStep, if_neg hd]
    by_cases hz : seg = [] ∨ seg = [dotChar]
    · have hdots : IsDots dotChar seg := hz.imp id .inl
      rw [if_pos hz, if_pos hz, h.slash_eq]
      simp only [hdots, true_and]
      split_ifs <;> rfl
    · have hdots : ¬ IsDots dotChar seg := fun h => h.elim (fun h => hz (.inl h))
        fun h => h.elim (fun h => hz (.inr h)) hd
      have hout := hw.out_eq
      rw [htok, h.slash_eq] at hout
      rw [if_neg hz, if_neg hz, if_neg fun h => hdots h.1]
      simpa using hout

theorem Written.step_slash (h : Written s st tok) (hst : ∀ s ∈ st, slashChar ∉ s)
    (htok : tok ++ [c] = slashChar :: seg) (hseg : slashChar ∉ seg)
    (hpre : ∀ x, tok.getLast? = some x → pre2 = x) :
    Written (simplifyStep pre2 c slashChar s) (resolveStep dotChar st seg) [] := by
  obtain ⟨hdest, hslash, hout⟩ := simplifyStep_out h hst htok hseg hpre (.inl rfl)
  have hw := (h.writeAt c).take_out
  have hle := length_writeAt h.out_le c
  rw [htok] at hw
  rw [if_neg fun h => absurd h.2 (by decide), Nat.add_zero] at hout
  have htake : (Lighttpd.writeAt s.dest s.out c).take
      (join slashChar (resolveStep dotChar st seg)).length =
        join slashChar (resolveStep dotChar st seg) := by
    by_cases hdots : IsDots dotChar seg
    · obtain ⟨rest, hrest⟩ := exists_slash st hdots
      rw [hrest] at hw
      exact take_length_of_take hw
    · rw [resolveStep_of_not_isDots hdots]
      refine take_length_of_take (v := []) (n := s.out + 1) ?_
      simpa using hw
  refine ⟨?_, by rw [hslash, hout], by simp [hslash], ?_⟩
  · rw [hdest, hout, htake, List.append_nil]
  · rw [hdest, hout]
    have := congrArg List.length htake
    rw [List.length_take] at this
    omega

theorem Written.step_nul (h : Written s st tok) (hst : ∀ s ∈ st, slashChar ∉ s)
    (htok : tok ++ [c] = slashChar :: seg) (hseg : slashChar ∉ seg)
    (hpre : ∀ x, tok.getLast? = some x → pre2 = x) :
    (simplifyStep pre2 c 0 s).dest.take (simplifyStep pre2 c 0 s).out =
      join slashChar (resolveStep dotChar st seg) ++ trailing slashChar dotChar seg := by
  obtain ⟨hdest, -, hout⟩ := simplifyStep_out h hst htok hseg hpre (.inr rfl)
  have hw := (h.writeAt c).take_out
  rw [htok] at hw
  rw [hdest, hout, trailing]
  by_cases hdots : IsDots dotChar seg
  · obtain ⟨rest, hrest⟩ := exists_slash st hdots
    rw [if_pos ⟨hdots, rfl⟩, if_pos hdots]
    have hw' : (Lighttpd.writeAt s.dest s.out c).take (s.out + 1) =
        (join slashChar (resolveStep dotChar st seg) ++ [slashChar]) ++ rest := by
      rw [hw, hrest, List.append_assoc, List.singleton_append]
    simpa using take_length_of_take hw'
  · rw [if_neg fun h => hdots h.1, if_neg hdots, resolveStep_of_not_isDots hdots]
    have hw' : (Lighttpd.writeAt s.dest s.out c).take (s.out + 1) =
        join slashChar (st ++ [seg]) ++ [] := by
      simpa using hw
    simpa using take_length_of_take hw'

end

/-- From any point on, the walk resolves what is left of the path. -/
theorem simplifyLoop_eq :
    ∀ (walk : Bytes) {s : SimplifyState} {st : List Bytes} {tok seg : Bytes} {pre1 c : UInt8},
      Written s st tok → (∀ s ∈ st, slashChar ∉ s) → tok ++ [c] = slashChar :: seg →
      slashChar ∉ seg → (∀ x, tok.getLast? = some x → pre1 = x) → c ≠ 0 → (0 : UInt8) ∉ walk →
      (simplifyLoop pre1 c walk s).dest.take (simplifyLoop pre1 c walk s).out =
        resolveFrom slashChar dotChar st (seg ++ walk)
  | [], s, st, tok, seg, pre1, c, h, hst, htok, hseg, hpre, hc, _ => by
    rw [simplifyLoop, if_neg hc, h.step_nul hst htok hseg hpre, List.append_nil,
      resolveFrom_of_notMem hseg]
  | next :: walk, s, st, tok, seg, pre1, c, h, hst, htok, hseg, hpre, hc, hnul => by
    have hnext : next ≠ 0 := fun h => hnul (by simp [h])
    have hwalk : (0 : UInt8) ∉ walk := fun h => hnul (List.mem_cons_of_mem next h)
    rw [simplifyLoop, if_neg hc]
    by_cases hslash : next = slashChar
    · subst hslash
      rw [resolveFrom_cons hseg]
      have hst' := @resolveStep_forall _ _ dotChar _ st seg hst fun _ => hseg
      exact simplifyLoop_eq walk (h.step_slash hst htok hseg hpre) hst' rfl (by simp) (by simp)
        hnext hwalk
    · rw [List.append_cons]
      refine simplifyLoop_eq walk (h.step hslash hnext) hst (by rw [htok]; rfl) ?_ ?_ hnext hwalk
      · simp [hseg, Ne.symm hslash]
      · intro x hx
        simpa using hx

/-- The path without the leading spaces and its first slash. -/
def pathBody (src : Bytes) : Bytes :=
  match (cstr src).dropWhile (· = SP) with
  | [] => []
  | c :: walk => if c = slashChar then walk else c :: walk

/-- `buffer_path_simplify` gives the path with its dot segments resolved. -/
theorem bufferPathSimplify_eq {src : Bytes} (h : src ≠ []) :
    bufferPathSimplify src = resolve slashChar dotChar (pathBody src) := by
  have hnul : (0 : UInt8) ∉ (cstr src).dropWhile (· = SP) := fun h0 =>
    notMem_cstr src ((List.dropWhile_sublist _).subset h0)
  rw [bufferPathSimplify, if_neg h, pathBody]
  cases hw : (cstr src).dropWhile (· = SP) with
  | nil => rfl
  | cons c walk =>
    rw [hw] at hnul
    have hc : c ≠ 0 := fun h => hnul (by simp [h])
    have hwalk : (0 : UInt8) ∉ walk := fun h => hnul (List.mem_cons_of_mem c h)
    by_cases hslash : c = slashChar
    · simp only [hslash, if_true]
      exact @simplifyLoop_eq walk _ [] [] [] _ _ ⟨rfl, rfl, rfl, le_rfl⟩ (by simp)
        rfl (by simp) (by simp) (by decide) hwalk
    · simp only [hslash, if_false]
      refine @simplifyLoop_eq walk _ [] [slashChar] [c] _ _
        ⟨rfl, rfl, rfl, le_rfl⟩ (by simp) rfl (by simp [Ne.symm hslash]) ?_ hc hwalk
      intro x hx
      simpa using hx

theorem head_bufferPathSimplify {src : Bytes} (h : src ≠ []) :
    (bufferPathSimplify src).head? = some slashChar := by
  rw [bufferPathSimplify_eq h]
  exact head_resolve _

/-- A simplified path has no `..` segment. -/
theorem dots_notMem_bufferPathSimplify (src : Bytes) :
    str ".." ∉ (bufferPathSimplify src).splitOn slashChar := by
  by_cases h : src = []
  · simp [bufferPathSimplify, h, List.splitOn_nil, str]
  · rw [bufferPathSimplify_eq h]
    exact dots_notMem_splitOn_resolve _

theorem notMem_bufferPathSimplify (src : Bytes) : (0 : UInt8) ∉ bufferPathSimplify src := by
  by_cases h : src = []
  · simp [bufferPathSimplify, h]
  · rw [bufferPathSimplify_eq h]
    intro h0
    rcases mem_resolve h0 with h0 | h0
    · cases h0
    · have hnul : (0 : UInt8) ∉ (cstr src).dropWhile (· = SP) := fun h0 =>
        notMem_cstr src ((List.dropWhile_sublist _).subset h0)
      unfold pathBody at h0
      split at h0
      · cases h0
      · next c walk hw =>
        rw [hw] at hnul
        split_ifs at h0
        · exact hnul (List.mem_cons_of_mem c h0)
        · exact hnul h0

example : bufferPathSimplify (str "  /abc/./x//../../../foo/..") = str "/" := by decide

end Lighttpd
