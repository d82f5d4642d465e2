import Mathlib.Data.List.Infix
import Mathlib.Data.List.TakeWhile
import Mathlib.Tactic.Linarith
import Mathlib.Tactic.IntervalCases

/-!
# Byte strings the way C reads them

A pointer into a buffer is the list of the bytes from it on. `cstr` is the part before
the first NUL, which is all that `strchr`, `strstr` and `strcasecmp` look at. `search`
is the first occurrence of a pattern; `search_eq_some_iff` says that it is one and that
no earlier one exists, and `search_append_left` that more bytes behind it do not move it.
-/

namespace CString

/-- The bytes from a pointer on. -/
abbrev Bytes := List UInt8

/-- The bytes of an ASCII literal. -/
def str (s : String) : Bytes := s.toList.map Char.toUInt8

abbrev CR : UInt8 := 13
abbrev LF : UInt8 := 10
abbrev SP : UInt8 := 32
abbrev HT : UInt8 := 9

variable {i : ℕ} {s a b pat : Bytes} {c : UInt8}

section Search

variable {α : Type*} [DecidableEq α]

/-- Index of the first occurrence of `pat`. -/
def search (pat : List α) : List α → Option ℕ
  | [] => if pat.isPrefixOf [] then some 0 else none
  | c :: s => if pat.isPrefixOf (c :: s) then some 0 else (search pat s).map (· + 1)

variable {pat : List α}

theorem search_eq_some_iff :
    ∀ {s : List α} {i : ℕ}, search pat s = some i ↔
      i ≤ s.length ∧ pat <+: s.drop i ∧ ∀ j < i, ¬ pat <+: s.drop j
  | [], i => by
    simp only [search, List.isPrefixOf_iff_prefix, List.drop_nil, List.length_nil]
    split_ifs with h
    · constructor
      · rintro ⟨⟩
        exact ⟨le_rfl, h, by simp⟩
      · rintro ⟨hi, -, -⟩
        simp [Nat.le_zero.mp hi]
    · simp [h]
  | c :: s, i => by
    simp only [search, List.isPrefixOf_iff_prefix]
    split_ifs with h
    · constructor
      · rintro ⟨⟩
        exact ⟨Nat.zero_le _, h, by simp⟩
      · rintro ⟨-, -, hmin⟩
        rcases i with _ | i
        · rfl
        · exact absurd h (by simpa using hmin 0 (Nat.succ_pos i))
    · rcases i with _ | i
      · simp [h]
      · simp only [Option.map_eq_some_iff, Nat.add_right_cancel_iff, exists_eq_right,
          search_eq_some_iff (s := s), List.length_cons, Nat.add_le_add_iff_right,
          List.drop_succ_cons]
        refine and_congr_right fun _ => and_congr_right fun _ => ⟨fun hm j hj => ?_, fun hm j hj => ?_⟩
        · rcases j with _ | j
          · simpa using h
          · simpa using hm j (by omega)
        · simpa using hm (j + 1) (by omega)

theorem search_eq_none_iff : ∀ {s : List α}, search pat s = none ↔ ∀ j, ¬ pat <+: s.drop j
  | [] => by simp [search]
  | c :: s => by
    simp only [search, List.isPrefixOf_iff_prefix]
    split_ifs with h
    · simp only [false_iff, not_forall, not_not]
      exact ⟨0, h⟩
    · simp only [Option.map_eq_none_iff, search_eq_none_iff (s := s)]
      constructor
      · rintro hs (_ | j)
        · simpa using h
        · simpa using hs j
      · intro hs j
        simpa using hs (j + 1)

/-- The pattern found at `i` ends inside the string. -/
theorem search_add_length_le {s : List α} (h : search pat s = some i) :
    i + pat.length ≤ s.length := by
  obtain ⟨hi, hp, -⟩ := search_eq_some_iff.mp h
  have := hp.length_le
  rw [List.length_drop] at this
  omega

omit [DecidableEq α] in
/-- Bytes up to the first `c` are determined. -/
theorem append_cons_inj {c : α} {s s' t t' : List α} (h : c ∉ s) (h' : c ∉ s')
    (heq : s ++ c :: t = s' ++ c :: t') : s = s' ∧ t = t' := by
  induction s generalizing s' with
  | nil =>
    rcases s' with _ | ⟨d, s'⟩
    · exact ⟨rfl, (List.cons.inj heq).2⟩
    · exact absurd (List.cons.inj heq).1.symm fun hd => h' (hd ▸ List.mem_cons_self)
  | cons d s ih =>
    rcases s' with _ | ⟨d', s'⟩
    · exact absurd (List.cons.inj heq).1 fun hd => h (hd ▸ List.mem_cons_self)
    · simp only [List.cons_append, List.cons.injEq] at heq
      obtain ⟨hs, ht⟩ := ih (fun hc => h (List.mem_cons_of_mem _ hc))
        (fun hc => h' (List.mem_cons_of_mem _ hc)) heq.2
      exact ⟨by rw [heq.1, hs], ht⟩

omit [DecidableEq α] in
/-- An occurrence that ends inside `s` is seen in `s`. -/
theorem prefix_drop_of_append {s t : List α} {j : ℕ} (hj : j + pat.length ≤ s.length)
    (h : pat <+: (s ++ t).drop j) : pat <+: s.drop j := by
  rw [List.drop_append_of_le_length (by omega)] at h
  exact List.prefix_of_prefix_length_le h (List.prefix_append _ _) (by simp; omega)

theorem search_append_left {s : List α} (h : search pat s = some i) (t : List α) :
    search pat (s ++ t) = some i := by
  obtain ⟨hi, hp, hmin⟩ := search_eq_some_iff.mp h
  have hlen := search_add_length_le h
  refine search_eq_some_iff.mpr ⟨by simp; omega, ?_, fun j hj hpre => hmin j hj ?_⟩
  · rw [List.drop_append_of_le_length hi]
    exact hp.trans (List.prefix_append _ _)
  · exact prefix_drop_of_append (by omega) hpre

end Search

/-! ## C strings -/

/-- The C string at a pointer: the bytes before the first NUL. -/
def cstr (s : Bytes) : Bytes := s.takeWhile (· ≠ 0)

theorem cstr_of_notMem (h : (0 : UInt8) ∉ s) : cstr s = s := by
  refine List.takeWhile_eq_self_iff.mpr fun x hx => ?_
  simp only [ne_eq, decide_eq_true_eq]
  rintro rfl
  exact h hx

theorem notMem_cstr (s : Bytes) : (0 : UInt8) ∉ cstr s := fun h => by
  simpa using List.mem_takeWhile_imp h

theorem cstr_isPrefix (s : Bytes) : cstr s <+: s := List.takeWhile_prefix _

theorem cstr_append_of_notMem (h : (0 : UInt8) ∉ s) (t : Bytes) : cstr (s ++ t) = s ++ cstr t :=
  List.takeWhile_append_of_pos fun x hx => by
    simp only [ne_eq, decide_eq_true_eq]
    rintro rfl
    exact h hx

theorem cstr_append_of_mem (h : (0 : UInt8) ∈ s) (t : Bytes) : cstr (s ++ t) = cstr s := by
  induction s with
  | nil => simp at h
  | cons c s ih =>
    by_cases hc : c = 0
    · simp [cstr, hc]
    · have hs : (0 : UInt8) ∈ s := by simpa [Ne.symm hc] using h
      simpa [cstr, hc] using ih hs

/-- What C reads at a pointer is what it reads first when more bytes follow. -/
theorem cstr_isPrefix_append (s t : Bytes) : cstr s <+: cstr (s ++ t) := by
  by_cases h : (0 : UInt8) ∈ s
  · rw [cstr_append_of_mem h]
  · rw [cstr_append_of_notMem h, cstr_of_notMem h]
    exact List.prefix_append _ _

/-- `strstr`: offset of the first occurrence of `pat` in the C string. -/
def strstr (s pat : Bytes) : Option ℕ := search pat (cstr s)

/-- `strchr` for a character other than NUL. -/
def strchr (s : Bytes) (c : UInt8) : Option ℕ := strstr s [c]

/-- `memchr` on a whole buffer. -/
def memchr (s : Bytes) (c : UInt8) : Option ℕ := search [c] s

theorem strstr_append_left (h : strstr s pat = some i) (t : Bytes) :
    strstr (s ++ t) pat = some i := by
  obtain ⟨u, hu⟩ := cstr_isPrefix_append s t
  rw [strstr, ← hu]
  exact search_append_left h u

theorem strstr_add_length_le (h : strstr s pat = some i) : i + pat.length ≤ s.length :=
  (search_add_length_le h).trans (cstr_isPrefix s).length_le

theorem strchr_lt_length (h : strchr s c = some i) : i < s.length := by
  have := strstr_add_length_le h
  simp only [List.length_singleton] at this
  omega

theorem strstr_eq_search (h : (0 : UInt8) ∉ s) : strstr s pat = search pat s := by
  rw [strstr, cstr_of_notMem h]

/-- The byte `strchr` stops at, and the bytes before it. -/
theorem strchr_eq_some (h : strchr s c = some i) :
    ∃ u v, s = u ++ c :: v ∧ u.length = i ∧ c ∉ u ∧ (0 : UInt8) ∉ u := by
  obtain ⟨hi, ⟨v, hv⟩, hmin⟩ := search_eq_some_iff.mp h
  obtain ⟨w, hw⟩ := cstr_isPrefix s
  refine ⟨(cstr s).take i, v ++ w, ?_, by simpa using hi, fun hc => ?_, fun h0 => ?_⟩
  · conv_lhs => rw [← hw, ← List.take_append_drop i (cstr s), ← hv]
    simp
  · obtain ⟨j, hj, hjc⟩ := List.getElem_of_mem hc
    simp only [List.length_take] at hj
    refine hmin j (by omega) ?_
    rw [List.drop_eq_getElem_cons (by omega)]
    simp only [List.getElem_take] at hjc
    simp [hjc]
  · exact notMem_cstr s (List.mem_of_mem_take h0)

theorem strchr_of_notMem (h : c ∉ s) : strchr s c = none := by
  cases hs : strchr s c with
  | none => rfl
  | some i =>
    obtain ⟨u, v, rfl, -⟩ := strchr_eq_some hs
    exact absurd (by simp) h

/-- A byte behind bytes that are neither it nor NUL is the one `strchr` finds. -/
theorem strchr_append_cons {u : Bytes} (hc : c ∉ u) (h0 : (0 : UInt8) ∉ u) (hc0 : c ≠ 0) (v : Bytes) :
    strchr (u ++ c :: v) c = some u.length := by
  have hs : cstr (u ++ c :: v) = u ++ c :: cstr v := by
    rw [cstr_append_of_notMem h0]
    simp [cstr, hc0]
  rw [strchr, strstr, hs]
  refine search_eq_some_iff.mpr ⟨by simp, by simp, fun j hj ⟨t, ht⟩ => hc ?_⟩
  rw [List.drop_append_of_le_length hj.le, List.drop_eq_getElem_cons hj] at ht
  simp only [List.cons_append, List.nil_append, List.cons.injEq] at ht
  rw [ht.1]
  exact List.getElem_mem hj

theorem exists_strchr (hc : c ∈ s) (h0 : (0 : UInt8) ∉ s) : ∃ i, strchr s c = some i := by
  obtain ⟨u, v, rfl, hu⟩ := List.eq_append_cons_of_mem hc
  refine ⟨u.length, strchr_append_cons hu (fun h => h0 (by simp [h])) ?_ v⟩
  rintro rfl
  exact h0 hc

theorem strchr_eq_none_iff : strchr s c = none ↔ c ∉ cstr s := by
  constructor
  · intro h hc
    obtain ⟨i, hi⟩ := exists_strchr hc (notMem_cstr s)
    rw [strchr, strstr, cstr_of_notMem (notMem_cstr s)] at hi
    rw [strchr, strstr, hi] at h
    cases h
  · intro h
    rw [← strchr_of_notMem h, strchr, strchr, strstr, strstr, cstr_of_notMem (notMem_cstr s)]

theorem memchr_of_notMem (h : c ∉ s) : memchr s c = none :=
  search_eq_none_iff.mpr fun _ hpre =>
    h (List.mem_of_mem_drop (hpre.subset List.mem_cons_self))

/-- `memchr` finds a byte behind others. -/
theorem memchr_append_cons {u : Bytes} (hc : c ∉ u) (v : Bytes) :
    memchr (u ++ c :: v) c = some u.length := by
  refine search_eq_some_iff.mpr ⟨by simp, ⟨v, by simp⟩, fun j hj hpre => hc ?_⟩
  rw [List.drop_append_of_le_length hj.le, List.drop_eq_getElem_cons hj] at hpre
  rw [(List.cons_prefix_cons.mp hpre).1]
  exact List.getElem_mem hj

/-- The byte `memchr` stops at, and the bytes before it. -/
theorem memchr_eq_some (h : memchr s c = some i) :
    ∃ u v, s = u ++ c :: v ∧ u.length = i ∧ c ∉ u := by
  by_cases hc : c ∈ s
  · obtain ⟨u, v, rfl, hu⟩ := List.eq_append_cons_of_mem hc
    rw [memchr_append_cons hu] at h
    exact ⟨u, v, rfl, Option.some.inj h, hu⟩
  · rw [memchr_of_notMem hc] at h
    cases h

/-- The last index of a character in a C string. -/
def strrchr (s : Bytes) (c : UInt8) : Option ℕ :=
  if c ∈ cstr s then some (((cstr s).reverse.dropWhile (· ≠ c)).length - 1) else none

theorem strrchr_lt (h : strrchr s c = some i) : i < s.length := by
  unfold strrchr at h
  split_ifs at h with hc
  have hle := (List.dropWhile_sublist (l := (cstr s).reverse) (· ≠ c)).length_le
  have hpos : 0 < ((cstr s).reverse.dropWhile (· ≠ c)).length := by
    rw [List.length_pos_iff, ne_eq, List.dropWhile_eq_nil_iff]
    intro h
    simpa using h c (List.mem_reverse.mpr hc)
  have hcs := (cstr_isPrefix s).length_le
  have hi := Option.some.inj h
  rw [List.length_reverse] at hle
  omega

/-- The last `c` of the string and what is behind it. -/
theorem strrchr_eq_some (h : strrchr s c = some i) : ∃ v, cstr s = s.take i ++ c :: v ∧ c ∉ v := by
  unfold strrchr at h
  split_ifs at h with hc
  obtain ⟨v, u, hrev, hv⟩ := List.eq_append_cons_of_mem (List.mem_reverse.mpr hc)
  have hcs : cstr s = u.reverse ++ c :: v.reverse := by
    rw [← List.reverse_reverse (cstr s), hrev]
    simp
  have hdrop : (cstr s).reverse.dropWhile (· ≠ c) = c :: u := by
    rw [hrev, List.dropWhile_append_of_pos fun a ha => by
      simpa using (ne_of_mem_of_not_mem ha hv)]
    simp
  have hi : i = u.length := by
    rw [← Option.some.inj h, hdrop, List.length_cons, Nat.add_sub_cancel]
  have htake : s.take i = u.reverse := by
    obtain ⟨t, ht⟩ := cstr_isPrefix s
    rw [← ht, hcs, hi, ← List.length_reverse, List.append_assoc, List.take_left]
  exact ⟨v.reverse, by rw [htake, hcs], by simpa using hv⟩

theorem strrchr_eq_none_iff : strrchr s c = none ↔ c ∉ cstr s := by
  unfold strrchr
  split_ifs with hc <;> simp [hc]

/-! ## Letter case -/

/-- Lower case of an ASCII letter; any other byte is unchanged. -/
def toLower (c : UInt8) : UInt8 := if 65 ≤ c ∧ c ≤ 90 then c ||| 32 else c

/-- Two byte strings that differ in the case of ASCII letters only. -/
def CaseEq (a b : Bytes) : Prop := a.map toLower = b.map toLower

instance : DecidableRel CaseEq := fun _ _ => inferInstanceAs (Decidable (_ = _))

theorem CaseEq.refl (a : Bytes) : CaseEq a a := rfl

theorem CaseEq.symm (h : CaseEq a b) : CaseEq b a := Eq.symm h

theorem CaseEq.trans {a b c : Bytes} (h : CaseEq a b) (h' : CaseEq b c) : CaseEq a c :=
  Eq.trans h h'

theorem CaseEq.length_eq (h : CaseEq a b) : a.length = b.length := by
  simpa using congrArg List.length h

theorem toLower_toLower (c : UInt8) : toLower (toLower c) = toLower c := by
  have hall : ∀ n < 256, toLower (toLower (UInt8.ofNat n)) = toLower (UInt8.ofNat n) := by
    decide +kernel
  have := hall c.toNat c.toNat_lt
  rwa [UInt8.ofNat_toNat] at this

theorem toLower_eq_zero_iff (c : UInt8) : toLower c = 0 ↔ c = 0 := by
  unfold toLower
  split_ifs with h
  · have h65 : (65 : UInt8).toNat ≤ c.toNat := h.1
    have h90 : c.toNat ≤ (90 : UInt8).toNat := h.2
    have hc : UInt8.ofNat c.toNat = c := by simp
    simp only [UInt8.reduceToNat] at h65 h90
    rw [← hc]
    generalize c.toNat = n at h65 h90
    interval_cases n <;> decide
  · rfl

/-- The strings that C reads of two such byte strings are such ones. -/
theorem CaseEq.cstr (h : CaseEq a b) : CaseEq (cstr a) (cstr b) := by
  have hmap : ∀ s : Bytes, (CString.cstr s).map toLower = (s.map toLower).takeWhile (· ≠ 0) := by
    intro s
    rw [List.takeWhile_map, CString.cstr]
    congr 2
    funext c
    simp [toLower_eq_zero_iff]
  rw [CaseEq, hmap, hmap, h]

/-- `strcasecmp` and `strncasecmp` return zero. -/
def strcaseeq (a b : Bytes) : Bool := decide (CaseEq (cstr a) (cstr b))

/-- `strncasecmp(s, pat, strlen(pat))` returns zero. -/
def strncaseeq (s pat : Bytes) : Bool := decide (CaseEq ((cstr s).take pat.length) pat)

theorem strcaseeq_congr (h : CaseEq a b) (s : Bytes) : strcaseeq a s = strcaseeq b s :=
  decide_eq_decide.mpr ⟨h.cstr.symm.trans, h.cstr.trans⟩

theorem strncaseeq_congr (h : CaseEq a b) (pat : Bytes) : strncaseeq a pat = strncaseeq b pat := by
  have htake : CaseEq ((cstr a).take pat.length) ((cstr b).take pat.length) := by
    rw [CaseEq, List.map_take, List.map_take, h.cstr]
  exact decide_eq_decide.mpr ⟨htake.symm.trans, htake.trans⟩

end CString
