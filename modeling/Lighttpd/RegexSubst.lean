import Lighttpd.ConfigCond

/-!
# Replacing back-references

`pcre_keyvalue_buffer_subst` scans the template of a rewrite or redirect rule. `$k` stands for a
substring that the rule's own expression captured and `%k` for one that the condition around the
rule captured, which is read from the cache of the condition. `expandTemplate` says what the result
is to be; the scanner gives it and reads captured text only, as long as the reads through the cache
are good (`pcreKeyvalueBufferSubst_expand`).
-/

namespace Lighttpd

open CString

/-- `$` -/
abbrev DOLLAR : UInt8 := 36

/-- `%` -/
abbrev PERCENT : UInt8 := 37

/-- The template with `$k` replaced by `own k` and `%k` by `cond k`. Read from the left, a `$` or a
`%` that is doubled stands for one, and is kept with what follows it otherwise. -/
def expandTemplate (own cond : ℕ → Bytes) : Bytes → Bytes
  | c :: d :: s =>
    if c = DOLLAR ∨ c = PERCENT then
      (if isDigit d then (if c = DOLLAR then own else cond) (d.toNat - 48)
        else if c = d then [c] else [c, d]) ++ expandTemplate own cond s
    else c :: expandTemplate own cond (d :: s)
  | s => s

/-- The numbers behind the `%` of a template that stand for captured text. -/
def condRefs : Bytes → List ℕ
  | c :: d :: s =>
    if c = DOLLAR ∨ c = PERCENT then
      (if isDigit d ∧ c = PERCENT then [d.toNat - 48] else []) ++ condRefs s
    else condRefs (d :: s)
  | _ => []

/-! ## The scanner -/

/-- What is read of captured text: `list[k]`, or subject and match slots of the condition. -/
inductive SubstRead
  | list (k : ℕ)
  | cond (k : ℕ)
  deriving DecidableEq, Repr

/-- The arguments of `pcre_keyvalue_buffer_subst`, with the buffers that `comp_value` may point to.
-/
structure SubstCall where
  pattern : Bytes
  list : List Bytes
  n : ℤ
  cache : Option CondCache
  bufs : CondBuf → Bytes

/-- The variables of the loop, the output and what was read. -/
structure SubstState where
  out : Bytes
  reads : List SubstRead
  start : ℕ
  k : ℕ
  deriving DecidableEq, Repr

/-- An `int` as a `size_t`. -/
def sizeOfInt (n : ℤ) : ℕ := (n % 2 ^ 64).toNat

theorem sizeOfInt_natCast {n : ℕ} (h : n < 2 ^ 64) : sizeOfInt n = n := by
  unfold sizeOfInt
  omega

/-- The bytes between two offsets of a buffer; `none` when they are not within it. -/
def bytesBetween (s : Bytes) (i j : ℤ) : Option Bytes :=
  if i = j then some []
  else if 0 ≤ i ∧ i < j ∧ j ≤ s.length then some ((s.drop i.toNat).take (j - i).toNat)
  else none

/-- The text that is read for `%num`; `none` when there is no subject or no such slot. -/
def condCapture (cache : CondCache) (bufs : CondBuf → Bytes) (num : ℕ) : Option Bytes := do
  let ref ← cache.compValue
  let i ← cache.matchOffsets[2 * num]?
  let j ← cache.matchOffsets[2 * num + 1]?
  bytesBetween (bufs ref) i j

/-- A turn of the loop; `none` when it reads what is not there. -/
def substStep (c : SubstCall) (st : SubstState) : Option SubstState :=
  let cur := c.pattern.getD st.k 0
  if cur = DOLLAR ∨ cur = PERCENT then
    let next := c.pattern.getD (st.k + 1) 0
    let num := next.toNat - 48
    let out := st.out ++ (c.pattern.drop st.start).take (st.k - st.start)
    let put := fun (piece : Bytes) (reads : List SubstRead) =>
      (⟨out ++ piece, st.reads ++ reads, st.k + 2, st.k + 2⟩ : SubstState)
    if ¬ isDigit next then
      some (put ((c.pattern.drop st.k).take (if cur = next then 1 else 2)) [])
    else if cur = DOLLAR then
      if num < sizeOfInt c.n then (c.list[num]?).map fun x => put (cstr x) [.list num]
      else some (put [] [])
    else
      match c.cache with
      | none => some (put [] [])
      | some cache =>
        if num < sizeOfInt cache.patterncount then
          (condCapture cache c.bufs num).map fun x => put x [.cond num]
        else some (put [] [])
  else some { st with k := st.k + 1 }

/-- The loop, in `fuel` turns at most. -/
def substLoop (c : SubstCall) : ℕ → SubstState → Option SubstState
  | 0, st => some st
  | fuel + 1, st =>
    if st.k + 1 < c.pattern.length then (substStep c st).bind (substLoop c fuel) else some st

/-- `pcre_keyvalue_buffer_subst` -/
def pcreKeyvalueBufferSubst (c : SubstCall) : Option SubstState :=
  (substLoop c c.pattern.length ⟨[], [], 0, 0⟩).map fun st =>
    { st with out := st.out ++ c.pattern.drop st.start }

/-! ## The scanner and the template -/

/-- The reads are those that there is captured text for. -/
def GoodReads (c : SubstCall) (reads : List SubstRead) : Prop :=
  ∀ r ∈ reads, match r with
    | .list k => (k : ℤ) < c.n
    | .cond k => ∃ cache, c.cache = some cache ∧ (k : ℤ) < cache.patterncount

/-- What the rule's own expression captured. -/
def SubstCall.own (c : SubstCall) (k : ℕ) : Bytes := (c.list[k]?).getD []

/-- What the condition captured. -/
def SubstCall.cond (c : SubstCall) (k : ℕ) : Bytes :=
  match c.cache with
  | none => []
  | some cache => if (k : ℤ) < cache.patterncount then (condCapture cache c.bufs k).getD [] else []

/-- `list` is what `pcre_get_substring_list` makes of `n` substrings, none of which has a NUL. -/
structure SubstCall.Listed (c : SubstCall) : Prop where
  n_eq : c.n = c.list.length
  n_lt : c.list.length < 2 ^ 64
  noNul : ∀ x ∈ c.list, 0 ∉ x

/-- A `%k` is looked up in the cache if there is captured text for it, and finds it. -/
def CondRefGood (c : SubstCall) (num : ℕ) : Prop :=
  ∀ cache, c.cache = some cache →
    (num < sizeOfInt cache.patterncount ↔ (num : ℤ) < cache.patterncount) ∧
      ((num : ℤ) < cache.patterncount → (condCapture cache c.bufs num).isSome)

/-- The output so far is that of a template up to `k`. -/
structure Scanned (c : SubstCall) (st : SubstState) (rest : Bytes) : Prop where
  start_le : st.start ≤ st.k
  drop_eq : c.pattern.drop st.k = rest
  out_eq : st.out ++ (c.pattern.drop st.start).take (st.k - st.start) ++
    expandTemplate c.own c.cond rest = expandTemplate c.own c.cond c.pattern
  reads : GoodReads c st.reads

theorem Scanned.init (c : SubstCall) : Scanned c ⟨[], [], 0, 0⟩ c.pattern :=
  ⟨le_rfl, rfl, rfl, fun _ hr => absurd hr List.not_mem_nil⟩

variable {rest : Bytes} {c : SubstCall} {st : SubstState} {x y : UInt8} {cache : CondCache}

theorem drop_step {s : Bytes} {k : ℕ} {c d : UInt8} (h : s.drop k = c :: d :: rest) :
    s.getD k 0 = c ∧ s.getD (k + 1) 0 = d ∧ s.drop (k + 1) = d :: rest ∧ s.drop (k + 2) = rest := by
  have h1 : s.drop (k + 1) = d :: rest := by
    rw [← List.drop_drop, h]
    rfl
  have h2 : s.drop (k + 2) = rest := by
    rw [← List.drop_drop, h]
    rfl
  refine ⟨?_, ?_, h1, h2⟩
  · rw [List.getD_eq_getElem?_getD, ← List.head?_drop, h]
    rfl
  · rw [List.getD_eq_getElem?_getD, ← List.head?_drop, h1]
    rfl

theorem Scanned.put {piece : Bytes} {reads : List SubstRead} (h : Scanned c st (x :: y :: rest))
    (hpiece : expandTemplate c.own c.cond (x :: y :: rest) =
      piece ++ expandTemplate c.own c.cond rest) (hreads : GoodReads c reads) :
    Scanned c ⟨st.out ++ (c.pattern.drop st.start).take (st.k - st.start) ++ piece,
      st.reads ++ reads, st.k + 2, st.k + 2⟩ rest where
  start_le := le_rfl
  drop_eq := (drop_step h.drop_eq).2.2.2
  out_eq := by
    rw [← h.out_eq, hpiece]
    simp
  reads r hr := (List.mem_append.mp hr).elim (h.reads r) (hreads r)

theorem Scanned.skip (h : Scanned c st (x :: y :: rest)) (href : ¬ (x = DOLLAR ∨ x = PERCENT)) :
    Scanned c { st with k := st.k + 1 } (y :: rest) where
  start_le := h.start_le.trans (Nat.le_succ _)
  drop_eq := (drop_step h.drop_eq).2.2.1
  out_eq := by
    have hget : (c.pattern.drop st.start)[st.k - st.start]? = some x := by
      rw [← List.head?_drop, List.drop_drop, Nat.add_sub_cancel' h.start_le, h.drop_eq]
      rfl
    rw [← h.out_eq, expandTemplate, if_neg href]
    dsimp only
    rw [Nat.sub_add_comm h.start_le, List.take_add_one, hget]
    simp
  reads := h.reads

theorem substStep_scanned (hc : c.Listed) (h : Scanned c st (x :: y :: rest))
    (hcond : ∀ num ∈ condRefs (x :: y :: rest), CondRefGood c num) :
    ∃ st' rest', substStep c st = some st' ∧ Scanned c st' rest' ∧
      rest'.length < (x :: y :: rest).length ∧ ∀ num ∈ condRefs rest', CondRefGood c num := by
  obtain ⟨hx, hy, -, -⟩ := drop_step h.drop_eq
  have hlt : rest.length < (x :: y :: rest).length := by
    simp only [List.length_cons]
    omega
  unfold substStep
  rw [hx, hy]
  unfold condRefs at hcond
  dsimp only
  by_cases href : x = DOLLAR ∨ x = PERCENT
  · rw [if_pos href]
    rw [if_pos href] at hcond
    have hrest : ∀ num ∈ condRefs rest, CondRefGood c num := fun num hnum =>
      hcond num (List.mem_append_right _ hnum)
    have hexpand : ∀ {piece}, (if isDigit y then (if x = DOLLAR then c.own else c.cond)
          (y.toNat - 48) else if x = y then [x] else [x, y]) = piece →
        expandTemplate c.own c.cond (x :: y :: rest) =
          piece ++ expandTemplate c.own c.cond rest := fun hp => by
      rw [expandTemplate, if_pos href, hp]
    by_cases hd : isDigit y
    · rw [if_neg (not_not.mpr hd)]
      rw [if_pos hd] at hexpand
      generalize y.toNat - 48 = num at hexpand hcond ⊢
      by_cases hdollar : x = DOLLAR
      · rw [if_pos hdollar] at hexpand ⊢
        rw [hc.n_eq, sizeOfInt_natCast hc.n_lt]
        by_cases hnum : num < c.list.length
        · have hget : c.list[num]? = some c.list[num] := List.getElem?_eq_getElem hnum
          rw [if_pos hnum, hget, Option.map_some,
            cstr_of_notMem (hc.noNul _ (List.getElem_mem hnum))]
          refine ⟨_, rest, rfl, h.put (hexpand ?_) ?_, hlt, hrest⟩
          · rw [SubstCall.own, hget]
            rfl
          · intro r hr
            rw [List.mem_singleton.mp hr]
            show (num : ℤ) < c.n
            rw [hc.n_eq]
            exact_mod_cast hnum
        · rw [if_neg hnum]
          refine ⟨_, rest, rfl, h.put (hexpand ?_) (by simp [GoodReads]), hlt, hrest⟩
          rw [SubstCall.own, List.getElem?_eq_none (not_lt.mp hnum)]
          rfl
      · have hgood : CondRefGood c num := by
          have hpercent := href.resolve_left hdollar
          exact hcond num (by simp [hd, hpercent])
        rw [if_neg hdollar] at hexpand ⊢
        cases hcache : c.cache with
        | none =>
          refine ⟨_, rest, rfl, h.put (hexpand ?_) (by simp [GoodReads]), hlt, hrest⟩
          rw [SubstCall.cond, hcache]
        | some cache =>
          dsimp only
          obtain ⟨hiff, hsome⟩ := hgood cache hcache
          by_cases hlow : (num : ℤ) < cache.patterncount
          · obtain ⟨text, htext⟩ := Option.isSome_iff_exists.mp (hsome hlow)
            rw [if_pos (hiff.mpr hlow), htext, Option.map_some]
            refine ⟨_, rest, rfl, h.put (hexpand ?_) ?_, hlt, hrest⟩
            · rw [SubstCall.cond, hcache]
              dsimp only
              rw [if_pos hlow, htext]
              rfl
            · intro r hr
              rw [List.mem_singleton.mp hr]
              exact ⟨cache, hcache, hlow⟩
          · rw [if_neg (mt hiff.mp hlow)]
            refine ⟨_, rest, rfl, h.put (hexpand ?_) (by simp [GoodReads]), hlt, hrest⟩
            rw [SubstCall.cond, hcache]
            exact if_neg hlow
    · rw [if_pos hd]
      refine ⟨_, rest, rfl, h.put (hexpand ?_) (by simp [GoodReads]), hlt, hrest⟩
      rw [if_neg hd, h.drop_eq]
      split_ifs <;> rfl
  · rw [if_neg href]
    rw [if_neg href] at hcond
    exact ⟨_, y :: rest, rfl, h.skip href, by simp, hcond⟩

theorem substLoop_scanned (hc : c.Listed) {fuel : ℕ} (h : Scanned c st rest)
    (hfuel : rest.length ≤ fuel) (hcond : ∀ num ∈ condRefs rest, CondRefGood c num) :
    ∃ st' rest', substLoop c fuel st = some st' ∧ Scanned c st' rest' ∧ rest'.length ≤ 1 := by
  induction fuel generalizing st rest with
  | zero => exact ⟨st, rest, rfl, h, by omega⟩
  | succ fuel ih =>
    rw [substLoop]
    have hlen : rest.length = c.pattern.length - st.k := by
      rw [← h.drop_eq, List.length_drop]
    by_cases hk : st.k + 1 < c.pattern.length
    · rw [if_pos hk]
      match rest with
      | [] => simp at hlen; omega
      | [_] => simp at hlen; omega
      | x :: y :: rest =>
        obtain ⟨st', rest', hstep, h', hlt, hcond'⟩ := substStep_scanned hc h hcond
        rw [hstep, Option.bind_some]
        exact ih h' (by omega) hcond'
    · rw [if_neg hk]
      exact ⟨st, rest, rfl, h, by omega⟩

/-- As long as what `%k` reads is captured text, the scanner reads captured text only and expands
the template. -/
theorem pcreKeyvalueBufferSubst_expand (hc : c.Listed)
    (hcond : ∀ num ∈ condRefs c.pattern, CondRefGood c num) :
    ∃ st, pcreKeyvalueBufferSubst c = some st ∧ GoodReads c st.reads ∧
      st.out = expandTemplate c.own c.cond c.pattern := by
  obtain ⟨st, rest, hloop, h, hlen⟩ := substLoop_scanned hc (.init c) le_rfl hcond
  refine ⟨{ st with out := st.out ++ c.pattern.drop st.start }, ?_, h.reads, ?_⟩
  · rw [pcreKeyvalueBufferSubst, hloop]
    rfl
  rw [← h.out_eq]
  have hlast : expandTemplate c.own c.cond rest = rest := by
    match rest with
    | [] => rfl
    | [_] => rfl
  rw [hlast, ← h.drop_eq, List.append_assoc]
  conv_lhs => rw [← List.take_append_drop (st.k - st.start) (c.pattern.drop st.start)]
  rw [List.drop_drop, Nat.add_sub_cancel' h.start_le]

theorem exists_drop {s : Bytes} {k : ℕ} (h : k + 1 < s.length) :
    ∃ c d rest, s.drop k = c :: d :: rest := by
  have hlen : (s.drop k).length = s.length - k := List.length_drop
  match hs : s.drop k with
  | [] => rw [hs, List.length_nil] at hlen; omega
  | [_] => rw [hs, List.length_singleton] at hlen; omega
  | c :: d :: rest => exact ⟨c, d, rest, rfl⟩

/-- What was read stays in the list, and a `%k` is looked up in a cache whose count is taken for a
large one. -/
theorem substStep_reads (hcache : c.cache = some cache)
    (hcount : ∀ num < 10, num < sizeOfInt cache.patterncount) {st' : SubstState}
    (hk : st.k + 1 < c.pattern.length) (h : substStep c st = some st') :
    st.k < st'.k ∧ (∀ r ∈ st.reads, r ∈ st'.reads) ∧
      ∀ num ∈ condRefs (c.pattern.drop st.k), .cond num ∈ st'.reads ∨
        num ∈ condRefs (c.pattern.drop st'.k) := by
  obtain ⟨x, y, rest, hrest⟩ := exists_drop hk
  obtain ⟨hx, hy, hdrop₁, hdrop₂⟩ := drop_step hrest
  unfold substStep at h
  rw [hx, hy] at h
  rw [hrest, condRefs]
  dsimp only at h
  by_cases href : x = DOLLAR ∨ x = PERCENT
  · rw [if_pos href] at h
    rw [if_pos href]
    -- `reads` are the reads for the two bytes
    have hput : ∀ {piece reads}, st' = ⟨st.out ++ (c.pattern.drop st.start).take (st.k - st.start) ++
          piece, st.reads ++ reads, st.k + 2, st.k + 2⟩ →
        (isDigit y ∧ x = PERCENT → .cond (y.toNat - 48) ∈ reads) →
        st.k < st'.k ∧ (∀ r ∈ st.reads, r ∈ st'.reads) ∧
          ∀ num ∈ (if isDigit y ∧ x = PERCENT then [y.toNat - 48] else []) ++ condRefs rest,
            .cond num ∈ st'.reads ∨ num ∈ condRefs (c.pattern.drop st'.k) := by
      rintro piece reads rfl hreads
      refine ⟨by simp, fun r hr => List.mem_append_left _ hr, fun num hnum => ?_⟩
      rcases List.mem_append.mp hnum with hnum | hnum
      · split_ifs at hnum with hd
        · rw [List.mem_singleton.mp hnum]
          exact .inl (List.mem_append_right _ (hreads hd))
        · simp at hnum
      · refine .inr ?_
        rw [hdrop₂]
        exact hnum
    by_cases hd : isDigit y
    · rw [if_neg (not_not.mpr hd)] at h
      by_cases hdollar : x = DOLLAR
      · have hnot : ¬ (isDigit y ∧ x = PERCENT) := by simp [hdollar, DOLLAR, PERCENT]
        rw [if_pos hdollar] at h
        split_ifs at h
        · obtain ⟨text, -, rfl⟩ := Option.map_eq_some_iff.mp h
          exact hput rfl (fun h => absurd h hnot)
        · exact hput (Option.some.inj h).symm (fun h => absurd h hnot)
      · have hten : y.toNat - 48 < 10 := by
          have := hd
          simp only [isDigit, Bool.and_eq_true, decide_eq_true_eq, UInt8.le_iff_toNat_le] at this
          have h57 : (57 : UInt8).toNat = 57 := rfl
          omega
        rw [if_neg hdollar, hcache] at h
        dsimp only at h
        rw [if_pos (hcount _ hten)] at h
        obtain ⟨text, -, rfl⟩ := Option.map_eq_some_iff.mp h
        exact hput rfl fun _ => List.mem_singleton_self _
    · rw [if_pos hd] at h
      exact hput (Option.some.inj h).symm (fun h => absurd h.1 hd)
  · rw [if_neg href] at h
    rw [if_neg href]
    obtain rfl := Option.some.inj h
    refine ⟨Nat.lt_succ_self _, fun r hr => hr, fun num hnum => .inr ?_⟩
    dsimp only
    rw [hdrop₁]
    exact hnum

theorem substLoop_reads (hcache : c.cache = some cache)
    (hcount : ∀ num < 10, num < sizeOfInt cache.patterncount) {fuel : ℕ} {st' : SubstState}
    (hfuel : c.pattern.length - st.k ≤ fuel) (h : substLoop c fuel st = some st') :
    (∀ r ∈ st.reads, r ∈ st'.reads) ∧
      ∀ num ∈ condRefs (c.pattern.drop st.k), .cond num ∈ st'.reads := by
  have hend : ∀ st : SubstState, ¬ st.k + 1 < c.pattern.length →
      condRefs (c.pattern.drop st.k) = [] := fun st hk => by
    have hlen : (c.pattern.drop st.k).length = c.pattern.length - st.k := List.length_drop
    match hs : c.pattern.drop st.k with
    | [] => rfl
    | [_] => rfl
    | _ :: _ :: _ =>
      rw [hs] at hlen
      simp only [List.length_cons] at hlen
      omega
  induction fuel generalizing st with
  | zero =>
    obtain rfl := Option.some.inj h
    exact ⟨fun _ hr => hr, by simp [hend st (by omega)]⟩
  | succ fuel ih =>
    rw [substLoop] at h
    by_cases hk : st.k + 1 < c.pattern.length
    · rw [if_pos hk] at h
      obtain ⟨st₁, hstep, hloop⟩ := Option.bind_eq_some_iff.mp h
      obtain ⟨hlt, hkeep, hreads⟩ := substStep_reads hcache hcount hk hstep
      obtain ⟨hkeep', hreads'⟩ := ih (by omega) hloop
      exact ⟨fun r hr => hkeep' r (hkeep r hr),
        fun num hnum => (hreads num hnum).elim (hkeep' _) (hreads' num)⟩
    · rw [if_neg hk] at h
      obtain rfl := Option.some.inj h
      exact ⟨fun _ hr => hr, by simp [hend st hk]⟩

/-- With a negative count in the cache, the scanner looks up what was not captured for a `%k`, or
finds nothing to read. -/
theorem pcreKeyvalueBufferSubst_badRead (hcache : c.cache = some cache)
    (hneg : cache.patterncount < 0) (hint : -2 ^ 31 ≤ cache.patterncount) {num : ℕ}
    (hnum : num ∈ condRefs c.pattern) (h : pcreKeyvalueBufferSubst c = some st) :
    ¬ GoodReads c st.reads := by
  have hcount : ∀ num < 10, num < sizeOfInt cache.patterncount := fun num h => by
    unfold sizeOfInt
    omega
  obtain ⟨st₁, hloop, rfl⟩ := Option.map_eq_some_iff.mp h
  have hread := (substLoop_reads hcache hcount (by simp) hloop).2 num hnum
  intro hgood
  obtain ⟨cache', hcache', hlt⟩ := hgood _ hread
  rw [hcache, Option.some.injEq] at hcache'
  subst hcache'
  omega

end Lighttpd
