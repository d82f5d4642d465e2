import Mathlib.Algebra.Group.Nat.Even
import Lighttpd.Lib.Strtol

/-!
# The end of a directive of server-side includes

Two scanners read a directive. `mod_ssi_parse_ssi_stmt_offlen` takes it apart and goes over an
escape in a quoted value by two bytes; `mod_ssi_stmt_len` looks for its end and keeps a flag that
every backslash between quotation marks turns over and nothing else resets. So the flag says whether
the number of backslashes is odd and not whether the byte is escaped. `stmtLen_eq_iff` says for which
values the second one finds the end that the first one goes by.
-/

namespace Lighttpd

open CString

/-! ## Taking a directive apart -/

/-- `"` or `'`. -/
def IsMark (b : UInt8) : Prop := b = 34 ∨ b = 39

instance : DecidablePred IsMark := fun _ => inferInstanceAs (Decidable (_ ∨ _))

/-- The loop over a value in quotation marks `c`, from index `n` on. -/
def ssiQuotedLen (c : UInt8) : Bytes → ℕ → ℕ
  | [], _ => 0
  | [b], n => if b = c then n + 1 else 0
  | b :: b' :: s, n =>
    if b = c then n + 1
    else if b = 92 then ssiQuotedLen c s (n + 2)
    else ssiQuotedLen c (b' :: s) (n + 1)

/-- The loop over a value without quotation marks. -/
def ssiUnquotedLen : Bytes → ℕ → ℕ
  | [], n => n
  | [b], n => if isSpace b then n else if b = 92 then 0 else n + 1
  | b :: b' :: s, n =>
    if isSpace b then n
    else if b = 92 then ssiUnquotedLen s (n + 2)
    else ssiUnquotedLen (b' :: s) (n + 1)

/-- `mod_ssi_parse_ssi_stmt_value`; 0 if the value is empty or invalid. -/
def modSsiParseSsiStmtValue (s : Bytes) : ℕ :=
  match s with
  | 34 :: t => ssiQuotedLen 34 t 1
  | 39 :: t => ssiQuotedLen 39 t 1
  | _ => ssiUnquotedLen s 0

/-- The lengths of the attribute and of the value of a parameter that starts here. -/
def ssiStmtParam (p : Bytes) : Option (ℕ × ℕ) :=
  let attr := (p.takeWhile isAlpha).length
  if attr = 0 ∨ (p.drop attr).head? ≠ some 61 then none
  else
    let p := p.drop (attr + 1)
    let value := modSsiParseSsiStmtValue (p.take (p.length - 3))
    if value = 0 then none else some (attr, value)

/-- `mod_ssi_parse_ssi_stmt_offlen` behind the element or a value: `p` is the text from `n` on, and
at most `k` parameters follow. -/
def ssiStmtParams (k : ℕ) (p : Bytes) (n : ℕ) : Option (List (ℕ × ℕ)) :=
  if p.length = 3 then some []
  else if (p.takeWhile isSpace).length = 0 then none
  else
    let n := n + (p.takeWhile isSpace).length
    let p := p.dropWhile isSpace
    if p.length = 3 then some []
    else
      match k with
      | 0 => none
      | k + 1 =>
        (ssiStmtParam p).bind fun x =>
          (ssiStmtParams k (p.drop (x.1 + 1 + x.2)) (n + x.1 + 1 + x.2)).map
            ([(n, x.1), (n + x.1 + 1, x.2)] ++ ·)

/-- `mod_ssi_parse_ssi_stmt_offlen`: offset and length of the element, and of the attribute and the
value of each parameter. The text begins `<!--#` and ends `-->`. -/
def modSsiParseSsiStmtOfflen (s : Bytes) : Option (List (ℕ × ℕ)) :=
  let p := s.drop 5
  let element := (p.takeWhile isAlpha).length
  if element = 0 then none
  else (ssiStmtParams 2 (p.drop element) (5 + element)).map ((5, element) :: ·)

/-- The flags of `mod_ssi_stmt_len`: inside `'`, inside `"`, and the one for backslashes. -/
structure StmtFlags where
  sq : Bool
  dq : Bool
  bs : Bool
  deriving DecidableEq, Repr

/-- The switch on a byte, but for the end. -/
def StmtFlags.step (f : StmtFlags) (b : UInt8) : StmtFlags :=
  if b = 34 then if !f.sq && (!f.dq || !f.bs) then { f with dq := !f.dq } else f
  else if b = 39 then if !f.dq && (!f.sq || !f.bs) then { f with sq := !f.sq } else f
  else if b = 92 then if f.sq || f.dq then { f with bs := !f.bs } else f
  else f

/-- The loop of `mod_ssi_stmt_len` from index `n` on. -/
def stmtLenFrom (f : StmtFlags) : Bytes → ℕ → ℕ
  | [], _ => 0
  | b :: s, n =>
    if b = 45 ∧ f.sq = false ∧ f.dq = false ∧ s.take 2 = [45, 62] then n + 3
    else stmtLenFrom (f.step b) s (n + 1)

/-- `mod_ssi_stmt_len`; 0 if the directive is incomplete. -/
def modSsiStmtLen (s : Bytes) : ℕ := stmtLenFrom ⟨false, false, false⟩ (s.drop 5) 5

/-- What may stand between two marks `q`: an even number of backslashes, and before every `q` an odd
one. -/
def Enclosed (q : UInt8) (v : Bytes) : Prop :=
  Even (v.count 92) ∧ ∀ u w, v = u ++ q :: w → Odd (u.count 92)

/-- The marks of a text pair up, with everything between two of one pair enclosed, and there is no
`-->` outside. -/
inductive MarksPair : Bytes → Prop
  | nil : MarksPair []
  | plain {b : UInt8} {s : Bytes} : ¬ IsMark b → ¬ [45, 45, 62] <+: b :: s → MarksPair s →
      MarksPair (b :: s)
  | quoted {q : UInt8} {v s : Bytes} : IsMark q → Enclosed q v → MarksPair s →
      MarksPair (q :: (v ++ q :: s))

/-- The values among offsets and lengths that alternate between attributes and values. -/
def paramValues (s : Bytes) : List (ℕ × ℕ) → List Bytes
  | _ :: (off, len) :: o => (s.drop off).take len :: paramValues s o
  | _ => []

/-- The values of the parameters of a directive. -/
def stmtValues (s : Bytes) (o : List (ℕ × ℕ)) : List Bytes := paramValues s o.tail

/-- A value in quotation marks. -/
def IsQuoted (v : Bytes) : Prop := v.head? = some 34 ∨ v.head? = some 39

instance : DecidablePred IsQuoted := fun _ => inferInstanceAs (Decidable (_ ∨ _))

/-- `<!--#`, a text and `-->`. -/
def directive (body : Bytes) : Bytes := [60, 33, 45, 45, 35] ++ (body ++ [45, 45, 62])

/-! ## The flags behind a text -/

/-- The flags behind a text, unless `mod_ssi_stmt_len` finds an end in it. -/
def scanFlags : StmtFlags → Bytes → Option StmtFlags
  | f, [] => some f
  | f, b :: s =>
    if f.sq = false ∧ f.dq = false ∧ [45, 45, 62] <+: b :: s then none else scanFlags (f.step b) s

variable {b q : UInt8} {u v t r : Bytes} {n : ℕ} {p : UInt8 → Bool} {o : List (ℕ × ℕ)}

theorem StmtFlags.step_of_neutral (hm : ¬ IsMark b) (h92 : b ≠ 92) (f : StmtFlags) :
    f.step b = f := by
  have h34 : b ≠ 34 := fun h => hm (.inl h)
  have h39 : b ≠ 39 := fun h => hm (.inr h)
  simp [StmtFlags.step, h34, h39, h92]

theorem isEnd_iff (b : UInt8) (s : Bytes) :
    [45, 45, 62] <+: b :: s ↔ b = 45 ∧ s.take 2 = [45, 62] := by
  rw [List.cons_prefix_cons, List.prefix_iff_eq_take]
  simp only [List.length_cons, List.length_nil, eq_comm]

/-- Neither a mark nor a backslash nor the start of an end. -/
def IsNeutral (b : UInt8) : Prop := ¬ IsMark b ∧ b ≠ 92 ∧ b ≠ 45

theorem scanFlags_neutral_append (hu : ∀ b ∈ u, IsNeutral b) (f : StmtFlags) (s : Bytes) :
    scanFlags f (u ++ s) = scanFlags f s := by
  induction u with
  | nil => rfl
  | cons b u ih =>
    obtain ⟨hm, h92, h45⟩ := hu b (by simp)
    rw [List.cons_append, scanFlags, if_neg, StmtFlags.step_of_neutral hm h92,
      ih fun c hc => hu c (by simp [hc])]
    rw [isEnd_iff]
    exact fun h => h45 h.2.2.1

theorem isEnd_append_mark (hq : IsMark q) (b : UInt8) (w s : Bytes) :
    [45, 45, 62] <+: b :: (w ++ q :: s) ↔ [45, 45, 62] <+: b :: (w ++ [q]) := by
  have h45 : q ≠ 45 := by rintro rfl; exact absurd hq (by decide)
  have h62 : q ≠ 62 := by rintro rfl; exact absurd hq (by decide)
  rw [isEnd_iff, isEnd_iff]
  refine and_congr_right fun _ => ?_
  rcases w with _ | ⟨c, _ | ⟨d, w⟩⟩
  · rcases s with _ | ⟨d, s⟩ <;> simp [h45]
  · simp [h62]
  · simp

theorem scanFlags_append_mark (hq : IsMark q) (w s : Bytes) (f : StmtFlags) :
    scanFlags f (w ++ q :: s) = (scanFlags f (w ++ [q])).bind (scanFlags · s) := by
  induction w generalizing f with
  | nil =>
    have h45 : q ≠ 45 := by rintro rfl; exact absurd hq (by decide)
    simp [scanFlags, Ne.symm h45]
  | cons b w ih =>
    simp only [List.cons_append, scanFlags, isEnd_append_mark hq b w s, ih]
    split_ifs <;> rfl

theorem stmtLenFrom_of_scanFlags {f g : StmtFlags} (h : scanFlags f u = some g) (s : Bytes) (n : ℕ) :
    stmtLenFrom f (u ++ 45 :: 45 :: s) n = stmtLenFrom g (45 :: 45 :: s) (n + u.length) := by
  induction u generalizing f n with
  | nil =>
    obtain rfl : f = g := by simpa [scanFlags] using h
    rfl
  | cons b u ih =>
    simp only [scanFlags] at h
    split_ifs at h with hend
    have hcond : ¬ (b = 45 ∧ f.sq = false ∧ f.dq = false ∧
        (u ++ 45 :: 45 :: s).take 2 = [45, 62]) := by
      rintro ⟨hb, hs, hd, ht⟩
      refine hend ⟨hs, hd, (isEnd_iff _ _).mpr ⟨hb, ?_⟩⟩
      rcases u with _ | ⟨c, _ | ⟨d, u⟩⟩ <;> simp_all
    rw [List.cons_append, stmtLenFrom, if_neg hcond, ih h, List.length_cons]
    congr 1
    omega

theorem stmtLenFrom_lt_of_scanFlags {f : StmtFlags} (h : scanFlags f u = none) (s : Bytes) (n : ℕ) :
    stmtLenFrom f (u ++ 45 :: 45 :: s) n < n + u.length + 3 := by
  induction u generalizing f n with
  | nil => simp [scanFlags] at h
  | cons b u ih =>
    rw [List.cons_append, stmtLenFrom, List.length_cons]
    split_ifs with hcond
    · omega
    · simp only [scanFlags] at h
      split_ifs at h with hend
      · obtain ⟨hs, hd, he⟩ := hend
        obtain ⟨hb, ht⟩ := (isEnd_iff _ _).mp he
        refine absurd ⟨hb, hs, hd, ?_⟩ hcond
        rcases u with _ | ⟨c, _ | ⟨d, u⟩⟩ <;> simp_all
      · have := ih h (n + 1)
        omega

/-! ## Flags and marks -/

/-- No flag is up. -/
def StmtFlags.clear : StmtFlags := ⟨false, false, false⟩

/-- Between two marks `q`. -/
def StmtFlags.inside (q : UInt8) (bs : Bool) : StmtFlags := ⟨q = 39, q = 34, bs⟩

theorem StmtFlags.step_clear (b : UInt8) :
    clear.step b = if IsMark b then inside b false else clear := by
  by_cases h34 : b = 34
  · subst h34; rfl
  by_cases h39 : b = 39
  · subst h39; rfl
  have hm : ¬ IsMark b := not_or.mpr ⟨h34, h39⟩
  by_cases h92 : b = 92
  · subst h92; rfl
  rw [step_of_neutral hm h92, if_neg hm]

theorem StmtFlags.step_inside (hq : IsMark q) (bs : Bool) (b : UInt8) :
    (inside q bs).step b =
      if b = q then if bs then inside q true else clear
      else inside q (if b = 92 then !bs else bs) := by
  by_cases h34 : b = 34
  · subst h34
    rcases hq with rfl | rfl <;> cases bs <;> rfl
  by_cases h39 : b = 39
  · subst h39
    rcases hq with rfl | rfl <;> cases bs <;> rfl
  have hm : ¬ IsMark b := not_or.mpr ⟨h34, h39⟩
  have hbq : b ≠ q := fun h => hm (h ▸ hq)
  by_cases h92 : b = 92
  · subst h92
    rcases hq with rfl | rfl <;> cases bs <;> rfl
  rw [step_of_neutral hm h92, if_neg hbq, if_neg h92]

/-- `Enclosed` behind a first part with an odd number of backslashes if `bs`. -/
def EnclosedFrom (q : UInt8) (bs : Bool) (v : Bytes) : Prop :=
  Even (v.count 92 + bs.toNat) ∧ ∀ u w, v = u ++ q :: w → Odd (u.count 92 + bs.toNat)

theorem enclosedFrom_false (q : UInt8) (v : Bytes) : EnclosedFrom q false v ↔ Enclosed q v := by
  simp [EnclosedFrom, Enclosed]

theorem enclosedFrom_nil (q : UInt8) (bs : Bool) : EnclosedFrom q bs [] ↔ bs = false := by
  cases bs <;> simp [EnclosedFrom]

theorem count_cons_toNat (b : UInt8) (u : Bytes) (bs : Bool) :
    (Even ((b :: u).count 92 + bs.toNat) ↔
      Even (u.count 92 + (if b = 92 then !bs else bs).toNat)) := by
  by_cases h92 : b = 92
  · subst h92
    cases bs <;> simp [parity_simps]
  · simp [h92]

theorem enclosedFrom_cons (hq : IsMark q) (bs : Bool) (b : UInt8) (v : Bytes) :
    EnclosedFrom q bs (b :: v) ↔
      (b = q → bs = true) ∧ EnclosedFrom q (if b = 92 then !bs else bs) v := by
  unfold EnclosedFrom
  rw [count_cons_toNat, and_left_comm]
  refine and_congr_right fun _ => ⟨fun h => ⟨?_, fun u w hv => ?_⟩, fun ⟨hb, h⟩ u w hv => ?_⟩
  · rintro rfl
    have := h [] v rfl
    cases bs <;> simp_all
  · have := h (b :: u) w (by rw [hv, List.cons_append])
    rwa [← Nat.not_even_iff_odd, count_cons_toNat, Nat.not_even_iff_odd] at this
  · rcases u with _ | ⟨c, u⟩
    · obtain ⟨rfl, -⟩ := List.cons.inj hv
      simp [hb rfl]
    · obtain ⟨rfl, hv'⟩ := List.cons.inj hv
      rw [← Nat.not_even_iff_odd, count_cons_toNat, Nat.not_even_iff_odd]
      exact h u w hv'

theorem not_outside_inside (hq : IsMark q) (bs : Bool) :
    ¬ ((StmtFlags.inside q bs).sq = false ∧ (StmtFlags.inside q bs).dq = false) := by
  rcases hq with rfl | rfl <;> simp [StmtFlags.inside]

theorem scanFlags_inside_cons (hq : IsMark q) (bs : Bool) (b : UInt8) (s : Bytes) :
    scanFlags (.inside q bs) (b :: s) =
      if b = q ∧ bs = false then scanFlags .clear s
      else scanFlags (.inside q (if b = 92 then !bs else bs)) s := by
  have hq92 : q ≠ 92 := by rintro rfl; exact absurd hq (by decide)
  rw [scanFlags, if_neg fun h => not_outside_inside hq bs ⟨h.1, h.2.1⟩, StmtFlags.step_inside hq]
  by_cases hb : b = q
  · subst hb
    cases bs <;> simp [hq92]
  · simp [hb]

theorem scanFlags_enclosed (hq : IsMark q) {bs : Bool} (h : EnclosedFrom q bs v) (s : Bytes) :
    scanFlags (.inside q bs) (v ++ q :: s) = scanFlags .clear s := by
  induction v generalizing bs with
  | nil => rw [List.nil_append, scanFlags_inside_cons hq, if_pos ⟨rfl, (enclosedFrom_nil _ _).mp h⟩]
  | cons b v ih =>
    obtain ⟨hb, hv⟩ := (enclosedFrom_cons hq _ _ _).mp h
    rw [List.cons_append, scanFlags_inside_cons hq, if_neg fun hc => ?_, ih hv]
    exact absurd (hb hc.1) (by simp [hc.2])

theorem exists_enclosed (hq : IsMark q) {bs : Bool} {g : StmtFlags}
    (h : scanFlags (.inside q bs) t = some g) (hg : g.sq = false ∧ g.dq = false) :
    ∃ v s, t = v ++ q :: s ∧ EnclosedFrom q bs v ∧ scanFlags .clear s = some g := by
  induction t generalizing bs with
  | nil =>
    obtain rfl : StmtFlags.inside q bs = g := by simpa [scanFlags] using h
    exact absurd hg (not_outside_inside hq bs)
  | cons b t ih =>
    rw [scanFlags_inside_cons hq] at h
    by_cases hb : b = q ∧ bs = false
    · rw [if_pos hb] at h
      obtain ⟨rfl, rfl⟩ := hb
      exact ⟨[], t, rfl, (enclosedFrom_nil _ _).mpr rfl, h⟩
    · rw [if_neg hb] at h
      obtain ⟨v, s, rfl, hv, hs⟩ := ih h
      refine ⟨b :: v, s, rfl, (enclosedFrom_cons hq _ _ _).mpr ⟨fun hbq => ?_, hv⟩, hs⟩
      simpa [hbq] using hb

/-- `mod_ssi_stmt_len` gets over a text from outside to outside just if its marks pair up. -/
theorem marksPair_iff (t : Bytes) :
    MarksPair t ↔ ∃ g, scanFlags .clear t = some g ∧ g.sq = false ∧ g.dq = false := by
  constructor
  · intro h
    induction h with
    | nil => exact ⟨_, rfl, rfl, rfl⟩
    | @plain b s hm hend _ ih =>
      rwa [scanFlags, if_neg fun h => hend h.2.2, StmtFlags.step_clear, if_neg hm]
    | @quoted q v s hq hv _ ih =>
      have h45 : q ≠ 45 := by rintro rfl; exact absurd hq (by decide)
      rwa [scanFlags, if_neg (by simp [Ne.symm h45]), StmtFlags.step_clear, if_pos hq,
        scanFlags_enclosed hq ((enclosedFrom_false q v).mpr hv)]
  · rintro ⟨g, h, hg⟩
    induction hn : t.length using Nat.strong_induction_on generalizing t with
    | _ n ih =>
      rcases t with _ | ⟨b, t⟩
      · exact .nil
      rw [scanFlags] at h
      split_ifs at h with hend
      rw [StmtFlags.step_clear] at h
      split_ifs at h with hb
      · obtain ⟨v, s, rfl, hv, hs⟩ := exists_enclosed hb h hg
        exact .quoted hb ((enclosedFrom_false b v).mp hv) (ih _ (by simp [← hn]; omega) s hs rfl)
      · exact .plain hb (fun he => hend ⟨rfl, rfl, he⟩) (ih _ (by simp [← hn]) t h rfl)

/-! ## What is between the values -/

theorem exists_of_ssiQuotedLen {c : UInt8} {s : Bytes} (h : ssiQuotedLen c s n ≠ 0) :
    ∃ w r, s = w ++ c :: r ∧ ssiQuotedLen c s n = n + w.length + 1 := by
  induction s, n using ssiQuotedLen.induct c with
  | case1 n => exact absurd rfl h
  | case2 n => exact ⟨[], [], rfl, by simp [ssiQuotedLen]⟩
  | case3 b n hb => exact absurd (by simp [ssiQuotedLen, hb]) h
  | case4 b' s n => exact ⟨[], b' :: s, rfl, by simp [ssiQuotedLen]⟩
  | case5 b' s n hc ih =>
    simp only [ssiQuotedLen, if_neg hc, if_true] at h ⊢
    obtain ⟨w, r, rfl, hl⟩ := ih h
    exact ⟨92 :: b' :: w, r, rfl, by rw [hl]; simp only [List.length_cons]; omega⟩
  | case6 b b' s n hb h92 ih =>
    simp only [ssiQuotedLen, if_neg hb, if_neg h92] at h ⊢
    obtain ⟨w, r, hs, hl⟩ := ih h
    exact ⟨b :: w, r, by rw [hs]; rfl, by rw [hl]; simp only [List.length_cons]; omega⟩

theorem IsQuoted.exists_cons (h : IsQuoted v) : ∃ q t, v = q :: t ∧ IsMark q := by
  rcases v with _ | ⟨q, t⟩
  · rcases h with h | h <;> simp at h
  · exact ⟨q, t, rfl, by simpa [IsQuoted, IsMark] using h⟩

/-- A value in quotation marks ends with the mark it starts with. -/
theorem exists_of_value (hq : IsMark q) (h : modSsiParseSsiStmtValue (q :: t) ≠ 0) :
    ∃ w r, t = w ++ q :: r ∧ modSsiParseSsiStmtValue (q :: t) = w.length + 2 := by
  have hv : modSsiParseSsiStmtValue (q :: t) = ssiQuotedLen q t 1 := by
    rcases hq with rfl | rfl <;> rfl
  rw [hv] at h ⊢
  obtain ⟨w, r, ht, hl⟩ := exists_of_ssiQuotedLen h
  exact ⟨w, r, ht, by omega⟩

theorem isNeutral_of_isSpace (h : isSpace b) : IsNeutral b := by
  refine ⟨?_, ?_, ?_⟩
  · rintro (rfl | rfl) <;> exact absurd h (by decide)
  · rintro rfl; exact absurd h (by decide)
  · rintro rfl; exact absurd h (by decide)

theorem isNeutral_of_isAlpha (h : isAlpha b) : IsNeutral b := by
  refine ⟨?_, ?_, ?_⟩
  · rintro (rfl | rfl) <;> exact absurd h (by decide)
  · rintro rfl; exact absurd h (by decide)
  · rintro rfl; exact absurd h (by decide)

theorem drop_takeWhile (p : UInt8 → Bool) (l : Bytes) :
    l.drop (l.takeWhile p).length = l.dropWhile p := by
  have h : (l.takeWhile p ++ l.dropWhile p).drop (l.takeWhile p).length = l.dropWhile p :=
    List.drop_left
  rwa [List.takeWhile_append_dropWhile] at h

/-- A run of bytes of one class stops before the end of the directive. -/
theorem takeWhile_append_end (hp : p 45 = false) (r : Bytes) :
    (r ++ [45, 45, 62]).takeWhile p = r.takeWhile p ∧
      (r ++ [45, 45, 62]).dropWhile p = r.dropWhile p ++ [45, 45, 62] := by
  induction r with
  | nil => simp [hp]
  | cons b r ih => by_cases hb : p b <;> simp [hb, ih.1, ih.2]

theorem scanFlags_takeWhile (hp : ∀ b, p b → IsNeutral b) (r : Bytes) (f : StmtFlags) :
    scanFlags f r = scanFlags f (r.dropWhile p) := by
  conv_lhs => rw [← List.takeWhile_append_dropWhile (p := p) (l := r)]
  exact scanFlags_neutral_append (fun b hb => hp b (List.mem_takeWhile_imp hb)) f _

/-- A parameter: letters, `=` and a value. -/
theorem ssiStmtParam_cases {x : ℕ × ℕ} (h : ssiStmtParam (t ++ [45, 45, 62]) = some x) :
    ∃ attr r, t = attr ++ 61 :: r ∧ (∀ b ∈ attr, isAlpha b) ∧ x.1 = attr.length ∧
      x.2 = modSsiParseSsiStmtValue r ∧ x.2 ≠ 0 := by
  obtain ⟨htake, hdrop⟩ := takeWhile_append_end (p := isAlpha) (by decide) t
  have hattr : (t ++ [45, 45, 62]).drop (t.takeWhile isAlpha).length =
      t.dropWhile isAlpha ++ [45, 45, 62] := by
    rw [← hdrop, ← htake, drop_takeWhile]
  simp only [ssiStmtParam, htake, hattr] at h
  split_ifs at h with hbad hvalue
  obtain ⟨-, hhead⟩ := not_or.mp hbad
  obtain ⟨r, hr⟩ : ∃ r, t.dropWhile isAlpha = 61 :: r := by
    rcases hd : t.dropWhile isAlpha with _ | ⟨b, r⟩
    · simp [hd] at hhead
    · exact ⟨r, by simpa [hd] using hhead⟩
  have hq : (t ++ [45, 45, 62]).drop ((t.takeWhile isAlpha).length + 1) = r ++ [45, 45, 62] := by
    rw [← List.drop_drop, hattr, hr]
    rfl
  have hvr : (r ++ [45, 45, 62]).take ((r ++ [45, 45, 62]).length - 3) = r := by simp
  rw [hq, hvr] at h hvalue
  obtain rfl := Option.some.inj h
  refine ⟨t.takeWhile isAlpha, r, ?_, fun b hb => List.mem_takeWhile_imp hb, rfl, rfl, hvalue⟩
  rw [← hr, List.takeWhile_append_dropWhile]

/-- Behind the element and behind a value: blanks, and then the end or one more parameter. -/
theorem ssiStmtParams_cases {k : ℕ} (h : ssiStmtParams k (r ++ [45, 45, 62]) n = some o) :
    (r.dropWhile isSpace = [] ∧ o = []) ∨
      ∃ k' x o' m, k = k' + 1 ∧ m = n + (r.takeWhile isSpace).length ∧
        ssiStmtParam (r.dropWhile isSpace ++ [45, 45, 62]) = some x ∧
        ssiStmtParams k' ((r.dropWhile isSpace ++ [45, 45, 62]).drop (x.1 + 1 + x.2))
          (m + x.1 + 1 + x.2) = some o' ∧
        o = [(m, x.1), (m + x.1 + 1, x.2)] ++ o' := by
  obtain ⟨htake, hdrop⟩ := takeWhile_append_end (p := isSpace) (by decide) r
  rw [ssiStmtParams.eq_def] at h
  simp only [htake, hdrop] at h
  split_ifs at h with h3 hblank h3'
  · obtain rfl : r = [] := by simpa using h3
    exact .inl ⟨rfl, (Option.some.inj h).symm⟩
  · exact .inl ⟨by simpa using h3', (Option.some.inj h).symm⟩
  rcases k with _ | k
  · exact absurd h (by simp)
  obtain ⟨x, hx, hmap⟩ := Option.bind_eq_some_iff.mp h
  obtain ⟨o', ho', ho⟩ := Option.map_eq_some_iff.mp hmap
  exact .inr ⟨k, x, o', _, rfl, rfl, hx, ho', ho.symm⟩

theorem scanFlags_param {attr w : Bytes} (hattr : ∀ b ∈ attr, isAlpha b) (hq : IsMark q)
    (f : StmtFlags) :
    scanFlags f (attr ++ 61 :: q :: (w ++ q :: r)) =
      (scanFlags f (q :: w ++ [q])).bind (scanFlags · r) := by
  have hneutral : ∀ b ∈ attr ++ [61], IsNeutral b := by
    intro b hb
    rcases List.mem_append.mp hb with hb | hb
    · exact isNeutral_of_isAlpha (hattr b hb)
    · rw [List.mem_singleton.mp hb]
      exact ⟨by decide, by decide, by decide⟩
  rw [show attr ++ 61 :: q :: (w ++ q :: r) = (attr ++ [61]) ++ (q :: w ++ q :: r) by simp,
    scanFlags_neutral_append hneutral, scanFlags_append_mark hq]

/-- Outside its values a directive has nothing that changes the flags. -/
theorem scanFlags_params {s : Bytes} (k : ℕ) (hs : s.drop n = r ++ [45, 45, 62])
    (h : ssiStmtParams k (r ++ [45, 45, 62]) n = some o) (hq : ∀ v ∈ paramValues s o, IsQuoted v)
    (f : StmtFlags) : scanFlags f r = scanFlags f (paramValues s o).flatten := by
  induction k generalizing r n o f with
  | zero =>
    rw [scanFlags_takeWhile (fun _ => isNeutral_of_isSpace) r]
    rcases ssiStmtParams_cases h with ⟨hr, rfl⟩ | ⟨k', -, -, -, hk, -⟩
    · rw [hr]
      rfl
    · exact absurd hk (by omega)
  | succ k ih =>
    rw [scanFlags_takeWhile (fun _ => isNeutral_of_isSpace) r]
    rcases ssiStmtParams_cases h with ⟨hr, rfl⟩ | ⟨k', x, o', m, hk, hm, hx, ho', rfl⟩
    · rw [hr]
      rfl
    obtain rfl : k = k' := by omega
    have hsm : s.drop m = r.dropWhile isSpace ++ [45, 45, 62] := by
      rw [hm, ← List.drop_drop, hs]
      obtain ⟨htake, hdrop⟩ := takeWhile_append_end (p := isSpace) (by decide) r
      rw [← hdrop, ← htake, drop_takeWhile]
    obtain ⟨attr, t, hr, hattr, h1, h2, hvalue⟩ := ssiStmtParam_cases hx
    have hdrop : ∀ i, (attr ++ 61 :: t ++ [45, 45, 62]).drop (x.1 + 1 + i) =
        (t ++ [45, 45, 62]).drop i := by
      intro i
      rw [← List.drop_drop, h1, show attr ++ 61 :: t = (attr ++ [61]) ++ t by simp,
        List.append_assoc, List.drop_left' (by simp)]
    rw [hr] at ho' hsm ⊢
    rw [hdrop] at ho'
    have hsv : s.drop (m + x.1 + 1) = t ++ [45, 45, 62] := by
      rw [add_assoc, ← List.drop_drop, hsm, ← add_zero (x.1 + 1), hdrop, List.drop_zero]
    simp only [List.cons_append, List.nil_append, paramValues, hsv, List.mem_cons, forall_eq_or_imp,
      List.flatten_cons] at hq ⊢
    obtain ⟨hquoted, hq⟩ := hq
    obtain ⟨q, u, hqu, hmark⟩ := hquoted.exists_cons
    rcases t with _ | ⟨q', t⟩
    · exact absurd h2 hvalue
    obtain rfl : q' = q := by
      obtain ⟨i, hi⟩ := Nat.exists_eq_succ_of_ne_zero hvalue
      rw [hi, List.cons_append, List.take_succ_cons] at hqu
      exact (List.cons.inj hqu).1
    rw [h2] at hvalue
    obtain ⟨w, r', rfl, hl⟩ := exists_of_value hmark hvalue
    rw [hl] at h2
    have hnext : (q' :: (w ++ q' :: r') ++ [45, 45, 62]).drop x.2 = r' ++ [45, 45, 62] := by
      rw [show q' :: (w ++ q' :: r') = (q' :: w ++ [q']) ++ r' by simp, List.append_assoc,
        List.drop_left' (by simp [h2])]
    have hval : (q' :: (w ++ q' :: r') ++ [45, 45, 62]).take x.2 = q' :: w ++ [q'] := by
      rw [show q' :: (w ++ q' :: r') = (q' :: w ++ [q']) ++ r' by simp, List.append_assoc,
        List.take_left' (by simp [h2])]
    have hs' : s.drop (m + x.1 + 1 + x.2) = r' ++ [45, 45, 62] := by
      rw [← List.drop_drop, hsv, hnext]
    rw [hnext] at ho'
    rw [hval, scanFlags_param hattr hmark, List.append_assoc, List.singleton_append,
      scanFlags_append_mark hmark (q' :: w) (paramValues s o').flatten]
    congr 1
    funext g
    exact ih hs' ho' hq g

/-- `mod_ssi_stmt_len` returns the length of a directive, whatever follows, just if the marks of its
values pair up. -/
theorem stmtLen_eq_iff {body : Bytes} {o : List (ℕ × ℕ)}
    (h : modSsiParseSsiStmtOfflen (directive body) = some o)
    (hq : ∀ v ∈ stmtValues (directive body) o, IsQuoted v) :
    (∀ text, modSsiStmtLen (directive body ++ text) = (directive body).length) ↔
      MarksPair (stmtValues (directive body) o).flatten := by
  have hbody : (directive body).drop 5 = body ++ [45, 45, 62] := rfl
  have hlen : (directive body).length = 5 + body.length + 3 := by
    simp [directive]
    omega
  have hflags : scanFlags .clear body =
      scanFlags .clear (stmtValues (directive body) o).flatten := by
    obtain ⟨htake, hdrop⟩ := takeWhile_append_end (p := isAlpha) (by decide) body
    simp only [modSsiParseSsiStmtOfflen, hbody, htake] at h
    split_ifs at h with helement
    obtain ⟨o', ho', rfl⟩ := Option.map_eq_some_iff.mp h
    rw [← htake, drop_takeWhile, hdrop, htake] at ho'
    rw [scanFlags_takeWhile (fun _ => isNeutral_of_isAlpha) body]
    refine scanFlags_params 2 ?_ ho' hq _
    rw [← List.drop_drop, hbody, ← htake, drop_takeWhile, hdrop]
  have hscan : ∀ text, modSsiStmtLen (directive body ++ text) =
      stmtLenFrom .clear (body ++ 45 :: 45 :: (62 :: text)) 5 := by
    intro text
    unfold modSsiStmtLen directive
    simp [StmtFlags.clear]
  rw [marksPair_iff, ← hflags]
  constructor
  · intro hall
    have h0 := hall []
    rw [hscan, hlen] at h0
    rcases hg : scanFlags .clear body with _ | g
    · exact absurd h0 (stmtLenFrom_lt_of_scanFlags hg _ _).ne
    · refine ⟨g, rfl, ?_⟩
      rw [stmtLenFrom_of_scanFlags hg] at h0
      by_contra hin
      simp only [stmtLenFrom, StmtFlags.step] at h0
      simp at h0
      exact hin h0
  · rintro ⟨g, hg, hsq, hdq⟩ text
    rw [hscan, hlen, stmtLenFrom_of_scanFlags hg, stmtLenFrom, if_pos ⟨rfl, hsq, hdq, rfl⟩]

/-- Between the marks of a value without a backslash everything is enclosed. -/
theorem enclosed_of_notMem (hq : q ∉ v) (h92 : (92 : UInt8) ∉ v) : Enclosed q v := by
  refine ⟨by simp [List.count_eq_zero_of_not_mem h92], fun u w hv => absurd ?_ hq⟩
  simp [hv]

/-- It is enough that each value is enclosed by its own marks. -/
theorem marksPair_flatten {vs : List Bytes}
    (h : ∀ v ∈ vs, ∃ q w, v = q :: (w ++ [q]) ∧ IsMark q ∧ Enclosed q w) :
    MarksPair vs.flatten := by
  induction vs with
  | nil => exact .nil
  | cons v vs ih =>
    obtain ⟨q, w, rfl, hq, hw⟩ := h v (by simp)
    have hrest := MarksPair.quoted hq hw (ih fun u hu => h u (by simp [hu]))
    simpa using hrest

/-- `<!--#echo var="a-->b" enc='c' -->` and some text. -/
theorem stmtLen_eq_echo :
    modSsiStmtLen (directive (str "echo var=\"a-->b\" enc='c' ") ++ str " text -->") = 33 := by
  have hvalues : stmtValues (directive (str "echo var=\"a-->b\" enc='c' "))
      [(5, 4), (10, 3), (14, 7), (22, 3), (26, 3)] = [34 :: (str "a-->b" ++ [34]), [39, 99, 39]] := by
    decide
  have hpair : MarksPair (stmtValues (directive (str "echo var=\"a-->b\" enc='c' "))
      [(5, 4), (10, 3), (14, 7), (22, 3), (26, 3)]).flatten := by
    rw [hvalues]
    refine marksPair_flatten fun v hv => ?_
    simp only [List.mem_cons, List.not_mem_nil, or_false] at hv
    rcases hv with rfl | rfl
    · exact ⟨34, str "a-->b", rfl, Or.inl rfl, enclosed_of_notMem (by decide) (by decide)⟩
    · exact ⟨39, [99], rfl, Or.inr rfl, enclosed_of_notMem (by decide) (by decide)⟩
  exact (stmtLen_eq_iff (by decide) (by rw [hvalues]; decide)).mpr hpair _

/-- `<!--#echo var="a\"b"-->`: the flag stays up behind the escaped mark. -/
theorem not_stmtLen_eq :
    ¬ ∀ (body : Bytes) (o : List (ℕ × ℕ)), modSsiParseSsiStmtOfflen (directive body) = some o →
      (∀ v ∈ stmtValues (directive body) o, IsQuoted v) →
      ∀ text, modSsiStmtLen (directive body ++ text) = (directive body).length := by
  intro h
  have hlen := h (str "echo var=\"a\\\"b\"") [(5, 4), (10, 3), (14, 6)] (by decide) (by decide) []
  exact absurd hlen (by decide)

end Lighttpd
