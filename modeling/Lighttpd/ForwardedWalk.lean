import Lighttpd.ForwardedMeaning

/-!
# The walk over the table of a Forwarded header

From the last entry back, the walk looks for the last `for` in each element of the header and goes
on while its address is that of a trusted proxy. `BracketReached` says that it comes to a value that
is just `"["`, whose address would have the length -1; `ends_forwardedWalk` says that it ends, that
this is the only fault it can come to, and that it finds the `for` that `forwardedTaken` gives.
-/

namespace Lighttpd

open CString FaultRuns

/-! ## Parameters in the table -/

/-- The value is `"["`, with blanks behind it. -/
structure ForwardedParam.Bracket (s : Bytes) (p : ForwardedParam) : Prop where
  len : 3 ≤ p.vlen
  opening : byteAt s p.v = 34
  bracket : byteAt s (p.v + 1) = 91
  closing : byteAt s (p.v + 2) = 34
  blanks : ∀ i, p.v + 3 ≤ i → i < p.v + p.vlen → byteAt s i = SP ∨ byteAt s i = HT

/-- The tokens `ts` take the first `used` entries, and -1 is behind them. -/
structure Tabled (s : Bytes) (offsets : Offsets) (used : ℤ) (ts : List ForwardedToken) : Prop where
  holds : InTable offsets 0 (ts ++ [.sep])
  valid : ∀ p, .param p ∈ ts → p.Valid s
  entries_eq : entries ts = used
  fits : used ≤ 252

variable {a b ts c post : List ForwardedToken} {p q : ForwardedParam} {s : Bytes}
  {n used v e ofor : ℤ} {offsets : Offsets} {o : Option ForwardedTaken} {conf : ExtforwardConf}

section Tabled

variable {s : Bytes} {offsets : Offsets} {used : ℤ}

theorem Tabled.sep (h : Tabled s offsets used (a ++ .sep :: b)) :
    offsets (entries a) = -1 ∧ 0 ≤ entries a ∧ entries a + 1 ≤ used := by
  have hb := entries_nonneg b
  have hsize := h.entries_eq
  have hholds := h.holds
  rw [List.append_assoc, inTable_append] at hholds
  simp only [entries_append, entries] at hsize
  have he := hholds.2.1
  rw [zero_add] at he
  exact ⟨he, entries_nonneg a, by omega⟩

theorem Tabled.param (h : Tabled s offsets used (a ++ .param p :: b)) :
    (offsets (entries a) = p.k ∧ offsets (entries a + 1) = p.klen ∧ offsets (entries a + 2) = p.v ∧
      offsets (entries a + 3) = p.vlen) ∧ p.Valid s ∧ 0 ≤ entries a ∧ entries a + 4 ≤ used := by
  have hb := entries_nonneg b
  have hsize := h.entries_eq
  have hholds := h.holds
  rw [List.append_assoc, inTable_append] at hholds
  simp only [entries_append, entries] at hsize
  have he := hholds.2.1
  rw [zero_add] at he
  exact ⟨he, h.valid p (by simp), entries_nonneg a, by omega⟩

end Tabled

theorem gives_derived {i : ℤ} (hi : 0 ≤ i) (hn : 0 ≤ n) (h : i + n ≤ s.length) :
    Gives (derived s i n) fun a => a = (s.drop i.toNat).take n.toNat := by
  rw [derived, if_pos ⟨hi, hn, h⟩]
  exact gives_pure rfl

theorem gives_keyIs (h : Tabled s offsets used (a ++ .param p :: b)) (name : Bytes) :
    Gives (keyIs s offsets (entries a) name) fun r => r = decide (p.Named s name) := by
  obtain ⟨⟨hk, hklen, -⟩, hp, h0, hle⟩ := h.param
  have hfits := h.fits
  refine (gives_readOffset (by omega) (by omega)).bind fun klen hr => ?_
  rw [hr, hklen]
  split_ifs with hname
  · refine (gives_readOffset h0 (by omega)).bind fun k hr => ?_
    rw [hr, hk]
    refine (gives_derived hp.key (by omega) (by have := hp.key_end; omega)).bind fun key hkey => ?_
    subst hkey
    exact gives_pure (by simp [ForwardedParam.Named, hname])
  · exact gives_pure (by simp [ForwardedParam.Named, hname])

theorem entries_eq_zero (h : entries ts = 0) : ts = [] := by
  rcases ts with _ | ⟨_ | p, ts⟩
  · rfl
  · have := entries_nonneg ts
    simp only [entries] at h
    omega
  · have := entries_nonneg ts
    simp only [entries] at h
    omega

/-- Parameters of which none is a `for`. -/
def NoFor (s : Bytes) (ts : List ForwardedToken) : Prop :=
  ∀ t ∈ ts, ∃ p, t = .param p ∧ ¬ p.IsFor s

/-- Where the inner loop ends: at the last `for`, unless a comma comes first, or in front of the
table. -/
def ForSpot (s : Bytes) (ts : List ForwardedToken) (j : ℤ) : Prop :=
  (∃ a p b, ts = a ++ .param p :: b ∧ NoFor s b ∧ p.IsFor s ∧ j = entries a) ∨
    (∃ a b, ts = a ++ .sep :: b ∧ NoFor s b ∧ j = entries a) ∨
    NoFor s ts ∧ j = -1

theorem NoFor.concat (h : NoFor s ts) (hp : ¬ p.IsFor s) : NoFor s (ts ++ [.param p]) := by
  intro t ht
  rcases List.mem_append.mp ht with ht | ht
  · exact h t ht
  · exact ⟨p, List.mem_singleton.mp ht, hp⟩

theorem ForSpot.concat {j : ℤ} (h : ForSpot s ts j) (hp : ¬ p.IsFor s) :
    ForSpot s (ts ++ [.param p]) j := by
  rcases h with ⟨a, q, b, rfl, hb, hq, hj⟩ | ⟨a, b, rfl, hb, hj⟩ | ⟨hts, hj⟩
  · exact .inl ⟨a, q, b ++ [.param p], by simp, hb.concat hp, hq, hj⟩
  · exact .inr (.inl ⟨a, b ++ [.param p], by simp, hb.concat hp, hj⟩)
  · exact .inr (.inr ⟨hts.concat hp, hj⟩)

theorem gives_forwardedFindFor (fuel : ℕ) (h : Tabled s offsets used (a ++ .param p :: b))
    (hfuel : entries a < fuel) :
    Gives (forwardedFindFor s offsets fuel (entries a + 3)) (ForSpot s (a ++ [.param p])) := by
  induction fuel generalizing a b p with
  | zero => have := entries_nonneg a; omega
  | succ fuel ih =>
    obtain ⟨-, -, h0, hle⟩ := h.param
    have hfits := h.fits
    rw [forwardedFindFor, add_sub_cancel_right]
    refine (gives_keyIs h _).bind fun r hr => ?_
    subst hr
    by_cases hfor : p.IsFor s
    · rw [decide_eq_true hfor, if_pos rfl]
      exact gives_pure (.inl ⟨a, p, [], rfl, by simp [NoFor], hfor, rfl⟩)
    · rw [decide_eq_false hfor, if_neg (by simp)]
      split_ifs with hzero
      · obtain rfl := entries_eq_zero hzero
        exact gives_pure (.inr (.inr ⟨by simpa [NoFor] using hfor, rfl⟩))
      · rcases List.eq_nil_or_concat' a with rfl | ⟨a, t, rfl⟩
        · exact absurd rfl hzero
        · rw [List.append_assoc, List.singleton_append] at h
          refine (gives_readOffset (by omega) (by omega)).bind fun e he => ?_
          cases t with
          | sep =>
            rw [entries_append, entries, entries, zero_add, add_sub_cancel_right] at he ⊢
            rw [h.sep.1] at he
            rw [if_pos he]
            exact gives_pure (.inr (.inl ⟨a, [.param p], by simp,
              by simpa [NoFor] using hfor, rfl⟩))
          | param q =>
            obtain ⟨⟨-, -, -, hvlen⟩, hq, -⟩ := h.param
            have hlen := hq.len
            rw [entries_append, entries, entries,
              show entries a + (0 + 4) - 1 = entries a + 3 by omega] at he ⊢
            rw [hvlen] at he
            rw [if_neg (by omega)]
            refine (ih h ?_).mono fun j hj => hj.concat hfor
            rw [entries_append, entries, entries] at hfuel
            push_cast at hfuel
            omega

/-! ## The address of a `for` -/

/-- A blank or a tab. -/
def IsForwardedBlank (c : UInt8) : Prop := c = SP ∨ c = HT

/-- The value from `v` to `vlen` without the blanks at its end ends at `e`. -/
structure Trimmed (s : Bytes) (v vlen e : ℤ) : Prop where
  start_le : v ≤ e
  le_end : e ≤ vlen
  last : e = v ∨ ¬ IsForwardedBlank (byteAt s (e - 1))
  blanks : ∀ i, e ≤ i → i < vlen → IsForwardedBlank (byteAt s i)

theorem gives_trimBlanks (fuel : ℕ) (vlen : ℤ) (hv : 0 ≤ v) (hle : v ≤ vlen)
    (hend : vlen ≤ s.length) (hfuel : vlen - v < fuel) :
    Gives (trimBlanks s v fuel vlen) (Trimmed s v vlen) := by
  induction fuel generalizing vlen with
  | zero => omega
  | succ fuel ih =>
    rw [trimBlanks]
    by_cases hlt : v < vlen
    · rw [if_pos hlt]
      refine (gives_readByte (by omega) (by omega)).bind fun c hc => ?_
      split_ifs with hblank
      · refine (ih (vlen - 1) (by omega) (by omega) (by push_cast at hfuel; omega)).mono
          fun e he => ⟨he.start_le, by have := he.le_end; omega, he.last, fun i hi hlt => ?_⟩
        by_cases hlast : i = vlen - 1
        · rw [hlast, ← hc]
          exact hblank
        · exact he.blanks i hi (by omega)
      · exact gives_pure ⟨hle, le_rfl, .inr (hc ▸ hblank), by intros; omega⟩
    · rw [if_neg hlt]
      exact gives_pure ⟨hle, le_rfl, .inl (by omega), by intros; omega⟩

theorem gives_isQuoted {vlen : ℤ} (hv : 0 ≤ v) (hend : vlen ≤ s.length) :
    Gives (isQuoted s v vlen) fun q =>
      q = true ↔ v + 1 < vlen ∧ byteAt s v = 34 ∧ byteAt s (vlen - 1) = 34 := by
  unfold isQuoted
  split_ifs with hlt
  · refine (gives_readByte hv (by omega)).bind fun c hc => ?_
    refine (gives_readByte (by omega) (by omega)).bind fun d hd => ?_
    exact gives_pure (by simp [hlt, hc, hd])
  · exact gives_pure (by simp [hlt])

/-- With nothing behind the `[` the loop goes on to the place in front. -/
theorem gives_findBracket (fuel : ℕ) (vlen : ℤ) (hv : 0 ≤ v) (hle : v ≤ vlen)
    (hend : vlen ≤ s.length) (hfuel : vlen - v < fuel) :
    Gives (findBracket s v fuel vlen) fun e =>
      (vlen = v → e = v - 1) ∧ (v < vlen → v ≤ e ∧ e < vlen) := by
  induction fuel generalizing vlen with
  | zero => omega
  | succ fuel ih =>
    rw [findBracket]
    by_cases hlt : v < vlen - 1
    · rw [if_pos hlt]
      refine (gives_readByte (by omega) (by omega)).bind fun c hc => ?_
      split_ifs with hbracket
      · refine (ih (vlen - 1) (by omega) (by omega) (by push_cast at hfuel; omega)).mono
          fun e he => ⟨by omega, fun _ => ?_⟩
        have := he.2 hlt
        omega
      · exact gives_pure ⟨by omega, by omega⟩
    · rw [if_neg hlt]
      exact gives_pure ⟨by omega, by omega⟩

theorem gives_findPort (fuel : ℕ) (v : ℤ) (hv : 0 ≤ v) (hle : v ≤ e) (hend : e ≤ s.length)
    (hfuel : e - v < fuel) : Gives (findPort s e fuel v) fun r => v ≤ r ∧ r ≤ e := by
  induction fuel generalizing v with
  | zero => omega
  | succ fuel ih =>
    rw [findPort]
    by_cases hlt : v < e
    · rw [if_pos hlt]
      refine (gives_readByte hv (by omega)).bind fun c hc => ?_
      split_ifs with hcolon
      · exact (ih (v + 1) (by omega) (by omega) (by push_cast at hfuel; omega)).mono
          fun r hr => ⟨by omega, hr.2⟩
      · exact gives_pure ⟨le_rfl, hle⟩
    · rw [if_neg hlt]
      exact gives_pure ⟨le_rfl, hle⟩

/-- Where the address is, but for a value `"["`. -/
def AddrSpan (s : Bytes) (p : ForwardedParam) : Option (ℤ × ℤ) → Prop
  | none => ¬ p.Bracket s
  | some (v, e) => p.Bracket s ∧ e = v - 1 ∨ ¬ p.Bracket s ∧ p.v ≤ v ∧ v ≤ e ∧ e ≤ s.length

theorem bracket_iff (h : Trimmed s p.v (p.v + p.vlen) e) :
    p.Bracket s ↔ e = p.v + 3 ∧ byteAt s p.v = 34 ∧ byteAt s (p.v + 1) = 91 ∧
      byteAt s (p.v + 2) = 34 := by
  have hmark : ¬ IsForwardedBlank 34 := by simp [IsForwardedBlank, SP, HT]
  have hstart := h.start_le
  have hle := h.le_end
  constructor
  · intro hb
    refine ⟨?_, hb.opening, hb.bracket, hb.closing⟩
    by_contra hne
    rcases lt_or_gt_of_ne hne with hlt | hgt
    · have hlen := hb.len
      have hblank := h.blanks (p.v + 2) (by omega) (by omega)
      rw [hb.closing] at hblank
      exact hmark hblank
    · rcases h.last with hlast | hlast
      · omega
      · exact hlast (hb.blanks (e - 1) (by omega) (by omega))
  · rintro ⟨rfl, h1, h2, h3⟩
    exact ⟨by omega, h1, h2, h3, h.blanks⟩

theorem gives_forwardedForAddr (hp : p.Valid s) :
    Gives (forwardedForAddr s p.v (p.v + p.vlen)) (AddrSpan s p) := by
  have hv := hp.value
  have hlen := hp.len
  have hend := hp.value_end
  refine (gives_trimBlanks _ _ hv (by omega) hend (by push_cast; omega)).bind fun e he => ?_
  have hstart := he.start_le
  have hle := he.le_end
  refine (gives_isQuoted hv (by omega)).bind fun q hq => ?_
  by_cases hquoted : q = true
  · rw [if_pos hquoted]
    obtain ⟨hlt, hopen, hclose⟩ := hq.mp hquoted
    refine (gives_readByte (by omega) (by omega)).bind fun c hc => ?_
    by_cases hbracket : c = 91
    · rw [if_pos hbracket]
      have hb1 : byteAt s (p.v + 1) = 91 := hc ▸ hbracket
      -- the closing quotation mark is not the `[`
      have hne : e ≠ p.v + 2 := by
        rintro rfl
        rw [show p.v + 2 - 1 = p.v + 1 by omega, hb1] at hclose
        exact absurd hclose (by decide)
      refine (gives_findBracket _ (e - 1) (by omega) (by omega) (by omega)
        (by push_cast; omega)).bind fun f hf => ?_
      have hiff : p.Bracket s ↔ e = p.v + 3 := by
        rw [bracket_iff he]
        refine ⟨fun h => h.1, fun h => ⟨h, hopen, hb1, ?_⟩⟩
        rw [h, show p.v + 3 - 1 = p.v + 2 by omega] at hclose
        exact hclose
      split_ifs with hempty
      · exact gives_pure (by rw [AddrSpan, hiff]; omega)
      · exact gives_pure (by rw [AddrSpan, hiff]; omega)
    · rw [if_neg hbracket]
      have hno : ¬ p.Bracket s := fun h => hbracket (hc.trans h.bracket)
      split_ifs with hport
      · refine (gives_findPort _ _ (by omega) (by omega) (by omega) (by push_cast; omega)).bind
          fun r hr => ?_
        exact gives_pure (.inr ⟨hno, by omega, by omega, by omega⟩)
      · exact gives_pure (.inr ⟨hno, by omega, by omega, by omega⟩)
  · rw [if_neg hquoted]
    refine gives_pure (.inr ⟨fun h => hquoted (hq.mpr ?_), le_rfl, hstart, by omega⟩)
    obtain ⟨rfl, h1, -, h3⟩ := (bracket_iff he).mp h
    exact ⟨by omega, h1, by rw [show p.v + 3 - 1 = p.v + 2 by omega]; exact h3⟩

theorem gives_forwardedAddr (hv : 0 ≤ v) (hle : v ≤ e) (hend : e ≤ s.length) :
    Gives (forwardedAddr s v e) fun a => a = (s.drop v.toNat).take (e - v).toNat := by
  unfold forwardedAddr
  split_ifs with hne
  · exact gives_derived hv (by omega) (by omega)
  · exact gives_pure (by rw [not_not.mp hne, sub_self]; rfl)

theorem span_eq_nil (hv : 0 ≤ v) (hle : v ≤ e) (hend : e ≤ s.length) :
    (s.drop v.toNat).take (e - v).toNat = [] ↔ v = e := by
  rw [← List.length_eq_zero_iff, List.length_take, List.length_drop]
  omega

/-- The loop goes on to the next entry of -1, or to the front of the table. -/
theorem gives_scanDown {lo : ℤ} (fuel : ℕ) (j : ℤ) (h0 : 0 ≤ lo) (hlo : lo < j) (hj : j ≤ 256)
    (hsep : 0 < lo → offsets lo = -1) (hparams : ∀ m, lo < m → m < j → offsets m ≠ -1)
    (hfuel : j - lo ≤ fuel) : Gives (scanDown offsets fuel j) fun r => r = lo := by
  induction fuel generalizing j with
  | zero => omega
  | succ fuel ih =>
    rw [scanDown]
    by_cases hpos : 0 < j - 1
    · rw [if_pos hpos]
      refine (gives_readOffset (by omega) (by omega)).bind fun e he => ?_
      by_cases hend : j - 1 = lo
      · rw [if_neg (by rw [he, hend, hsep (by omega)]; simp)]
        exact gives_pure hend
      · rw [if_pos (by rw [he]; exact hparams _ (by omega) (by omega))]
        exact ih (j - 1) (by omega) (by omega) (fun m h1 h2 => hparams m h1 (by omega))
          (by push_cast at hfuel; omega)
    · rw [if_neg hpos]
      exact gives_pure (by omega)

theorem ne_of_inTable {m : ℤ} (h : InTable offsets n ts)
    (hparams : ∀ t ∈ ts, ∃ p, t = .param p ∧ p.Valid s) (hn : n ≤ m) (hm : m < n + entries ts) :
    offsets m ≠ -1 := by
  induction ts generalizing n with
  | nil => simp only [entries] at hm; omega
  | cons t ts ih =>
    obtain ⟨p, rfl, hp⟩ := hparams t List.mem_cons_self
    obtain ⟨⟨hk, hklen, hv, hvlen⟩, hts⟩ := h
    rw [entries] at hm
    by_cases hlt : m < n + 4
    · have h1 := hp.key
      have h2 := hp.name
      have h3 := hp.value
      have h4 := hp.len
      obtain rfl | rfl | rfl | rfl : m = n ∨ m = n + 1 ∨ m = n + 2 ∨ m = n + 3 := by omega
      all_goals omega
    · exact ih hts (fun t ht => hparams t (List.mem_cons_of_mem _ ht)) (by omega) (by omega)

theorem exists_last_sep (ts : List ForwardedToken) :
    (∀ t ∈ ts, ∃ p, t = .param p) ∨
      ∃ a b, ts = a ++ .sep :: b ∧ ∀ t ∈ b, ∃ p, t = .param p := by
  induction ts with
  | nil => exact .inl (by simp)
  | cons t ts ih =>
    rcases ih with h | ⟨a, b, rfl, hb⟩
    · cases t with
      | sep => exact .inr ⟨[], ts, rfl, h⟩
      | param p => exact .inl (by simpa using h)
    · exact .inr ⟨t :: a, b, rfl, hb⟩

theorem valid_of_mem (h : Tabled s offsets used ts) (hsub : b ⊆ ts)
    (hb : ∀ t ∈ b, ∃ p, t = .param p) : ∀ t ∈ b, ∃ p, t = .param p ∧ p.Valid s := by
  intro t ht
  obtain ⟨p, rfl⟩ := hb t ht
  exact ⟨p, rfl, h.valid p (hsub ht)⟩

/-- From a place behind `a ++ .sep :: b` the loop goes back to the comma. -/
theorem gives_scanDown_sep (h : Tabled s offsets used (a ++ .sep :: b ++ c))
    (hb : ∀ t ∈ b, ∃ p, t = .param p) :
    Gives (scanDown offsets 256 (entries (a ++ .sep :: b))) fun r => r = entries a := by
  have hsize := h.entries_eq
  have hfits := h.fits
  have ha := entries_nonneg a
  have hb0 := entries_nonneg b
  have hc := entries_nonneg c
  have hholds := h.holds
  have hvalid := valid_of_mem h (b := b) (by intro t ht; simp [ht]) hb
  simp only [List.append_assoc, List.cons_append] at hholds h
  simp only [entries_append, entries] at hsize ⊢
  rw [inTable_append] at hholds
  obtain ⟨-, -, hrest⟩ := hholds
  rw [inTable_append] at hrest
  refine gives_scanDown _ _ ha (by omega) (by omega) (fun _ => h.sep.1) (fun m h1 h2 => ?_)
    (by push_cast; omega)
  exact ne_of_inTable hrest.1 hvalid (by omega) (by omega)

/-- With no comma in front the loop goes back to the first entry. -/
theorem gives_scanDown_front (h : Tabled s offsets used (a ++ c)) (ha : ∀ t ∈ a, ∃ p, t = .param p)
    (hne : a ≠ []) : Gives (scanDown offsets 256 (entries a)) fun r => r = 0 := by
  have hsize := h.entries_eq
  have hfits := h.fits
  have ha0 := entries_nonneg a
  have hc := entries_nonneg c
  have hholds := h.holds
  have hvalid := valid_of_mem h (b := a) (by intro t ht; simp [ht]) ha
  rw [List.append_assoc, inTable_append] at hholds
  rw [entries_append] at hsize
  have hpos : entries a ≠ 0 := fun h => hne (entries_eq_zero h)
  refine gives_scanDown _ _ le_rfl (by omega) (by omega) (by omega) (fun m h1 h2 => ?_)
    (by push_cast; omega)
  exact ne_of_inTable hholds.1 hvalid (by omega) (by omega)

/-- The address in the value of `p` is empty or that of a trusted proxy, so the walk goes on. -/
def PassedOver (conf : ExtforwardConf) (s : Bytes) (p : ForwardedParam) : Prop :=
  ∃ v e addr, forwardedForAddr s p.v (p.v + p.vlen) = .ok (some (v, e)) ∧
    forwardedAddr s v e = .ok addr ∧ (v = e ∨ conf.isProxyTrusted addr)

/-- What is behind the next comma. -/
def dropElement : List ForwardedToken → List ForwardedToken
  | [] => []
  | .sep :: ts => ts
  | .param _ :: ts => dropElement ts

/-- Going over the tokens, the last one first, the walk comes to the value `"["`: it goes over
parameters that are no `for`, and from a `for` with an address that is passed over to the element in
front. -/
inductive BracketReached (conf : ExtforwardConf) (s : Bytes) : List ForwardedToken → Prop
  | bracket {p : ForwardedParam} {ts : List ForwardedToken} :
      p.IsFor s → p.Bracket s → BracketReached conf s (.param p :: ts)
  | sep {ts : List ForwardedToken} : BracketReached conf s ts → BracketReached conf s (.sep :: ts)
  | other {p : ForwardedParam} {ts : List ForwardedToken} :
      ¬ p.IsFor s → BracketReached conf s ts → BracketReached conf s (.param p :: ts)
  | passed {p : ForwardedParam} {ts : List ForwardedToken} :
      p.IsFor s → PassedOver conf s p → BracketReached conf s (dropElement ts) →
      BracketReached conf s (.param p :: ts)

section Reached

variable {conf : ExtforwardConf} {s : Bytes} {p : ForwardedParam} {ts : List ForwardedToken}

theorem not_bracketReached_nil : ¬ BracketReached conf s [] := nofun

theorem bracketReached_sep : BracketReached conf s (.sep :: ts) ↔ BracketReached conf s ts :=
  ⟨fun h => by cases h; assumption, .sep⟩

theorem bracketReached_noFor (hb : NoFor s b) :
    BracketReached conf s (b.reverse ++ ts) ↔ BracketReached conf s ts := by
  induction b generalizing ts with
  | nil => simp
  | cons t b ih =>
    obtain ⟨q, rfl, hq⟩ := hb t List.mem_cons_self
    rw [List.reverse_cons, List.append_assoc, List.singleton_append,
      ih fun t ht => hb t (List.mem_cons_of_mem _ ht)]
    refine ⟨fun h => ?_, .other hq⟩
    cases h with
    | bracket hfor => exact absurd hfor hq
    | other _ h => exact h
    | passed hfor => exact absurd hfor hq

theorem bracketReached_for (hp : p.IsFor s) (hno : ¬ p.Bracket s) :
    BracketReached conf s (.param p :: ts) ↔
      PassedOver conf s p ∧ BracketReached conf s (dropElement ts) := by
  refine ⟨fun h => ?_, fun h => .passed hp h.1 h.2⟩
  cases h with
  | bracket _ h => exact absurd h hno
  | other h => exact absurd hp h
  | passed _ hpass h => exact ⟨hpass, h⟩

theorem dropElement_reverse (hb : ∀ t ∈ b, ∃ p, t = .param p) :
    dropElement (b.reverse ++ ts) = dropElement ts := by
  induction b generalizing ts with
  | nil => rfl
  | cons t b ih =>
    obtain ⟨q, rfl⟩ := hb t List.mem_cons_self
    rw [List.reverse_cons, List.append_assoc, List.singleton_append,
      ih fun t ht => hb t (List.mem_cons_of_mem _ ht)]
    rfl

end Reached

/-! ## What the walk takes -/

/-- The token without the value of a `for`, which the walk moves to the address in it. -/
def ForwardedToken.clear (s : Bytes) : ForwardedToken → ForwardedToken
  | .sep => .sep
  | .param p => if p.IsFor s then .param { p with v := 0, vlen := 0 } else .param p

/-- The tokens are the same but for the values of `for`s. -/
def SameTokens (s : Bytes) (a b : List ForwardedToken) : Prop :=
  a.map (·.clear s) = b.map (·.clear s)

theorem entries_clear (s : Bytes) (ts : List ForwardedToken) :
    entries (ts.map (·.clear s)) = entries ts := by
  induction ts with
  | nil => rfl
  | cons t ts ih =>
    cases t with
    | sep => rw [List.map_cons, ForwardedToken.clear, entries, entries, ih]
    | param p =>
      rw [List.map_cons, ForwardedToken.clear]
      split_ifs <;> rw [entries, entries, ih]

section Same

variable {s : Bytes} {a b c : List ForwardedToken}

theorem SameTokens.refl (a : List ForwardedToken) : SameTokens s a a := rfl

theorem SameTokens.trans (h : SameTokens s a b) (h' : SameTokens s b c) : SameTokens s a c :=
  Eq.trans h h'

theorem SameTokens.entries_eq (h : SameTokens s a b) : entries a = entries b := by
  rw [← entries_clear s a, h, entries_clear]

theorem SameTokens.length_eq (h : SameTokens s a b) : a.length = b.length := by
  simpa using congrArg List.length h

theorem SameTokens.append_left (h : SameTokens s a b) (c : List ForwardedToken) :
    SameTokens s (c ++ a) (c ++ b) := by
  unfold SameTokens at *
  rw [List.map_append, List.map_append, h]

theorem SameTokens.append_right (h : SameTokens s a b) (c : List ForwardedToken) :
    SameTokens s (a ++ c) (b ++ c) := by
  unfold SameTokens at *
  rw [List.map_append, List.map_append, h]

/-- The value of a `for` is moved. -/
theorem sameTokens_setValue (hp : p.IsFor s) (v n : ℤ) :
    SameTokens s (a ++ .param { p with v := v, vlen := n } :: b) (a ++ .param p :: b) := by
  have hp' : ({ p with v := v, vlen := n } : ForwardedParam).IsFor s := hp
  unfold SameTokens
  rw [List.map_append, List.map_append, List.map_cons, List.map_cons]
  simp only [ForwardedToken.clear]
  rw [if_pos hp, if_pos hp']

end Same

/-- What has been found is the parameter at the entry `ofor` in `post`, behind `pre`; its value is
the address now. -/
def TakenAt (s : Bytes) (pre post : List ForwardedToken) (ofor : ℤ) (o : Option ForwardedTaken) :
    Prop :=
  ofor = -1 ∧ o = none ∨ ∃ a p b t, post = a ++ .param p :: b ∧ ofor = entries pre + entries a ∧
    o = some t ∧ p.IsFor s ∧ SameTokens s (pre ++ a) t.front.reverse ∧
    t.param.addr s = some (p.text s)

theorem TakenAt.shift {x y : List ForwardedToken} (h : TakenAt s (x ++ y) post ofor o)
    {y' : List ForwardedToken} (hsame : SameTokens s y' y) : TakenAt s x (y' ++ post) ofor o := by
  rcases h with h | ⟨a, p, b, t, rfl, h, ho, hp, hfront, haddr⟩
  · exact .inl h
  · refine .inr ⟨y' ++ a, p, b, t, by simp, ?_, ho, hp, ?_, haddr⟩
    · have hsize := hsame.entries_eq
      rw [entries_append] at h ⊢
      omega
    · rw [← List.append_assoc]
      exact ((hsame.append_left x).append_right a).trans hfront

/-- How the walk over a table with the tokens `ts` ends, where it is to end with `o`. -/
inductive WalkMeans (s : Bytes) (used : ℤ) (ts : List ForwardedToken) :
    Option (ℤ × Offsets) → Option (Option ForwardedTaken) → Prop
  | rejected : WalkMeans s used ts none none
  | taken {ofor : ℤ} {offsets : Offsets} {o : Option ForwardedTaken} {ts' : List ForwardedToken} :
      Tabled s offsets used ts' → SameTokens s ts' ts → TakenAt s [] ts' ofor o →
      WalkMeans s used ts (some (ofor, offsets)) (some o)

theorem WalkMeans.of_takenAt {pre : List ForwardedToken} (h : Tabled s offsets used (pre ++ post))
    (hsame : SameTokens s (pre ++ post) ts) (ho : TakenAt s pre post ofor o) :
    WalkMeans s used ts (some (ofor, offsets)) (some o) :=
  .taken h hsame (TakenAt.shift (x := []) ho (.refl pre))

section Taken

variable {conf : ExtforwardConf} {s : Bytes} {ts : List ForwardedToken}
  {o : Option ForwardedTaken}

theorem forwardedTaken_noFor (hb : NoFor s b) :
    forwardedTaken conf s false (b.reverse ++ ts) o = forwardedTaken conf s false ts o := by
  induction b generalizing ts with
  | nil => rfl
  | cons t b ih =>
    obtain ⟨q, rfl, hq⟩ := hb t List.mem_cons_self
    rw [List.reverse_cons, List.append_assoc, List.singleton_append,
      ih fun t ht => hb t (List.mem_cons_of_mem _ ht), forwardedTaken, if_neg hq]

theorem forwardedTaken_over :
    forwardedTaken conf s true ts o = forwardedTaken conf s false (dropElement ts) o := by
  induction ts with
  | nil => rfl
  | cons t ts ih =>
    cases t with
    | sep => rfl
    | param p =>
      rw [forwardedTaken, ih]
      rfl

end Taken

theorem Tabled.setValue (h : Tabled s offsets used (a ++ .param p :: b))
    (hvalid : ({ p with v := v, vlen := n } : ForwardedParam).Valid s) :
    Tabled s (Function.update (Function.update offsets (entries a + 2) v) (entries a + 3) n) used
      (a ++ .param { p with v := v, vlen := n } :: b) := by
  have hholds := h.holds
  rw [List.append_assoc, List.cons_append, inTable_append, zero_add] at hholds
  obtain ⟨ha, ⟨hk, hklen, -, -⟩, hb⟩ := hholds
  refine ⟨?_, ?_, ?_, h.fits⟩
  · rw [List.append_assoc, List.cons_append, inTable_append, zero_add]
    refine ⟨(ha.update (by omega)).update (by omega), ⟨?_, ?_, ?_, ?_⟩,
      (hb.update (by omega)).update (by omega)⟩ <;> grind
  · intro q hq
    rcases List.mem_append.mp hq with hq | hq
    · exact h.valid q (by simp [hq])
    · rcases List.mem_cons.mp hq with hq | hq
      · cases hq
        exact hvalid
      · exact h.valid q (by simp [hq])
  · have hsize := h.entries_eq
    simp only [entries_append, entries] at hsize ⊢
    exact hsize

/-- How a `for` with the tokens `a` in front of it is left, where the walk from it on is to end with
`taken`. -/
def VisitOk (conf : ExtforwardConf) (s : Bytes) (used : ℤ) (a ts : List ForwardedToken)
    (q : ForwardedParam) (taken : Option (Option ForwardedTaken)) : ForwardedVisit → Prop
  | .rejected => ¬ PassedOver conf s q ∧ taken = none
  | .found ofor offsets =>
    (PassedOver conf s q → dropElement a.reverse = []) ∧
      WalkMeans s used ts (some (ofor, offsets)) taken
  | .further j ofor offsets => PassedOver conf s q ∧ ∃ x y o, j = entries x - 1 ∧
      entries x ≤ entries a ∧ dropElement a.reverse = x.reverse ∧
      Tabled s offsets used (x ++ y) ∧ SameTokens s (x ++ y) ts ∧ TakenAt s x y ofor o ∧
      taken = forwardedTaken conf s false x.reverse o

theorem gives_further (h : Tabled s offsets used (a ++ b)) (hsame : SameTokens s (a ++ b) ts)
    (ho : TakenAt s a b ofor o) (hpass : PassedOver conf s q) :
    Gives (scanDown offsets 256 (entries a) >>= fun j => pure
      (if j ≤ 0 then ForwardedVisit.found ofor offsets else .further (j - 1) ofor offsets))
      (VisitOk conf s used a ts q (forwardedTaken conf s true a.reverse o)) := by
  rw [forwardedTaken_over]
  rcases exists_last_sep a with ha | ⟨x, c, rfl, hc⟩
  · have hdrop : dropElement a.reverse = [] := by
      rw [← List.append_nil a.reverse, dropElement_reverse ha]
      rfl
    have hscan : Gives (scanDown offsets 256 (entries a)) fun j => j ≤ 0 := by
      by_cases hne : a = []
      · subst hne
        exact gives_pure (by decide)
      · exact (gives_scanDown_front h ha hne).mono fun j hj => hj.le
    refine hscan.bind fun j hj => ?_
    rw [if_pos hj, hdrop]
    exact gives_pure ⟨fun _ => hdrop, .of_takenAt h hsame ho⟩
  · have hdrop : dropElement (x ++ .sep :: c).reverse = x.reverse := by
      rw [List.reverse_append, List.reverse_cons, List.append_assoc, dropElement_reverse hc]
      rfl
    refine (gives_scanDown_sep h hc).bind fun j hj => ?_
    subst hj
    split_ifs with hle
    · have hfront : dropElement (x ++ .sep :: c).reverse = [] := by
        rw [hdrop, entries_eq_zero (le_antisymm hle (entries_nonneg x))]
        rfl
      rw [hfront]
      exact gives_pure ⟨fun _ => hfront, .of_takenAt h hsame ho⟩
    · have hsize := entries_nonneg c
      rw [List.append_assoc] at h hsame
      exact gives_pure ⟨hpass, x, .sep :: c ++ b, o, rfl,
        by simp only [entries_append, entries]; omega, hdrop, h, hsame, ho.shift (.refl _),
        by rw [hdrop]⟩

theorem ends_forwardedVisit (h : Tabled s offsets used (a ++ .param q :: b))
    (hsame : SameTokens s (a ++ .param q :: b) ts) (hfor : q.IsFor s)
    (ho : TakenAt s (a ++ [.param q]) b ofor o) :
    Ends (forwardedVisit conf s (entries a) ofor offsets)
      (fun r => ¬ q.Bracket s ∧
        VisitOk conf s used a ts q (forwardedTaken conf s false (.param q :: a.reverse) o) r)
      fun f => q.Bracket s ∧ f = .offset := by
  obtain ⟨⟨-, -, hv, hn⟩, hq, h0, hle⟩ := h.param
  have hfits := h.fits
  rw [forwardedTaken, if_pos hfor]
  refine (gives_readOffset (by omega) (by omega)).then fun v hv' => ?_
  refine (gives_readOffset (by omega) (by omega)).then fun n hn' => ?_
  rw [hv', hn', hv, hn]
  obtain ⟨r, hr, hspan⟩ := gives_iff.mp (gives_forwardedForAddr hq)
  rw [ForwardedParam.addr, hr]
  rcases r with _ | ⟨v, e⟩
  · refine ends_pure ⟨hspan, ?_, rfl⟩
    rintro ⟨v, e, addr, hsome, -⟩
    rw [hr] at hsome
    simp at hsome
  · refine (gives_writeOffset (by omega) (by omega)).then fun o₁ h₁ => ?_
    refine (gives_writeOffset (by omega) (by omega)).then fun o₂ h₂ => ?_
    subst h₁ h₂
    rcases hspan with ⟨hbracket, rfl⟩ | ⟨hno, hstart, hle', hend⟩
    · -- the length -1
      have hfault : forwardedAddr s v (v - 1) = .error .offset := by
        rw [forwardedAddr, if_pos (by omega), derived, if_neg (by omega)]
      rw [hfault]
      exact ⟨hbracket, rfl⟩
    · have hv0 := hq.value
      have htab := h.setValue (v := v) (n := e - v)
        ⟨hq.key, hq.name, hq.key_end, by dsimp only; omega, by dsimp only; omega,
          by dsimp only; omega⟩
      have hsame' := (sameTokens_setValue (a := a) (b := b) hfor v (e - v)).trans hsame
      obtain ⟨addr, haddr, htext⟩ := gives_iff.mp
        (gives_forwardedAddr (s := s) (v := v) (e := e) (by omega) hle' hend)
      rw [haddr, ok_bind]
      dsimp only
      rw [← htext]
      have hempty : v ≠ e ↔ addr ≠ [] := by
        rw [htext]
        exact not_congr (span_eq_nil (by omega) hle' hend).symm
      simp only [hempty]
      have ho' : TakenAt s a (.param { q with v := v, vlen := e - v } :: b)
          (if addr ≠ [] ∧ ¬ isObfuscated addr then entries a else ofor)
          (if addr ≠ [] ∧ ¬ isObfuscated addr then some ⟨q, a.reverse⟩ else o) := by
        split_ifs
        · refine .inr ⟨[], _, b, ⟨q, a.reverse⟩, rfl, by simp [entries], rfl, hfor, ?_, ?_⟩
          · rw [List.append_nil, List.reverse_reverse]
            exact .refl a
          · rw [ForwardedParam.addr, hr]
            rfl
        · exact ho.shift (sameTokens_setValue (a := []) (b := []) hfor v (e - v))
      generalize (if addr ≠ [] ∧ ¬ isObfuscated addr then entries a else ofor) = ofor' at ho' ⊢
      generalize (if addr ≠ [] ∧ ¬ isObfuscated addr then some ⟨q, a.reverse⟩ else o) = o' at ho' ⊢
      split_ifs with huntrusted
      · refine ends_pure ⟨hno, ?_, .of_takenAt htab hsame' ho'⟩
        rintro ⟨v', e', addr', hsome, haddr', htrusted⟩
        obtain ⟨rfl, rfl⟩ := Prod.mk.inj (Option.some.inj (Except.ok.inj (hr.symm.trans hsome)))
        cases Except.ok.inj (haddr.symm.trans haddr')
        rcases htrusted with htrusted | htrusted
        · exact absurd htrusted (hempty.mpr huntrusted.1)
        · exact absurd htrusted huntrusted.2
      · have hpass : PassedOver conf s q := by
          refine ⟨v, e, addr, hr, haddr, ?_⟩
          by_contra hnot
          simp only [not_or] at hnot
          exact huntrusted ⟨hempty.mp hnot.1, hnot.2⟩
        exact Ends.mono (gives_further htab hsame' ho' hpass) (fun r hr => ⟨hno, hr⟩)
          fun _ => False.elim

/-- The walk over the tokens `pre`, with `post` behind them: it ends, it comes to a fault just if it
comes to the value `"["`, and it takes the `for` that it is to take. -/
theorem ends_forwardedWalk (conf : ExtforwardConf) (fuel : ℕ) (pre post : List ForwardedToken)
    (ofor : ℤ) (offsets : Offsets) (o : Option ForwardedTaken)
    (h : Tabled s offsets used (pre ++ post)) (hsame : SameTokens s (pre ++ post) ts)
    (ho : TakenAt s pre post ofor o) (hfuel : entries pre < fuel) :
    Ends (forwardedWalk conf s fuel (entries pre - 1) ofor offsets)
      (fun r => ¬ BracketReached conf s pre.reverse ∧
        WalkMeans s used ts r (forwardedTaken conf s false pre.reverse o))
      fun f => BracketReached conf s pre.reverse ∧ f = .offset := by
  induction fuel generalizing pre post ofor offsets o with
  | zero => have := entries_nonneg pre; omega
  | succ fuel ih =>
    have hfits := h.fits
    rcases List.eq_nil_or_concat' pre with rfl | ⟨a, t, rfl⟩
    · rw [forwardedWalk, if_neg (by simp [entries])]
      exact ends_pure ⟨not_bracketReached_nil, .of_takenAt h hsame ho⟩
    · have ha := entries_nonneg a
      rw [List.append_assoc, List.singleton_append] at h hsame
      rw [entries_append] at hfuel
      cases t with
      | sep =>
        simp only [entries] at hfuel
        rw [List.reverse_append, List.reverse_singleton, List.singleton_append,
          bracketReached_sep, forwardedTaken,
          show entries (a ++ [.sep]) - 1 = entries a by simp [entries_append, entries],
          forwardedWalk]
        obtain ⟨he, -, hle⟩ := h.sep
        have ho' : TakenAt s a (.sep :: post) ofor o := ho.shift (.refl [.sep])
        split_ifs with hpos
        · refine (gives_readOffset ha (by omega)).then fun e he' => ?_
          rw [if_pos (he'.trans he)]
          exact ih a (.sep :: post) ofor offsets o h hsame ho' (by push_cast at hfuel; omega)
        · obtain rfl := entries_eq_zero (le_antisymm (not_lt.mp hpos) ha)
          exact ends_pure ⟨not_bracketReached_nil, .of_takenAt h hsame ho'⟩
      | param p =>
        simp only [entries] at hfuel
        obtain ⟨⟨-, -, -, hvlen⟩, hp, -, hle⟩ := h.param
        have hlen := hp.len
        have hlast : entries (a ++ [.param p]) - 1 = entries a + 3 := by
          simp only [entries_append, entries]
          omega
        rw [hlast, forwardedWalk, if_pos (by omega)]
        refine (gives_readOffset (by omega) (by omega)).then fun e he => ?_
        rw [hvlen] at he
        rw [if_neg (by omega)]
        refine (gives_forwardedFindFor 256 h (by omega)).then fun j hj => ?_
        rcases hj with ⟨x, q, b, heq, hb, hq, rfl⟩ | ⟨x, b, heq, hb, rfl⟩ | ⟨hno, rfl⟩
        · -- a `for`
          have hsplit : a ++ .param p :: post = x ++ .param q :: (b ++ post) := by
            rw [← List.singleton_append, ← List.append_assoc, heq]
            simp
          rw [hsplit] at h hsame
          rw [heq] at ho ⊢
          rw [List.reverse_append, List.reverse_cons, List.append_assoc, bracketReached_noFor hb,
            forwardedTaken_noFor hb, List.singleton_append]
          obtain ⟨⟨hk, -⟩, hqv, hx, hxle⟩ := h.param
          have hk0 := hqv.key
          rw [if_neg (by omega)]
          refine (gives_readOffset hx (by omega)).then fun e he => ?_
          rw [hk] at he
          rw [if_neg (by omega)]
          have ho' : TakenAt s (x ++ [.param q]) (b ++ post) ofor o :=
            TakenAt.shift (y := b) (by simpa using ho) (.refl b)
          refine Ends.bind ((ends_forwardedVisit h hsame hq ho').mono (fun _ => id)
            fun f hf => ⟨.bracket hq hf.1, hf.2⟩) fun r hr => ?_
          obtain ⟨hnb, hr⟩ := hr
          rw [bracketReached_for hq hnb]
          cases r with
          | rejected =>
            rw [hr.2]
            exact ends_pure ⟨fun h => hr.1 h.1, .rejected⟩
          | found ofor' offsets' =>
            refine ends_pure ⟨fun h => ?_, hr.2⟩
            rw [hr.1 h.1] at h
            exact not_bracketReached_nil h.2
          | further j ofor' offsets' =>
            obtain ⟨hpass, y, z, o', rfl, hsize, hdrop, htab, hsame', ho', htaken⟩ := hr
            rw [hdrop, htaken]
            simp only [hpass, true_and]
            have hb0 := entries_nonneg b
            have htotal := congrArg entries heq
            simp only [entries_append, entries] at htotal
            exact ih y z ofor' offsets' o' htab hsame' ho' (by push_cast at hfuel; omega)
        · -- a comma, with no `for` behind it
          have hsplit : a ++ .param p :: post = x ++ .sep :: (b ++ post) := by
            rw [← List.singleton_append, ← List.append_assoc, heq]
            simp
          rw [hsplit] at h hsame
          rw [heq] at ho ⊢
          rw [List.reverse_append, List.reverse_cons, List.append_assoc, bracketReached_noFor hb,
            forwardedTaken_noFor hb, List.singleton_append, bracketReached_sep, forwardedTaken]
          obtain ⟨hsep, hx, hxle⟩ := h.sep
          rw [if_neg (by omega)]
          refine (gives_readOffset hx (by omega)).then fun e he => ?_
          rw [if_pos (he.trans hsep)]
          have hb0 := entries_nonneg b
          have htotal := congrArg entries heq
          simp only [entries_append, entries] at htotal
          have ho' : TakenAt s x (.sep :: (b ++ post)) ofor o := by
            simpa using ho.shift (.refl (.sep :: b))
          exact ih x (.sep :: (b ++ post)) ofor offsets o h hsame ho'
            (by push_cast at hfuel; omega)
        · have hnot : ¬ BracketReached conf s (a ++ [ForwardedToken.param p]).reverse := by
            rw [← List.append_nil (List.reverse _), bracketReached_noFor hno]
            exact not_bracketReached_nil
          have htaken : forwardedTaken conf s false (a ++ [ForwardedToken.param p]).reverse o =
              some o := by
            rw [← List.append_nil (List.reverse _), forwardedTaken_noFor hno]
            rfl
          rw [if_pos (by decide), htaken]
          rw [← List.singleton_append, ← List.append_assoc] at h hsame
          exact ends_pure ⟨hnot, .of_takenAt h hsame ho⟩

end Lighttpd
