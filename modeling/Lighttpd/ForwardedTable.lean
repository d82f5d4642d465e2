import Mathlib.Data.List.GetD
import Lighttpd.Forwarded
import Lighttpd.Lib.FaultRuns

/-!
# The table of a Forwarded header

A comma is one entry of the table and a parameter is four. `forwardedTokens` is what the first loop
would note if the table had no end, `InTable` says that it is in the table, and `CommaOverflows`
that a comma does not fit any more. `ends_forwardedFill` says how the first loop ends.
-/

namespace Lighttpd

open CString FaultRuns

/-! ## Scanning -/

/-- The byte at `i`, or the NUL behind the value. -/
def byteAt (s : Bytes) (i : ℤ) : UInt8 := s.getD i.toNat 0

variable {s : Bytes} {i j : ℤ} {offsets : Offsets}

theorem lt_length_of_byteAt (h0 : 0 ≤ i) (h : byteAt s i ≠ 0) : i < s.length := by
  by_contra hi
  refine h (List.getD_eq_default _ _ ?_)
  omega

theorem gives_readByte (h0 : 0 ≤ i) (h : i ≤ s.length) :
    Gives (readByte s i) fun c => c = byteAt s i := by
  rw [readByte, if_pos ⟨h0, h⟩]
  exact gives_pure rfl

theorem gives_findEndQuotedString (fuel : ℕ) (i : ℤ) (h0 : 0 ≤ i) (hi : i < s.length)
    (hfuel : s.length - i ≤ fuel) :
    Gives (findEndQuotedString s fuel i) fun e => i < e ∧ e ≤ s.length := by
  induction fuel generalizing i with
  | zero => omega
  | succ fuel ih =>
    refine (gives_readByte (by omega) (by omega)).bind fun c hc => ?_
    split_ifs with hend hback
    · exact gives_pure ⟨by omega, by omega⟩
    · have hlt := lt_length_of_byteAt (s := s) (i := i + 1) (by omega) (by rw [← hc, hback]; decide)
      refine (gives_readByte (by omega) (by omega)).bind fun d hd => ?_
      split_ifs with hnul
      · exact gives_pure ⟨by omega, by omega⟩
      · have hlt := lt_length_of_byteAt (s := s) (i := i + 2) (by omega) (hd ▸ hnul)
        exact (ih (i + 2) (by omega) hlt (by push_cast at hfuel; omega)).mono
          fun e he => ⟨by omega, he.2⟩
    · have hlt := lt_length_of_byteAt (s := s) (i := i + 1) (by omega) (hc ▸ fun h => hend (.inr h))
      exact (ih (i + 1) (by omega) hlt (by push_cast at hfuel; omega)).mono
        fun e he => ⟨by omega, he.2⟩

/-- The bytes that `findNext` stops at. -/
def StopsAt (eq : Bool) (c : UInt8) : Prop := (eq ∧ c = 61) ∨ c = 59 ∨ c = 44 ∨ c = 0

theorem gives_findNext (eq : Bool) (fuel : ℕ) (i : ℤ) (h0 : 0 ≤ i) (hi : i ≤ s.length)
    (hfuel : s.length - i < fuel) :
    Gives (findNext eq s fuel i) fun r =>
      ∀ e, r = some e → i ≤ e ∧ e ≤ s.length ∧ StopsAt eq (byteAt s e) := by
  induction fuel generalizing i with
  | zero => omega
  | succ fuel ih =>
    refine (gives_readByte h0 hi).bind fun c hc => ?_
    split_ifs with hstop hquote
    · refine gives_pure ?_
      rintro e ⟨⟩
      exact ⟨le_rfl, hi, hc ▸ hstop⟩
    · have hlt := lt_length_of_byteAt h0 (by rw [← hc, hquote]; decide)
      refine (gives_findEndQuotedString _ i h0 hlt (by push_cast; omega)).bind fun e he => ?_
      refine (gives_readByte (by omega) he.2).bind fun d hd => ?_
      split_ifs with hnul
      · exact gives_pure fun e h => absurd h (by simp)
      · have hlt := lt_length_of_byteAt (s := s) (i := e) (by omega) (hd ▸ hnul)
        exact (ih (e + 1) (by omega) (by omega) (by push_cast at hfuel; omega)).mono
          fun r hr e' he' => ⟨by have := (hr e' he').1; omega, (hr e' he').2⟩
    · have hlt := lt_length_of_byteAt h0 (hc ▸ fun h => hstop (.inr (.inr (.inr h))))
      exact (ih (i + 1) (by omega) (by omega) (by push_cast at hfuel; omega)).mono
        fun r hr e he => ⟨by have := (hr e he).1; omega, (hr e he).2⟩

theorem gives_skipForwardedBlanks (fuel : ℕ) (i : ℤ) (h0 : 0 ≤ i) (hi : i ≤ s.length)
    (hfuel : s.length - i < fuel) :
    Gives (skipForwardedBlanks s fuel i) fun e => i ≤ e ∧ e ≤ s.length := by
  induction fuel generalizing i with
  | zero => omega
  | succ fuel ih =>
    refine (gives_readByte h0 hi).bind fun c hc => ?_
    split_ifs with hblank
    · have hlt := lt_length_of_byteAt h0 (by rw [← hc]; rcases hblank with rfl | rfl <;> decide)
      exact (ih (i + 1) (by omega) (by omega) (by push_cast at hfuel; omega)).mono
        fun e he => ⟨by omega, he.2⟩
    · exact gives_pure ⟨le_rfl, hi⟩

/-- Key and value are in the header value. -/
structure ForwardedParam.Valid (s : Bytes) (p : ForwardedParam) : Prop where
  key : 0 ≤ p.k
  name : 0 < p.klen
  key_end : p.k + p.klen ≤ s.length
  value : 0 ≤ p.v
  len : 0 ≤ p.vlen
  value_end : p.v + p.vlen ≤ s.length

/-- A turn goes on further along the value, and a parameter is in it. -/
def ScanOk (s : Bytes) (i : ℤ) : ForwardedScan → Prop
  | .skip e => i < e ∧ e ≤ s.length
  | .comma e => i < e ∧ e ≤ s.length
  | .param p e => i < e ∧ e ≤ s.length ∧ p.Valid s
  | .stop => True
  | .invalid => True

theorem gives_forwardedScan (h0 : 0 ≤ i) (hi : i ≤ s.length) :
    Gives (forwardedScan s i) (ScanOk s i) := by
  refine (gives_skipForwardedBlanks _ i h0 hi (by push_cast; omega)).bind fun k hk => ?_
  have hk0 : 0 ≤ k := by omega
  refine (gives_readByte hk0 hk.2).bind fun c hc => ?_
  split_ifs with hsemi hcomma hnul
  · have hlt := lt_length_of_byteAt hk0 (by rw [← hc, hsemi]; decide)
    exact gives_pure ⟨by omega, by omega⟩
  · have hlt := lt_length_of_byteAt hk0 (by rw [← hc, hcomma]; decide)
    exact gives_pure ⟨by omega, by omega⟩
  · exact gives_pure trivial
  · refine (gives_findNext true _ k hk0 hk.2 (by push_cast; omega)).bind fun r hr => ?_
    rcases r with _ | e
    · exact gives_pure trivial
    · obtain ⟨hke, he, hstop⟩ := hr e rfl
      have he0 : 0 ≤ e := by omega
      refine (gives_readByte he0 he).bind fun d hd => ?_
      by_cases heq : d = 61
      · rw [if_neg (not_not.mpr heq)]
        have hlt := lt_length_of_byteAt he0 (by rw [← hd, heq]; decide)
        refine (gives_findNext false _ (e + 1) (by omega) (by omega) (by push_cast; omega)).bind
          fun r' hr' => ?_
        rcases r' with _ | e'
        · exact gives_pure trivial
        · obtain ⟨hee', he', -⟩ := hr' e' rfl
          dsimp only
          split_ifs with hklen
          · exact gives_pure ⟨by omega, he'⟩
          · exact gives_pure ⟨by omega, he', ⟨hk0, by dsimp only; omega, by dsimp only; omega,
              by dsimp only; omega, by dsimp only; omega, by dsimp only; omega⟩⟩
      · rw [if_pos heq]
        -- `k` is at no byte that ends a key, so the key is not empty
        have hne : e ≠ k := by
          rintro rfl
          rcases hstop with h | h | h | h
          · exact heq (hd.trans h.2)
          · exact hsemi (hc.trans h)
          · exact hcomma (hc.trans h)
          · exact hnul (hc.trans h)
        exact gives_pure ⟨by omega, he⟩

/-! ## Tokens -/

/-- What the first loop notes: a comma, or a parameter. -/
inductive ForwardedToken
  | sep
  | param (p : ForwardedParam)
  deriving DecidableEq, Repr

/-- How many entries the tokens take. -/
def entries : List ForwardedToken → ℤ
  | [] => 0
  | .sep :: ts => entries ts + 1
  | .param _ :: ts => entries ts + 4

/-- What the first loop notes from `i` on in a table with no end, and whether it comes to the end of
the value and not to a quotation mark without another. -/
def forwardedTokens (s : Bytes) : ℕ → ℤ → ForwardedRun (List ForwardedToken × Bool)
  | 0, _ => .error .fuel
  | fuel + 1, i =>
    if i < s.length then do
      match ← forwardedScan s i with
      | .skip i => forwardedTokens s fuel i
      | .stop => pure ([], true)
      | .invalid => pure ([], false)
      | .comma i => do
        let r ← forwardedTokens s fuel i
        pure (.sep :: r.1, r.2)
      | .param p i => do
        let r ← forwardedTokens s fuel i
        pure (.param p :: r.1, r.2)
    else pure ([], true)

/-- With `n` entries in the table, a comma comes when all 256 are in use. A parameter that does not
fit ends the loop. -/
def CommaOverflows (n : ℤ) : List ForwardedToken → Prop
  | [] => False
  | .sep :: ts => n = 256 ∨ CommaOverflows (n + 1) ts
  | .param _ :: ts => n ≤ 252 ∧ CommaOverflows (n + 4) ts

instance decidableCommaOverflows :
    (n : ℤ) → (ts : List ForwardedToken) → Decidable (CommaOverflows n ts)
  | _, [] => instDecidableFalse
  | n, .sep :: ts => @instDecidableOr _ _ (inferInstance) (decidableCommaOverflows (n + 1) ts)
  | n, .param _ :: ts => @instDecidableAnd _ _ (inferInstance) (decidableCommaOverflows (n + 4) ts)

/-- The tokens are in the table from entry `n` on. -/
def InTable (offsets : Offsets) (n : ℤ) : List ForwardedToken → Prop
  | [] => True
  | .sep :: ts => offsets n = -1 ∧ InTable offsets (n + 1) ts
  | .param p :: ts => (offsets n = p.k ∧ offsets (n + 1) = p.klen ∧ offsets (n + 2) = p.v ∧
      offsets (n + 3) = p.vlen) ∧ InTable offsets (n + 4) ts

theorem entries_nonneg (ts : List ForwardedToken) : 0 ≤ entries ts := by
  induction ts with
  | nil => exact le_rfl
  | cons t ts ih => cases t <;> simp only [entries] <;> omega

theorem entries_append (a b : List ForwardedToken) : entries (a ++ b) = entries a + entries b := by
  induction a with
  | nil => simp [entries]
  | cons t a ih => cases t <;> simp only [List.cons_append, entries, ih] <;> omega

theorem inTable_append {n : ℤ} {a b : List ForwardedToken} :
    InTable offsets n (a ++ b) ↔ InTable offsets n a ∧ InTable offsets (n + entries a) b := by
  induction a generalizing n with
  | nil => simp [InTable, entries]
  | cons t a ih =>
    cases t with
    | sep =>
      rw [List.cons_append, InTable, InTable, ih, entries,
        show n + 1 + entries a = n + (entries a + 1) by omega]
      exact and_assoc.symm
    | param p =>
      rw [List.cons_append, InTable, InTable, ih, entries,
        show n + 4 + entries a = n + (entries a + 4) by omega]
      exact and_assoc.symm

variable {ts : List ForwardedToken}

/-- An entry in front of the tokens or behind them can change. -/
theorem InTable.update {n m v : ℤ} (h : InTable offsets n ts) (hm : m < n ∨ n + entries ts ≤ m) :
    InTable (Function.update offsets m v) n ts := by
  induction ts generalizing n with
  | nil => trivial
  | cons t ts ih =>
    have hsize := entries_nonneg ts
    cases t with
    | sep =>
      simp only [entries] at hm
      refine ⟨?_, ih h.2 (by omega)⟩
      rw [Function.update_of_ne (by omega)]
      exact h.1
    | param p =>
      simp only [entries] at hm
      refine ⟨?_, ih h.2 (by omega)⟩
      repeat rw [Function.update_of_ne (by omega)]
      exact h.1

theorem gives_readOffset (h0 : 0 ≤ j) (h : j < 256) :
    Gives (readOffset offsets j) fun v => v = offsets j := by
  rw [readOffset, if_pos ⟨h0, h⟩]
  exact gives_pure rfl

theorem gives_writeOffset {v : ℤ} (h0 : 0 ≤ j) (h : j < 256) :
    Gives (writeOffset offsets j v) fun o => o = Function.update offsets j v := by
  rw [writeOffset, if_pos ⟨h0, h⟩]
  exact gives_pure rfl

theorem gives_writeParam (p : ForwardedParam) (h0 : -1 ≤ j) (h : j < 252)
    (hsize : entries ts = j + 1) (hts : InTable offsets 0 ts) :
    Gives (writeParam offsets j p) fun o => InTable o 0 (ts ++ [.param p]) := by
  refine (gives_writeOffset (by omega) (by omega)).bind fun o₁ h₁ => ?_
  refine (gives_writeOffset (by omega) (by omega)).bind fun o₂ h₂ => ?_
  refine (gives_writeOffset (by omega) (by omega)).bind fun o₃ h₃ => ?_
  refine (gives_writeOffset (by omega) (by omega)).mono fun o₄ h₄ => ?_
  subst h₁ h₂ h₃ h₄
  rw [inTable_append]
  refine ⟨?_, ?_, trivial⟩
  · exact (((hts.update (by omega)).update (by omega)).update (by omega)).update (by omega)
  · simp only [hsize, zero_add]
    refine ⟨?_, ?_, ?_, ?_⟩ <;> grind

/-- How the first loop ends: all tokens are in the table and the value is at its end, or it stops
for a table with more entries than are allowed, or it rejects the header. -/
def FillOk (ts : List ForwardedToken) (atEnd : Bool) : Option (ℤ × Offsets) → Prop
  | none => atEnd = false
  | some (j, offsets) => 252 ≤ j ∧ 252 < entries ts ∨
      atEnd = true ∧ j + 1 = entries ts ∧ InTable offsets 0 ts

theorem gives_writeSep (h0 : -1 ≤ j) (h : j < 255) (hsize : entries ts = j + 1)
    (hts : InTable offsets 0 ts) :
    Gives (writeOffset offsets (j + 1) (-1)) fun o => InTable o 0 (ts ++ [.sep]) := by
  refine (gives_writeOffset (by omega) (by omega)).mono fun o ho => ?_
  subst ho
  rw [inTable_append]
  exact ⟨hts.update (by omega), by simp [hsize], trivial⟩

theorem gives_forwardedTokens (fuel : ℕ) (i : ℤ) (h0 : 0 ≤ i) (hi : i ≤ s.length)
    (hfuel : s.length - i < fuel) :
    Gives (forwardedTokens s fuel i) fun r => ∀ p, .param p ∈ r.1 → p.Valid s := by
  induction fuel generalizing i with
  | zero => omega
  | succ fuel ih =>
    rw [forwardedTokens]
    by_cases hlt : i < s.length
    · rw [if_pos hlt]
      refine (gives_forwardedScan h0 hi).bind fun r hr => ?_
      cases r with
      | skip e =>
        exact ih e (by have := hr.1; omega) hr.2 (by have := hr.1; push_cast at hfuel; omega)
      | stop => exact gives_pure (by simp)
      | invalid => exact gives_pure (by simp)
      | comma e =>
        refine (ih e (by have := hr.1; omega) hr.2
          (by have := hr.1; push_cast at hfuel; omega)).bind fun r hval => ?_
        exact gives_pure (by simpa using hval)
      | param p e =>
        obtain ⟨hie, he, hp⟩ := hr
        refine (ih e (by omega) he (by push_cast at hfuel; omega)).bind fun r hval => ?_
        refine gives_pure fun q hq => ?_
        rcases List.mem_cons.mp hq with hq | hq
        · cases hq
          exact hp
        · exact hval q hq
    · rw [if_neg hlt]
      exact gives_pure (by simp)

/-- The first loop with the tokens `pre` in the table. -/
theorem ends_forwardedFill (fuel : ℕ) (i j : ℤ) (offsets : Offsets) (pre : List ForwardedToken)
    (h0 : 0 ≤ i) (hi : i ≤ s.length) (hfuel : s.length - i < fuel) (hpre : InTable offsets 0 pre)
    (hj : entries pre = j + 1) (hle : j ≤ 255) {atEnd : Bool}
    (hts : forwardedTokens s fuel i = .ok (ts, atEnd)) :
    Ends (forwardedFill s fuel i j offsets)
      (fun r => ¬ CommaOverflows (j + 1) ts ∧ FillOk (pre ++ ts) atEnd r)
      fun e => CommaOverflows (j + 1) ts ∧ e = .index := by
  induction fuel generalizing i j offsets pre ts with
  | zero => omega
  | succ fuel ih =>
    have hpos := entries_nonneg pre
    have hdone : FillOk pre true (some (j, offsets)) := .inr ⟨rfl, hj.symm, hpre⟩
    rw [forwardedTokens] at hts
    rw [forwardedFill]
    by_cases hlt : i < s.length
    · rw [if_pos hlt] at hts ⊢
      obtain ⟨r, hr, hok⟩ := gives_iff.mp (gives_forwardedScan h0 hi)
      rw [hr] at hts ⊢
      cases r with
      | skip e =>
        exact ih e j offsets pre (by have := hok.1; omega) hok.2
          (by have := hok.1; push_cast at hfuel; omega) hpre hj hle hts
      | stop =>
        cases hts
        exact ends_pure ⟨id, by rwa [List.append_nil]⟩
      | invalid =>
        cases hts
        exact ends_pure ⟨id, rfl⟩
      | comma e =>
        obtain ⟨hie, he⟩ := hok
        have hfuel' : s.length - e < fuel := by push_cast at hfuel; omega
        obtain ⟨⟨ts, b⟩, htok, -⟩ :=
          gives_iff.mp (gives_forwardedTokens fuel e (by omega) he hfuel')
        dsimp only [ok_bind] at hts ⊢
        rw [htok] at hts
        cases hts
        rw [if_neg (by omega)]
        by_cases hfull : j = 255
        · subst hfull
          exact ⟨.inl (by norm_num), rfl⟩
        · refine (gives_writeSep (by omega) (by omega) hj hpre).then fun o ho => ?_
          refine (ih e (j + 1) o (pre ++ [.sep]) (by omega) he hfuel' ho
            (by simp [entries_append, entries, hj]) (by omega) htok).mono ?_ ?_
          · rintro r ⟨hov, hfill⟩
            refine ⟨?_, by rwa [List.append_assoc] at hfill⟩
            rintro (h | h)
            · omega
            · exact hov h
          · exact fun f hf => ⟨.inr hf.1, hf.2⟩
      | param p e =>
        obtain ⟨hie, he, hp⟩ := hok
        have hfuel' : s.length - e < fuel := by push_cast at hfuel; omega
        obtain ⟨⟨ts, b⟩, htok, -⟩ :=
          gives_iff.mp (gives_forwardedTokens fuel e (by omega) he hfuel')
        dsimp only [ok_bind] at hts ⊢
        rw [htok] at hts
        cases hts
        by_cases hfull : 252 ≤ j
        · rw [if_pos hfull]
          have hsize := entries_nonneg ts
          refine ends_pure ⟨fun h => by have := h.1; omega, .inl ⟨hfull, ?_⟩⟩
          simp only [entries_append, entries]
          omega
        · rw [if_neg hfull]
          refine (gives_writeParam p (by omega) (by omega) hj hpre).then fun o ho => ?_
          refine (ih e (j + 4) o (pre ++ [.param p]) (by omega) he hfuel' ho
            (by simp only [entries_append, entries]; omega) (by omega) htok).mono ?_ ?_
          · rintro r ⟨hov, hfill⟩
            rw [show j + 4 + 1 = j + 1 + 4 by omega] at hov
            exact ⟨fun h => hov h.2, by rwa [List.append_assoc] at hfill⟩
          · rintro f ⟨hov, hf⟩
            rw [show j + 4 + 1 = j + 1 + 4 by omega] at hov
            exact ⟨⟨by omega, hov⟩, hf⟩
    · rw [if_neg hlt] at hts ⊢
      cases hts
      exact ends_pure ⟨id, by rwa [List.append_nil]⟩

end Lighttpd
