import Lighttpd.SsiExprParser

/-!
# The evaluation of expressions in server-side includes

`ssi_eval_expr` hands the tokens of an expression to the parser until the text ends, a token is
invalid, or the parser has failed. `ssiEvalExpr_ends_iff` says for which expressions it ends with a
result: it must not come to a byte that starts no token, which is never read over, nor to `${}`,
where an assertion fails, nor to the end of the text with nothing on the stack, where the result was
never set.
-/

namespace Lighttpd

open CString

/-- How `ssi_eval_expr` ends. The result is missing where `context.val.bo` was never set. -/
inductive SsiEvaluated
  | returned (ret : Option ℤ)
  | aborted
  | undefined
  | running
  deriving DecidableEq, Repr

/-- `ssi_eval_expr` behind its loop. -/
def ssiEvalEnd (ret : ℤ) (p : SsiParser) : SsiEvaluated :=
  match ssiexprparser p 0 [] with
  | none => .undefined
  | some p => if ret = -1 then .returned (some (-1))
    else if p.ok = false then .returned (some (-1))
    else .returned p.bo

/-- The loop of `ssi_eval_expr` with the text from `offset` on, which is run at most `fuel` times. -/
def ssiEvalLoop (env : SsiEnv) : ℕ → Bytes → SsiParser → SsiEvaluated
  | 0, _, _ => .running
  | fuel + 1, s, p =>
    match ssiExprTokenizer env s with
    | .token tid token rest =>
      if p.ok then
        match ssiexprparser p tid token with
        | none => .undefined
        | some p => ssiEvalLoop env fuel rest p
      else ssiEvalEnd 1 p
    | .stop => ssiEvalEnd 0 p
    | .failed => ssiEvalEnd (-1) p
    | .aborted => .aborted

/-- `ssi_eval_expr` with at most `fuel` calls of the tokenizer. -/
def ssiEvalExpr (env : SsiEnv) (fuel : ℕ) (expr : Bytes) : SsiEvaluated :=
  ssiEvalLoop env fuel (cstr expr) ssiexprparserAlloc

/-- Where `ssi_eval_expr` calls the tokenizer: the text from `offset` on, and the parser. -/
inductive SsiReached (env : SsiEnv) (expr : Bytes) : Bytes → SsiParser → Prop
  | start : SsiReached env expr (cstr expr) ssiexprparserAlloc
  | token {s token rest : Bytes} {p p' : SsiParser} {tid : ℕ} : SsiReached env expr s p →
      ssiExprTokenizer env s = .token tid token rest → p.ok = true →
      ssiexprparser p tid token = some p' → SsiReached env expr rest p'

/-- Each call of the tokenizer that returns 1 advances the offset, and with one turn of the loop for
each byte `ssi_eval_expr` returns -1, 0 or 1. -/
def SsiEvalEnds (env : SsiEnv) (expr : Bytes) : Prop :=
  (∀ s p, SsiReached env expr s p → ∀ tid token rest,
    ssiExprTokenizer env s = .token tid token rest → rest.length < s.length) ∧
  ∃ ret ∈ [-1, 0, 1], ssiEvalExpr env ((cstr expr).length + 1) expr = .returned (some ret)

/-- No byte that starts no token is next, nor `${}`; and if the text has ended, the parser has
failed or has something on its stack. -/
structure SsiProceeds (s : Bytes) (p : SsiParser) : Prop where
  token : ¬ AtNoToken s
  name : ¬ AtNoName s
  stack : skipBlanks s = [] → p.ok = true → p.yystack ≠ []

/-! ## Runs -/

/-- A parser whose result is not set yet. -/
structure SsiBetween (p : SsiParser) : Prop where
  ready : YyBetween p
  bo : p.bo = none

theorem ssiBetween_alloc : SsiBetween ssiexprparserAlloc := ⟨.inl rfl, rfl⟩

variable {p : SsiParser} {env : SsiEnv} {expr s : Bytes}

theorem SsiBetween.ssiexprparser (h : SsiBetween p) {tid : ℕ} (hid : IsTerminal tid) (token : Bytes) :
    ∃ p', ssiexprparser p tid token = some p' ∧ SsiBetween p' := by
  have hne : tid ≠ 0 := hid.1.ne'
  obtain ⟨p', hp', hdone⟩ :=
    ssiexprparser_spec h.ready (Nat.lt_succ_of_le hid.2) token (.inr hne)
  exact ⟨p', hp', hdone.ready, (hdone.bo hne).trans h.bo⟩

theorem SsiReached.ssiBetween (h : SsiReached env expr s p) : SsiBetween p := by
  induction h with
  | start => exact ssiBetween_alloc
  | token _ htok _ hp ih =>
    obtain ⟨p', hp', hbetween⟩ := ih.ssiexprparser (ssiExprTokenizer_token htok).1 _
    obtain rfl := Option.some.inj (hp.symm.trans hp')
    exact hbetween

/-- Behind the loop -1, 0 or 1 is returned, unless the stack is empty without a failure. -/
theorem ssiEvalEnd_spec (h : SsiBetween p) (ret : ℤ)
    (hstack : ret ≠ -1 → p.ok = true → p.yystack ≠ []) :
    ∃ r ∈ [-1, 0, 1], ssiEvalEnd ret p = .returned (some r) := by
  obtain ⟨p', hp', hok', hbo⟩ : ∃ p', ssiexprparser p 0 [] = some p' ∧
      (p'.ok = true → p.ok = true) ∧
      (p.yystack ≠ [] → p'.ok = true → ∃ b, p'.bo = some b ∧ IsTruth b) := by
    by_cases hst : p.yystack = []
    · exact ⟨p, ssiexprparser_nil hst _, id, fun h => absurd hst h⟩
    · obtain ⟨p', hp', hdone⟩ := ssiexprparser_spec h.ready (m := 0) (by decide) [] (.inl hst)
      exact ⟨p', hp', hdone.ok, fun _ => (hdone.atEnd rfl).2⟩
  rw [ssiEvalEnd, hp']
  by_cases hret : ret = -1
  · exact ⟨-1, by simp, by simp [hret]⟩
  by_cases hok : p'.ok = true
  · obtain ⟨b, hb, hb01⟩ := hbo (hstack hret (hok' hok)) hok
    refine ⟨b, ?_, by simp [hret, hok, hb]⟩
    rcases hb01 with rfl | rfl <;> simp
  · exact ⟨-1, by simp, by simp [hret, hok]⟩

theorem ssiEvalEnd_nil (h : SsiBetween p) (hst : p.yystack = []) (hok : p.ok = true) {ret : ℤ}
    (hret : ret ≠ -1) : ssiEvalEnd ret p = .returned none := by
  rw [ssiEvalEnd, ssiexprparser_nil hst]
  simp [hret, hok, h.bo]

theorem SsiReached.returned (h : SsiReached env expr s p) {fuel : ℕ} {r : Option ℤ}
    (hr : ssiEvalExpr env fuel expr = .returned r) :
    ∃ fuel', ssiEvalLoop env (fuel' + 1) s p = .returned r := by
  induction h with
  | start =>
    cases fuel with
    | zero => cases hr
    | succ fuel => exact ⟨fuel, hr⟩
  | token _ htok hok hp ih =>
    obtain ⟨n, hn⟩ := ih
    rw [ssiEvalLoop, htok] at hn
    simp only [hok, if_true, hp] at hn
    cases n with
    | zero => cases hn
    | succ n => exact ⟨n, hn⟩

/-- Where the conditions hold at each call, a turn for each byte that is left is enough. -/
theorem SsiReached.ends (hproceeds : ∀ s p, SsiReached env expr s p → SsiProceeds s p)
    (h : SsiReached env expr s p) {fuel : ℕ} (hfuel : s.length ≤ fuel) :
    ∃ ret ∈ [-1, 0, 1], ssiEvalLoop env (fuel + 1) s p = .returned (some ret) := by
  induction fuel generalizing s p with
  | zero =>
    obtain rfl : s = [] := List.length_eq_zero_iff.mp (Nat.le_zero.mp hfuel)
    exact ssiEvalEnd_spec h.ssiBetween 0 fun _ hok => (hproceeds _ _ h).stack rfl hok
  | succ fuel ih =>
    obtain ⟨htoken, hname, hstack⟩ := hproceeds s p h
    rw [ssiEvalLoop]
    cases ht : ssiExprTokenizer env s with
    | token tid token rest =>
      simp only
      obtain ⟨hid, hlt⟩ := ssiExprTokenizer_token ht
      by_cases hok : p.ok = true
      · obtain ⟨p', hp', -⟩ := h.ssiBetween.ssiexprparser hid token
        rw [if_pos hok, hp']
        exact ih (h.token ht hok hp') (Nat.le_of_lt_succ ((hlt.mpr htoken).trans_le hfuel))
      · rw [if_neg hok]
        exact ssiEvalEnd_spec h.ssiBetween 1 fun _ h => absurd h hok
    | stop =>
      exact ssiEvalEnd_spec h.ssiBetween 0 fun _ hok =>
        hstack ((ssiExprTokenizer_eq_stop_iff env s).mp ht) hok
    | failed => exact ssiEvalEnd_spec h.ssiBetween (-1) fun h => absurd rfl h
    | aborted => exact absurd ((ssiExprTokenizer_eq_aborted_iff env s).mp ht) hname

/-- The evaluation of an expression ends if and only if the conditions hold at each call of the
tokenizer that it comes to. -/
theorem ssiEvalExpr_ends_iff (env : SsiEnv) (expr : Bytes) :
    SsiEvalEnds env expr ↔ ∀ s p, SsiReached env expr s p → SsiProceeds s p := by
  constructor
  · rintro ⟨hadvance, ret, -, hret⟩ s p h
    obtain ⟨fuel, hloop⟩ := h.returned hret
    rw [ssiEvalLoop] at hloop
    refine ⟨fun hno => ?_, fun hno => ?_, fun hnil hok hst => ?_⟩
    · exact lt_irrefl _ (hadvance s p h _ _ _ (ssiExprTokenizer_of_atNoToken env hno))
    · rw [(ssiExprTokenizer_eq_aborted_iff env s).mpr hno] at hloop
      cases hloop
    · rw [(ssiExprTokenizer_eq_stop_iff env s).mpr hnil] at hloop
      have hend := ssiEvalEnd_nil h.ssiBetween hst hok (by decide : (0 : ℤ) ≠ -1)
      cases hend.symm.trans hloop
  · intro hproceeds
    refine ⟨fun s p h tid token rest ht => ?_, ?_⟩
    · exact (ssiExprTokenizer_token ht).2.mpr (hproceeds s p h).token
    · exact SsiReached.start.ends hproceeds le_rfl

/-- Without variables. -/
def ssiNoEnv : SsiEnv := ⟨fun _ => none, fun _ => none⟩

example : ssiEvalExpr ssiNoEnv 6 (str "a = a") = .returned (some 1) := by decide +kernel

/-- `a` and a line feed: the empty word behind `a` is read again and again. -/
theorem not_ssiEvalExpr_ends : ¬ SsiEvalEnds ssiNoEnv (str "a\n") := by
  rintro ⟨hadvance, -⟩
  have htok : ssiExprTokenizer ssiNoEnv (cstr (str "a\n")) =
      .token TK_VALUE (str "a") (str "\n") := by decide +kernel
  have hparse : ssiexprparser ssiexprparserAlloc TK_VALUE (str "a") =
      some ⟨[⟨16, 12, .yy0 (str "a")⟩, ⟨0, 0, .unset⟩], true, none⟩ := by decide +kernel
  have hno : AtNoToken (str "\n") := ⟨10, rfl, by decide, by decide⟩
  exact lt_irrefl _ (hadvance _ _ (SsiReached.start.token htok rfl hparse) _ _ _
    (ssiExprTokenizer_of_atNoToken ssiNoEnv hno))

end Lighttpd
