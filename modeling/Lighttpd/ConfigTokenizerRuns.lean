import Lighttpd.ConfigTokenizer

/-!
# Calls of the tokenizer of configuration files

A call of `config_tokenizer` takes turns until there is a token, and `config_parse` takes calls until
there is none. `callOk_iff` says for which states a call does what it should: the lexeme at every
place that the call comes to has its end in the input. `configTokenizer_ok_iff` says the same for
all states of a run, and with it for `config_parse`.
-/

namespace Lighttpd

open CString Relation

/-! ## One call -/

/-- What a call at `t` should give: a token further on, 0 at the end of the input, or -1. -/
def ConfigTokenized.Ok (t : Tokenizer) : ConfigTokenized → Prop
  | .token _ _ t' => t'.rest <:+ t.rest ∧ t'.rest.length < t.rest.length
  | .stop t' => t'.rest = []
  | .failed => True
  | .undefined => False

/-- A call returns, and it returns what it should. -/
def Tokenizer.CallOk (t : Tokenizer) : Prop :=
  ∃ fuel r, configTokenizer fuel t = some r ∧ r.Ok t

variable {t u : Tokenizer} {c : UInt8} {s : Bytes} {r : ConfigTokenized} {fuel fuel' : ℕ}

theorem configTokenizer_of_done (ht : t.rest = c :: s) (hc : c ≠ 0) (h : configTurn t c s = .done r)
    (fuel : ℕ) : configTokenizer (fuel + 1) t = some r := by
  simp only [configTokenizer, ht, hc, ↓reduceIte, h]

theorem configTokenizer_of_again (ht : t.rest = c :: s) (hc : c ≠ 0)
    (h : configTurn t c s = .again u) (fuel : ℕ) :
    configTokenizer (fuel + 1) t = configTokenizer fuel u := by
  simp only [configTokenizer, ht, hc, ↓reduceIte, h]

/-- The input of a token behind a call starts behind where the call started. -/
theorem configTokenizer_token_suffix {t' : Tokenizer} {id : ConfigTokenId} {text : Bytes}
    (h : configTokenizer fuel t = some (.token id text t')) :
    t'.rest <:+ t.rest ∧ t'.rest.length < t.rest.length := by
  induction fuel generalizing t with
  | zero => simp [configTokenizer] at h
  | succ fuel ih =>
    rcases hrest : t.rest with _ | ⟨c, s⟩
    · simp [configTokenizer, hrest] at h
    · by_cases hc : c = 0
      · simp [configTokenizer, hrest, hc] at h
      · have hturn := configTurnOk_configTurn (t := t) (s := s) hc
        rcases hr : configTurn t c s with r | u
        · rw [configTokenizer_of_done hrest hc hr] at h
          rw [hr] at hturn
          obtain rfl := Option.some.inj h
          exact ⟨hturn.1.trans (List.suffix_cons c s), Nat.lt_succ_of_le hturn.1.length_le⟩
        · rw [configTokenizer_of_again hrest hc hr] at h
          rw [hr] at hturn
          obtain ⟨hs, hlt⟩ := ih h
          rcases hturn.2 with ⟨-, hskip⟩ | ⟨-, hsame⟩
          · have hu := skipOne_suffix hskip
            exact ⟨hs.trans hu.1, hlt.trans hu.2⟩
          · rw [hsame] at hs hlt
            exact ⟨hs, hlt⟩

theorem ok_iff_of_configTokenizer (ht : configTokenizer fuel t = some r)
    (hu : configTokenizer fuel' u = some r) : r.Ok t ↔ r.Ok u := by
  cases r with
  | token id text t' =>
    exact iff_of_true (configTokenizer_token_suffix ht) (configTokenizer_token_suffix hu)
  | stop t' => exact Iff.rfl
  | failed => exact Iff.rfl
  | undefined => exact Iff.rfl

theorem callOk_of_done (ht : t.rest = c :: s) (hc : c ≠ 0) (h : configTurn t c s = .done r) :
    t.CallOk ↔ r.Ok t := by
  constructor
  · rintro ⟨_ | fuel, r', hr, hok⟩
    · simp [configTokenizer] at hr
    · rw [configTokenizer_of_done ht hc h] at hr
      exact Option.some.inj hr ▸ hok
  · exact fun hok => ⟨1, r, configTokenizer_of_done ht hc h 0, hok⟩

theorem callOk_of_again (ht : t.rest = c :: s) (hc : c ≠ 0) (h : configTurn t c s = .again u) :
    t.CallOk ↔ u.CallOk := by
  have hstep := configTokenizer_of_again ht hc h
  constructor
  · rintro ⟨_ | fuel, r, hr, hok⟩
    · simp [configTokenizer] at hr
    · have hu := (hstep fuel).symm.trans hr
      exact ⟨fuel, r, hu, (ok_iff_of_configTokenizer hr hu).mp hok⟩
  · rintro ⟨fuel, r, hr, hok⟩
    have ht := (hstep fuel).trans hr
    exact ⟨fuel + 1, r, ht, (ok_iff_of_configTokenizer ht hr).mpr hok⟩

/-- A turn that changes nothing is followed by the same turn. -/
theorem configTokenizer_of_again_self (ht : t.rest = c :: s) (hc : c ≠ 0)
    (h : configTurn t c s = .again t) (fuel : ℕ) : configTokenizer fuel t = none := by
  induction fuel with
  | zero => rfl
  | succ fuel ih => rw [configTokenizer_of_again ht hc h, ih]

theorem lexemeEnds_rest (rest : Bytes) :
    LexemeEnds { t with rest := rest } c s ↔ LexemeEnds t c s := by
  simp only [lexemeEnds_iff, wordByte]

theorem inputEnds_nil (ht : t.rest = []) : t.InputEnds := by
  intro c s h
  unfold Tokenizer.SkipsTo SkipsTo at h
  rw [ht] at h
  rcases ReflTransGen.cases_head h with h | ⟨s', hs, -⟩
  · simp at h
  · simp [skipOne] at hs

theorem inputEnds_cons (ht : t.rest = c :: s) :
    t.InputEnds ↔ LexemeEnds t c s ∧
      ∀ s', t.skip (c :: s) = some s' → ({ t with rest := s' } : Tokenizer).InputEnds := by
  have hall (u : Tokenizer) : u.InputEnds ↔
      ∀ s', u.SkipsTo s' → ∀ d s'', s' = d :: s'' → LexemeEnds u d s'' := by
    constructor
    · rintro h s' hs d s'' rfl
      exact h d s'' hs
    · exact fun h d s'' hs => h _ hs d s'' rfl
  rw [hall]
  unfold Tokenizer.SkipsTo SkipsTo
  rw [forall_reaches_iff, ht]
  refine and_congr ⟨fun h => h c s rfl, ?_⟩ (forall_congr' fun s' => imp_congr_right fun _ => ?_)
  · rintro h d s'' heq
    obtain ⟨rfl, rfl⟩ := List.cons.inj heq
    exact h
  · rw [hall]
    simp only [lexemeEnds_rest, Tokenizer.SkipsTo, SkipsTo]

/-- A call does what it should just if every lexeme that it comes to has its end in the input. -/
theorem callOk_iff (t : Tokenizer) : t.CallOk ↔ t.InputEnds := by
  induction hn : t.rest.length using Nat.strong_induction_on generalizing t with
  | _ n ih =>
    rcases ht : t.rest with _ | ⟨c, s⟩
    · refine iff_of_true ⟨1, .stop t, ?_, ht⟩ (inputEnds_nil ht)
      simp [configTokenizer, ht]
    · rw [inputEnds_cons ht]
      by_cases hc : c = 0
      · refine iff_of_false ?_ fun h => h.1.noNul hc
        rintro ⟨_ | fuel, r, hr, hok⟩
        · simp [configTokenizer] at hr
        · simp only [configTokenizer, ht, hc, ↓reduceIte, Option.some.injEq] at hr
          subst hr
          simp [ConfigTokenized.Ok, ht] at hok
      · have hturn := configTurnOk_configTurn (t := t) (s := s) hc
        rcases hr : configTurn t c s with r | u
        · rw [callOk_of_done ht hc hr]
          rw [hr] at hturn
          cases r with
          | token id text t' =>
            refine iff_of_true ?_ ⟨hturn.2.1, by simp [hturn.2.2]⟩
            rw [ConfigTokenized.Ok, ht]
            exact ⟨hturn.1.trans (List.suffix_cons c s), Nat.lt_succ_of_le hturn.1.length_le⟩
          | stop t' => exact hturn.elim
          | failed => exact iff_of_true trivial ⟨hturn.1, by simp [hturn.2]⟩
          | undefined => exact iff_of_false id fun h => hturn h.1
        · rw [hr] at hturn
          obtain ⟨hu, ⟨hends, hskip⟩ | ⟨hends, hsame⟩⟩ := hturn
          · have hlt : u.rest.length < n := by
              rw [← hn, ht]
              exact (skipOne_suffix hskip).2
            rw [callOk_of_again ht hc hr, ih _ hlt u rfl, hskip]
            simp [hends, ← hu]
          · have hself : u = t := by rw [hu, hsame, ← ht]
            refine iff_of_false ?_ fun h => hends h.1
            rintro ⟨fuel, r, hrun, -⟩
            rw [configTokenizer_of_again_self ht hc (hself ▸ hr)] at hrun
            simp at hrun

/-! ## `config_parse` -/

/-- The parser made from `configparser.y`: what it does with a token and at the end of the tokens
(another file that it includes is read in there), and `context->ok`. -/
structure ConfigGrammar (σ : Type) where
  feed : σ → ConfigTokenId → Bytes → σ
  finish : σ → σ
  ok : σ → Bool

/-- The loop of `config_parse`, with the last return of the tokenizer. -/
def configParseLoop {σ : Type} (g : ConfigGrammar σ) :
    ℕ → Tokenizer → σ → Option (ConfigTokenized × σ)
  | 0, _, _ => none
  | fuel + 1, t, p =>
    match configTokenizer fuel t with
    | none => none
    | some (.token id text t') =>
      if g.ok p then configParseLoop g fuel t' (g.feed p id text)
      else some (.token id text t', p)
    | some r => some (r, p)

/-- `config_parse` behind its loop: what it returns. -/
def configParseEnd {σ : Type} (g : ConfigGrammar σ) (r : ConfigTokenized) (p : σ) :
    Option (ℤ × σ) :=
  match r with
  | .undefined => none
  | .failed => some (-1, p)
  | _ =>
    let p := if g.ok p then g.feed p .tkEol (str "(EOL)") else p
    let p := if g.ok p then g.finish p else p
    some (if g.ok p then 0 else -1, p)

/-- `config_parse_file_stream` with a file that `stream_open` could open. -/
def configParseFileStream {σ : Type} (g : ConfigGrammar σ) (fuel : ℕ) (input : Bytes) (p : σ) :
    Option (Option (ℤ × σ)) :=
  (configParseLoop g fuel (tokenizerInit input) p).map fun r => configParseEnd g r.1 r.2

/-- The states of the tokenizer between two calls. -/
inductive TokenizerReached (input : Bytes) : Tokenizer → Prop
  | init : TokenizerReached input (tokenizerInit input)
  | call {t t' : Tokenizer} {fuel : ℕ} {id : ConfigTokenId} {text : Bytes} :
      TokenizerReached input t → configTokenizer fuel t = some (.token id text t') →
      TokenizerReached input t'

/-- `config_parse` returns, whatever the parser does. -/
def ConfigParseEnds (input : Bytes) : Prop :=
  ∀ (σ : Type) (g : ConfigGrammar σ) (p : σ),
    ∃ fuel r, configParseFileStream g fuel input p = some (some r)

theorem configTokenizer_mono (hle : fuel ≤ fuel') (h : configTokenizer fuel t = some r) :
    configTokenizer fuel' t = some r := by
  induction fuel generalizing fuel' t with
  | zero => simp [configTokenizer] at h
  | succ fuel ih =>
    obtain ⟨fuel', rfl⟩ := Nat.exists_eq_add_of_le' (Nat.le_of_lt_succ (Nat.lt_succ_of_le hle))
    rw [show fuel' + (fuel + 1) = fuel' + fuel + 1 from rfl]
    rcases ht : t.rest with _ | ⟨c, s⟩
    · simpa [configTokenizer, ht] using h
    · by_cases hc : c = 0
      · simpa [configTokenizer, ht, hc] using h
      · rcases hr : configTurn t c s with r | u
        · rw [configTokenizer_of_done ht hc hr] at h ⊢
          exact h
        · rw [configTokenizer_of_again ht hc hr] at h ⊢
          exact ih (Nat.le_add_left _ _) h

theorem configParseLoop_mono {σ : Type} (g : ConfigGrammar σ) (hle : fuel ≤ fuel') {p : σ}
    {r : ConfigTokenized × σ} (h : configParseLoop g fuel t p = some r) :
    configParseLoop g fuel' t p = some r := by
  induction fuel generalizing fuel' t p with
  | zero => simp [configParseLoop] at h
  | succ fuel ih =>
    obtain ⟨fuel', rfl⟩ : ∃ n, fuel' = n + 1 := ⟨fuel' - 1, by omega⟩
    have hle : fuel ≤ fuel' := Nat.le_of_succ_le_succ hle
    rw [configParseLoop] at h ⊢
    rcases hr : configTokenizer fuel t with _ | r'
    · simp [hr] at h
    · rw [configTokenizer_mono hle hr]
      rw [hr] at h
      cases r' with
      | token id text t' =>
        dsimp only at h ⊢
        split_ifs at h ⊢ with hok
        · exact ih hle h
        · exact h
      | stop t' => exact h
      | failed => exact h
      | undefined => exact h

/-- From a state with only good calls ahead the loop ends, and stays in the input. -/
theorem configParseLoop_ends {σ : Type} (g : ConfigGrammar σ) {input : Bytes}
    (hends : ∀ t, TokenizerReached input t → t.CallOk) (ht : TokenizerReached input t) (p : σ) :
    ∃ fuel r, configParseLoop g fuel t p = some r ∧ r.1 ≠ .undefined := by
  induction hn : t.rest.length using Nat.strong_induction_on generalizing t p with
  | _ n ih =>
    obtain ⟨fuel, r, hr, hok⟩ := hends t ht
    cases r with
    | token id text t' =>
      by_cases hp : g.ok p
      · have hlt : t'.rest.length < n := hn ▸ hok.2
        obtain ⟨fuel', r, hloop, hne⟩ := ih _ hlt (ht.call hr) (g.feed p id text) rfl
        refine ⟨max fuel fuel' + 1, r, ?_, hne⟩
        rw [configParseLoop, configTokenizer_mono (le_max_left _ _) hr]
        dsimp only
        rw [if_pos hp]
        exact configParseLoop_mono g (le_max_right _ _) hloop
      · refine ⟨fuel + 1, (.token id text t', p), ?_, by simp⟩
        rw [configParseLoop, hr]
        simp only [hp, Bool.false_eq_true, ↓reduceIte]
    | stop t' => exact ⟨fuel + 1, (.stop t', p), by rw [configParseLoop, hr], by simp⟩
    | failed => exact ⟨fuel + 1, (.failed, p), by rw [configParseLoop, hr], by simp⟩
    | undefined => exact hok.elim

theorem configParseEnds_of_callOk {input : Bytes}
    (hends : ∀ t, TokenizerReached input t → t.CallOk) : ConfigParseEnds input := by
  intro σ g p
  obtain ⟨fuel, r, hloop, hne⟩ := configParseLoop_ends g hends .init p
  have hend : ∃ x, configParseEnd g r.1 r.2 = some x := by
    unfold configParseEnd
    cases hr : r.1 with
    | undefined => exact absurd hr hne
    | token id text t' => exact ⟨_, rfl⟩
    | stop t' => exact ⟨_, rfl⟩
    | failed => exact ⟨_, rfl⟩
  obtain ⟨x, hx⟩ := hend
  exact ⟨fuel, x, by rw [configParseFileStream, hloop, Option.map_some, hx]⟩

/-- The tokenizer terminates and stays in bounds, and `config_parse` ends with it, just if at every
place that a call comes to the lexeme has its end in the input. -/
theorem configTokenizer_ok_iff (input : Bytes) :
    ((∀ t, TokenizerReached input t → t.CallOk) ∧ ConfigParseEnds input) ↔
      ∀ t, TokenizerReached input t → t.InputEnds := by
  constructor
  · exact fun h t ht => (callOk_iff t).mp (h.1 t ht)
  · intro h
    have hcalls : ∀ t, TokenizerReached input t → t.CallOk :=
      fun t ht => (callOk_iff t).mpr (h t ht)
    exact ⟨hcalls, configParseEnds_of_callOk hcalls⟩

/-- A colon with no `=` behind it: no call returns, and neither does `config_parse`. A comment
without a newline behind it at the end of the file: a byte behind the file is read. -/
theorem configTokenizer_stray :
    (∀ fuel, configTokenizer fuel (tokenizerInit (str ":\n")) = none) ∧
      ¬ ConfigParseEnds (str ":\n") ∧
      configTokenizer 1 (tokenizerInit (str "#")) = some .undefined := by
  have hcolon (fuel : ℕ) : configTokenizer fuel (tokenizerInit (str ":\n")) = none :=
    configTokenizer_of_again_self (t := tokenizerInit (str ":\n")) (c := 58) (s := [10]) rfl
      (by decide) rfl fuel
  refine ⟨hcolon, fun h => ?_, rfl⟩
  obtain ⟨fuel, r, hr⟩ := h Unit ⟨fun _ _ _ => (), fun _ => (), fun _ => true⟩ ()
  unfold configParseFileStream at hr
  rcases fuel with _ | fuel
  · simp [configParseLoop] at hr
  · simp [configParseLoop, hcolon] at hr

end Lighttpd
