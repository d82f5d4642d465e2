import Mathlib.Logic.Relation
import Lighttpd.Lib.Strtol

/-!
# The tokenizer of configuration files

`config_tokenizer` reads the next token from the input, which need not end in a NUL: a mapped file
ends where it ends. A scan that looks for the end of a string, of a comment or of a word, and a look
at the next byte, stop at a NUL and nowhere else, so each of them can leave the input; and the case
of `:` neither moves on nor sets a token unless `=` follows. `LexemeEnds` says that the lexeme which
starts at a byte has its end in the input; `configTurnOk_configTurn` says what one turn of the loop
does if it has and if it has not.
-/

namespace Lighttpd

open CString Relation

/-! ## The tokenizer -/

/-- The tokens of `configparser.y`. -/
inductive ConfigTokenId
  | tkEol | tkAssign | tkAppend | tkForceAssign | tkLkey | tkPlus | tkString | tkInteger
  | tkLparan | tkRparan | tkComma | tkArrayAssign | tkGlobal | tkLcurly | tkRcurly | tkElse
  | tkDollar | tkSrvvarname | tkLbracket | tkRbracket | tkEq | tkMatch | tkNe | tkNomatch
  | tkInclude | tkIncludeShell
  deriving DecidableEq, Repr

/-- `tokenizer_t`; `rest` is the input from `offset` on. -/
structure Tokenizer where
  rest : Bytes
  inKey : Bool
  inBrace : Int32
  inCond : Bool
  deriving DecidableEq

/-- What a call of `config_tokenizer` does: it returns 1 with a token, 0 or -1; or a byte behind the
input is read, or the `int` index of a comment overflows. -/
inductive ConfigTokenized
  | token (id : ConfigTokenId) (token : Bytes) (t : Tokenizer)
  | stop (t : Tokenizer)
  | failed
  | undefined
  deriving DecidableEq

/-- What one turn of the loop does: the loop ends, or it goes on. -/
inductive ConfigTurn
  | done (r : ConfigTokenized)
  | again (t : Tokenizer)
  deriving DecidableEq

namespace Tokenizer

/-- The token `id` ends where `rest` starts. -/
def take (t : Tokenizer) (id : ConfigTokenId) (token rest : Bytes) : ConfigTurn :=
  .done (.token id token { t with rest := rest })

/-- The loop goes on at `rest`. -/
def skipTo (t : Tokenizer) (rest : Bytes) : ConfigTurn :=
  .again { t with rest := rest }

end Tokenizer

/-- `config_skip_newline` behind the byte `c`; it looks for LF behind CR. -/
def configSkipNewline (c : UInt8) (s : Bytes) : Option Bytes :=
  if c = CR then s.head?.map fun d => if d = LF then s.tail else s
  else some s

/-- A comment ends here. -/
def endsComment (c : UInt8) : Bool := c = 0 || c = LF || c = CR

/-- The largest `int`. -/
abbrev intMax : ℕ := 2147483647

/-- `config_skip_comment` behind the `#`, as long as its index is an `int`. -/
def configSkipComment (s : Bytes) : Option Bytes :=
  if (s.take intMax).any endsComment then some (s.dropWhile (! endsComment ·)) else none

variable {c : UInt8} {s s' : Bytes} {t : Tokenizer}

theorem configSkipNewline_suffix (h : configSkipNewline c s = some s') : s' <:+ s := by
  unfold configSkipNewline at h
  split_ifs at h with hc
  · rcases s with _ | ⟨d, s⟩
    · simp at h
    · simp only [List.head?_cons, Option.map_some, List.tail_cons, Option.some.injEq] at h
      split_ifs at h
      · exact h ▸ List.suffix_cons d s
      · exact h ▸ List.suffix_refl _
  · exact Option.some.inj h ▸ List.suffix_refl s

theorem configSkipComment_suffix (h : configSkipComment s = some s') : s' <:+ s := by
  unfold configSkipComment at h
  split_ifs at h
  exact Option.some.inj h ▸ List.dropWhile_suffix _

/-- The loop over newlines, comments and blanks that an EOL stands for. -/
def configSkipLines : Bytes → Option Bytes
  | [] => some []
  | c :: s =>
    if c = LF ∨ c = CR then
      match _h : configSkipNewline c s with
      | none => none
      | some s' => configSkipLines s'
    else if c = 35 then
      match _h : configSkipComment s with
      | none => none
      | some s' => configSkipLines s'
    else if c = HT ∨ c = SP then configSkipLines s
    else some (c :: s)
termination_by s => s.length
decreasing_by
  · exact Nat.lt_succ_of_le (configSkipNewline_suffix _h).length_le
  · exact Nat.lt_succ_of_le (configSkipComment_suffix _h).length_le
  · exact Nat.lt_succ_self _

/-- The byte behind the one that the tokenizer is at. -/
def lookAhead (s : Bytes) (turn : UInt8 → Bytes → ConfigTurn) : ConfigTurn :=
  match s with
  | [] => .done .undefined
  | d :: s => turn d s

/-- `=` or `~` behind the first byte of an operator of a condition. -/
def configCondOp (t : Tokenizer) (eq regex : ConfigTokenId × Bytes) (s : Bytes) : ConfigTurn :=
  lookAhead s fun d s =>
    if d = 61 then { t with inKey := true, inCond := false }.take eq.1 eq.2 s
    else if d = 126 then { t with inKey := true, inCond := false }.take regex.1 regex.2 s
    else .done .failed

/-- The case of `=`. -/
def configEqual (t : Tokenizer) (s : Bytes) : ConfigTurn :=
  if t.inBrace ≠ 0 then
    lookAhead s fun d s => if d = 62 then t.take .tkArrayAssign (str "=>") s else .done .failed
  else if t.inCond then configCondOp t (.tkEq, str "==") (.tkMatch, str "=~") s
  else if t.inKey then t.take .tkAssign (str "=") s
  else .done .failed

/-- The case of a newline `c`. -/
def configNewline (t : Tokenizer) (c : UInt8) (s : Bytes) : ConfigTurn :=
  if t.inBrace = 0 then
    match configSkipLines (c :: s) with
    | none => .done .undefined
    | some s' => { t with inKey := true }.take .tkEol (str "(EOL)") s'
  else
    match configSkipNewline c s with
    | none => .done .undefined
    | some s' => t.skipTo s'

/-- The case of `#`. -/
def configComment (t : Tokenizer) (s : Bytes) : ConfigTurn :=
  match configSkipComment s with
  | none => .done .undefined
  | some s' => t.skipTo s'

/-- The loop over a string, with the text of the token so far. -/
def configQuoted (t : Tokenizer) : Bytes → Bytes → ConfigTurn
  | _, [] => .done .undefined
  | text, b :: s =>
    if b = 0 then .done .failed
    else if b = 92 then
      match s with
      | [] => .done .undefined
      | d :: s =>
        if d = 34 then configQuoted t (text ++ [34]) s else configQuoted t (text ++ [92]) (d :: s)
    else if b = 34 then t.take .tkString text s
    else configQuoted t (text ++ [b]) s

/-- A byte of the name in a condition. -/
def isVarByte (c : UInt8) : Bool := isAlpha c || c = 95

/-- A byte of a key. -/
def isKeyByte (c : UInt8) : Bool := isAlnum c || c = 46 || c = 95 || c = 45

/-- The token of a word that is a keyword or a key. -/
def configKeyId (w : Bytes) : ConfigTokenId :=
  if w = str "include" then .tkInclude
  else if w = str "include_shell" then .tkIncludeShell
  else if w = str "global" then .tkGlobal
  else if w = str "else" then .tkElse
  else .tkLkey

/-- A name or a key at `s`, which is not empty and has a byte other than NUL behind it. -/
def configName (t : Tokenizer) (p : UInt8 → Bool) (id : Bytes → ConfigTokenId) (s : Bytes) :
    ConfigTurn :=
  match s.dropWhile p with
  | [] => .done .undefined
  | d :: s' =>
    if s.takeWhile p ≠ [] ∧ d ≠ 0 then t.take (id (s.takeWhile p)) (s.takeWhile p) (d :: s')
    else .done .failed

/-- The bytes that no case of the switch is for, from `c` on. -/
def configWord (t : Tokenizer) (c : UInt8) (s : Bytes) : ConfigTurn :=
  if t.inCond then configName t isVarByte (fun _ => .tkSrvvarname) (c :: s)
  else if isDigit c then
    match s.dropWhile isDigit with
    | [] => .done .undefined
    | d :: s' => t.take .tkInteger (c :: s.takeWhile isDigit) (d :: s')
  else configName t isKeyByte configKeyId (c :: s)

/-- One turn of the loop of `config_tokenizer`, at the byte `c`. -/
def configTurn (t : Tokenizer) (c : UInt8) (s : Bytes) : ConfigTurn :=
  if c = 61 then configEqual t s
  else if c = 33 then
    if t.inCond then configCondOp t (.tkNe, str "!=") (.tkNomatch, str "!~") s else .done .failed
  else if c = HT ∨ c = SP then t.skipTo s
  else if c = LF ∨ c = CR then configNewline t c s
  else if c = 44 then
    if 0 < t.inBrace then t.take .tkComma (str "(COMMA)") s else t.skipTo s
  else if c = 34 then configQuoted t [] s
  else if c = 40 then { t with inBrace := t.inBrace + 1 }.take .tkLparan (str "(") s
  else if c = 41 then { t with inBrace := t.inBrace - 1 }.take .tkRparan (str ")") s
  else if c = 36 then { t with inCond := true, inKey := false }.take .tkDollar (str "$") s
  else if c = 43 then
    lookAhead s fun d s' =>
      if d = 61 then t.take .tkAppend (str "+=") s' else t.take .tkPlus (str "+") s
  else if c = 58 then
    -- without the `=` the loop goes on where it is
    lookAhead s fun d s' =>
      if d = 61 then t.take .tkForceAssign (str ":=") s' else t.skipTo (c :: s)
  else if c = 123 then t.take .tkLcurly (str "\x7b") s
  else if c = 125 then t.take .tkRcurly (str "\x7d") s
  else if c = 91 then t.take .tkLbracket (str "[") s
  else if c = 93 then t.take .tkRbracket (str "]") s
  else if c = 35 then configComment t s
  else configWord t c s

/-- `config_tokenizer`; the loop takes at most `fuel` turns. -/
def configTokenizer : ℕ → Tokenizer → Option ConfigTokenized
  | 0, _ => none
  | fuel + 1, t =>
    match t.rest with
    | [] => some (.stop t)
    | c :: s =>
      if c = 0 then some (.stop t)
      else
        match configTurn t c s with
        | .done r => some r
        | .again t => configTokenizer fuel t

/-- `tokenizer_init`. -/
def tokenizerInit (input : Bytes) : Tokenizer := ⟨input, true, 0, false⟩

/-! ## Where a lexeme ends -/

/-- One byte or comment that the loop reads over, and where it goes on. The loop of the tokenizer
reads over newlines and commas only sometimes. -/
def skipOne (newlines commas : Bool) : Bytes → Option Bytes
  | [] => none
  | c :: s =>
    if c = HT ∨ c = SP then some s
    else if c = LF ∨ c = CR then if newlines then configSkipNewline c s else none
    else if c = 44 then if commas then some s else none
    else if c = 35 then configSkipComment s
    else none

/-- The loop reads over what is between `s` and `s'`. -/
def SkipsTo (newlines commas : Bool) : Bytes → Bytes → Prop :=
  ReflTransGen fun s s' => skipOne newlines commas s = some s'

/-- A comment, or a CR with no byte behind it, that does not end in the input. -/
def SkipOpen : Bytes → Prop
  | [] => False
  | c :: s => c = CR ∧ s = [] ∨ c = 35 ∧ ¬ ∃ d ∈ s.take intMax, endsComment d

/-- A string ends: at a NUL, or at a quotation mark with no backslash right before it. -/
def StringEnds (s : Bytes) : Prop :=
  ∃ x e y, s = x ++ e :: y ∧ (e = 0 ∨ e = 34 ∧ x.getLast? ≠ some 92)

/-- A byte of the word that starts with `c`. -/
def wordByte (t : Tokenizer) (c : UInt8) : UInt8 → Bool :=
  if t.inCond then isVarByte else if isDigit c then isDigit else isKeyByte

/-- What starts with `c` and goes on with `s` has its end in the input, as far as the case of `c`
looks for it. -/
@[mk_iff]
structure LexemeEnds (t : Tokenizer) (c : UInt8) (s : Bytes) : Prop where
  noNul : c ≠ 0
  colon : c = 58 → s.head? = some 61
  equal : c = 61 → t.inBrace ≠ 0 ∨ t.inCond → s ≠ []
  mark : c = 33 → t.inCond → s ≠ []
  plus : c = 43 → s ≠ []
  quoted : c = 34 → StringEnds s
  skip : t.inBrace ≠ 0 ∨ c = 35 → ¬ SkipOpen (c :: s)
  lines : t.inBrace = 0 → c = LF ∨ c = CR → ∀ s', SkipsTo true false (c :: s) s' → ¬ SkipOpen s'
  word : ∃ d ∈ c :: s, ¬ wordByte t c d

/-- The loop of `config_tokenizer` goes on at `s'` without a token. -/
def Tokenizer.SkipsTo (t : Tokenizer) (s' : Bytes) : Prop :=
  Lighttpd.SkipsTo (t.inBrace ≠ 0) (¬ 0 < t.inBrace) t.rest s'

/-- The condition on the state before a call. -/
def Tokenizer.InputEnds (t : Tokenizer) : Prop :=
  ∀ c s, t.SkipsTo (c :: s) → LexemeEnds t c s

theorem skipOne_suffix {newlines commas : Bool} (h : skipOne newlines commas s = some s') :
    s' <:+ s ∧ s'.length < s.length := by
  rcases s with _ | ⟨c, s⟩
  · simp [skipOne] at h
  · suffices hs : s' <:+ s from
      ⟨hs.trans (List.suffix_cons c s), Nat.lt_succ_of_le hs.length_le⟩
    simp only [skipOne] at h
    split_ifs at h
    · exact Option.some.inj h ▸ List.suffix_refl s
    · exact configSkipNewline_suffix h
    · exact Option.some.inj h ▸ List.suffix_refl s
    · exact configSkipComment_suffix h

theorem configSkipNewline_eq_none_iff : configSkipNewline c s = none ↔ c = CR ∧ s = [] := by
  unfold configSkipNewline
  split_ifs with hc <;> simp [hc]

theorem configSkipComment_eq_none_iff :
    configSkipComment s = none ↔ ¬ ∃ d ∈ s.take intMax, endsComment d := by
  unfold configSkipComment
  split_ifs with h <;> simpa using h

/-- What holds wherever a loop comes to holds at its start and from its next turn on. -/
theorem forall_reaches_iff {α : Type*} (next : α → Option α) (P : α → Prop) (a : α) :
    (∀ b, ReflTransGen (fun x y => next x = some y) a b → P b) ↔
      P a ∧ ∀ a', next a = some a' →
        ∀ b, ReflTransGen (fun x y => next x = some y) a' b → P b := by
  constructor
  · exact fun h => ⟨h a .refl, fun a' ha b hb => h b (.head ha hb)⟩
  · rintro ⟨ha, hnext⟩ b hb
    rcases ReflTransGen.cases_head hb with rfl | ⟨a', ha', hb⟩
    · exact ha
    · exact hnext a' ha' b hb

theorem configSkipLines_cons (c : UInt8) (s : Bytes) :
    configSkipLines (c :: s) =
      if c = LF ∨ c = CR then (configSkipNewline c s).bind configSkipLines
      else if c = 35 then (configSkipComment s).bind configSkipLines
      else if c = HT ∨ c = SP then configSkipLines s
      else some (c :: s) := by
  rw [configSkipLines]
  split_ifs
  · rcases configSkipNewline c s with _ | s' <;> rfl
  · rcases configSkipComment s with _ | s' <;> rfl
  · rfl
  · rfl

theorem not_skipOpen_of_skipOne {commas : Bool} (h : skipOne true commas s = some s') :
    ¬ SkipOpen s := by
  rcases s with _ | ⟨c, s⟩
  · simp [skipOne] at h
  · rintro (⟨rfl, rfl⟩ | ⟨rfl, ho⟩)
    · simp [skipOne, configSkipNewline] at h
      exact absurd h.1 (by decide)
    · rw [← configSkipComment_eq_none_iff] at ho
      simp only [skipOne, ho] at h
      grind

theorem configSkipLines_of_skipOne (h : skipOne true false s = some s') :
    configSkipLines s = configSkipLines s' := by
  rcases s with _ | ⟨c, s⟩
  · simp [skipOne] at h
  · rw [configSkipLines_cons]
    simp only [skipOne, ↓reduceIte, Bool.false_eq_true] at h
    grind

/-- Where the loop over lines ends, it is at a byte of another kind or leaves the input. -/
theorem configSkipLines_of_skipOne_eq_none (h : skipOne true false s = none) :
    configSkipLines s = none ∧ SkipOpen s ∨ configSkipLines s = some s ∧ ¬ SkipOpen s := by
  rcases s with _ | ⟨c, s⟩
  · simp [configSkipLines, SkipOpen]
  · rw [configSkipLines_cons]
    simp only [SkipOpen, ← configSkipNewline_eq_none_iff, ← configSkipComment_eq_none_iff]
    simp only [skipOne, ↓reduceIte, Bool.false_eq_true] at h
    grind [configSkipNewline_eq_none_iff]

/-- The loop over lines stays in the input just if nothing that it comes to is open. -/
theorem configSkipLines_ne_none_iff (s : Bytes) :
    configSkipLines s ≠ none ↔ ∀ s', SkipsTo true false s s' → ¬ SkipOpen s' := by
  induction hn : s.length using Nat.strong_induction_on generalizing s with
  | _ n ih =>
    unfold SkipsTo at ih ⊢
    rw [forall_reaches_iff]
    rcases h : skipOne true false s with _ | s'
    · have hcases := configSkipLines_of_skipOne_eq_none h
      grind
    · have ih := ih s'.length (hn ▸ (skipOne_suffix h).2) s' rfl
      rw [configSkipLines_of_skipOne h, ih]
      simp [not_skipOpen_of_skipOne h]

theorem configSkipLines_suffix (h : configSkipLines s = some s') : s' <:+ s := by
  induction hn : s.length using Nat.strong_induction_on generalizing s with
  | _ n ih =>
    rcases hs : skipOne true false s with _ | u
    · rcases configSkipLines_of_skipOne_eq_none hs with ⟨hnone, -⟩ | ⟨hsome, -⟩
      · simp [hnone] at h
      · exact Option.some.inj (hsome.symm.trans h) ▸ List.suffix_refl s
    · rw [configSkipLines_of_skipOne hs] at h
      exact (ih _ (hn ▸ (skipOne_suffix hs).2) h rfl).trans (skipOne_suffix hs).1

theorem configSkipLines_newline (hc : c = LF ∨ c = CR) (h : configSkipLines (c :: s) = some s') :
    s' <:+ s := by
  rw [configSkipLines_cons, if_pos hc, Option.bind_eq_some_iff] at h
  obtain ⟨u, hu, h⟩ := h
  exact (configSkipLines_suffix h).trans (configSkipNewline_suffix hu)

/-! ### Strings -/

theorem not_stringEnds_nil : ¬ StringEnds [] := by
  simp [StringEnds]

theorem stringEnds_nul (s : Bytes) : StringEnds (0 :: s) :=
  ⟨[], 0, s, rfl, .inl rfl⟩

theorem stringEnds_mark (s : Bytes) : StringEnds (34 :: s) :=
  ⟨[], 34, s, rfl, .inr ⟨rfl, by simp⟩⟩

theorem not_stringEnds_backslash : ¬ StringEnds [92] := by
  rintro ⟨_ | ⟨b, x⟩, e, y, hs, he⟩
  · simp at hs
    grind
  · simp at hs

theorem stringEnds_escape (s : Bytes) : StringEnds (92 :: 34 :: s) ↔ StringEnds s := by
  constructor
  · rintro ⟨_ | ⟨b, _ | ⟨b', x⟩⟩, e, y, hs, he⟩
    · simp at hs
      grind
    · simp at hs
      grind
    · simp only [List.cons_append, List.cons.injEq] at hs
      obtain ⟨rfl, rfl, rfl⟩ := hs
      refine ⟨x, e, y, rfl, he.imp_right fun h => ⟨h.1, ?_⟩⟩
      rcases x with _ | ⟨b, x⟩
      · simp
      · simpa using h.2
  · rintro ⟨x, e, y, rfl, he⟩
    refine ⟨92 :: 34 :: x, e, y, rfl, he.imp_right fun h => ⟨h.1, ?_⟩⟩
    rcases x with _ | ⟨b, x⟩
    · simp
    · simpa using h.2

theorem stringEnds_cons {b : UInt8} (s : Bytes) (h0 : b ≠ 0) (h34 : b ≠ 34)
    (h92 : b = 92 → s.head? ≠ some 34) : StringEnds (b :: s) ↔ StringEnds s := by
  constructor
  · rintro ⟨_ | ⟨b', x⟩, e, y, hs, he⟩
    · simp at hs
      grind
    · simp only [List.cons_append, List.cons.injEq] at hs
      obtain ⟨rfl, rfl⟩ := hs
      refine ⟨x, e, y, rfl, he.imp_right fun h => ⟨h.1, ?_⟩⟩
      rcases x with _ | ⟨d, x⟩
      · simp
      · simpa using h.2
  · rintro ⟨x, e, y, rfl, he⟩
    refine ⟨b :: x, e, y, rfl, he.imp_right fun h => ⟨h.1, ?_⟩⟩
    rcases x with _ | ⟨d, x⟩
    · simpa using fun hb => h92 hb (by simp [h.1])
    · simpa using h.2

/-- The scan of a string leaves the input, or it finds the end. -/
theorem configQuoted_spec (t : Tokenizer) (text s : Bytes) :
    configQuoted t text s = .done .undefined ∧ ¬ StringEnds s ∨
      configQuoted t text s = .done .failed ∧ StringEnds s ∨
      ∃ text' s', configQuoted t text s = t.take .tkString text' s' ∧ s' <:+ s ∧ StringEnds s := by
  fun_induction configQuoted t text s with
  | case1 text => exact .inl ⟨rfl, not_stringEnds_nil⟩
  | case2 text s => exact .inr (.inl ⟨rfl, stringEnds_nul s⟩)
  | case3 text => exact .inl ⟨rfl, not_stringEnds_backslash⟩
  | case4 text s _ ih =>
    rw [stringEnds_escape]
    refine ih.imp_right (Or.imp_right ?_)
    rintro ⟨text', s', h, hs, he⟩
    exact ⟨text', s', h, hs.trans ((List.suffix_cons _ _).trans (List.suffix_cons _ _)), he⟩
  | case5 text d s hd _ ih =>
    rw [stringEnds_cons _ (by decide) (by decide) (by simpa using hd)]
    refine ih.imp_right (Or.imp_right ?_)
    rintro ⟨text', s', h, hs, he⟩
    exact ⟨text', s', h, hs.trans (List.suffix_cons _ _), he⟩
  | case6 text s =>
    exact .inr (.inr ⟨text, s, rfl, List.suffix_cons _ _, stringEnds_mark s⟩)
  | case7 text b s h0 h92 h34 ih =>
    rw [stringEnds_cons _ h0 h34 fun h => absurd h h92]
    refine ih.imp_right (Or.imp_right ?_)
    rintro ⟨text', s', h, hs, he⟩
    exact ⟨text', s', h, hs.trans (List.suffix_cons _ _), he⟩

theorem wordByte_self (hc : ¬ isKeyByte c) (t : Tokenizer) : ¬ wordByte t c c := by
  have hdigit : ¬ isDigit c := fun h => hc (by simp [isKeyByte, isAlnum, h])
  have hvar : ¬ isVarByte c := fun h => hc (by
    simp only [isVarByte, Bool.or_eq_true, decide_eq_true_eq] at h
    rcases h with h | rfl
    · simp [isKeyByte, isAlnum, h]
    · decide)
  unfold wordByte
  split_ifs <;> assumption

theorem exists_not_wordByte (hc : ¬ isKeyByte c) (t : Tokenizer) (s : Bytes) :
    ∃ d ∈ c :: s, ¬ wordByte t c d :=
  ⟨c, List.mem_cons_self, wordByte_self hc t⟩

/-! ## One turn -/

/-- Where the loop of the tokenizer goes on, if the byte at the front is read over. -/
def Tokenizer.skip (t : Tokenizer) (s : Bytes) : Option Bytes :=
  skipOne (t.inBrace ≠ 0) (¬ 0 < t.inBrace) s

/-- What a turn at the byte `c` does if the lexeme ends, and if it does not. -/
def ConfigTurnOk (t : Tokenizer) (c : UInt8) (s : Bytes) : ConfigTurn → Prop
  | .done (.token _ _ t') => t'.rest <:+ s ∧ LexemeEnds t c s ∧ t.skip (c :: s) = none
  | .done (.stop _) => False
  | .done .failed => LexemeEnds t c s ∧ t.skip (c :: s) = none
  | .done .undefined => ¬ LexemeEnds t c s
  | .again t' => t' = { t with rest := t'.rest } ∧
      (LexemeEnds t c s ∧ t.skip (c :: s) = some t'.rest ∨
        ¬ LexemeEnds t c s ∧ t'.rest = c :: s)

theorem configTurnOk_configCondOp (eq regex : ConfigTokenId × Bytes)
    (hs : LexemeEnds t c s ↔ s ≠ []) (hskip : t.skip (c :: s) = none) :
    ConfigTurnOk t c s (configCondOp t eq regex s) := by
  unfold configCondOp lookAhead
  rcases s with _ | ⟨d, s⟩
  · simp [ConfigTurnOk, hs]
  · dsimp only
    split_ifs <;> simp [ConfigTurnOk, Tokenizer.take, hs, hskip]

/-- For a byte that is no newline, starts no comment and is in no word. -/
theorem lexemeEnds_sign (t : Tokenizer) (s : Bytes) (h0 : c ≠ 0) (hkey : ¬ isKeyByte c)
    (hline : c ∉ [LF, CR, 35]) :
    LexemeEnds t c s ↔ (c = 58 → s.head? = some 61) ∧
      (c = 61 → t.inBrace ≠ 0 ∨ t.inCond → s ≠ []) ∧ (c = 33 → t.inCond → s ≠ []) ∧
      (c = 43 → s ≠ []) ∧ (c = 34 → StringEnds s) := by
  have hword := exists_not_wordByte hkey t s
  have hopen : ¬ SkipOpen (c :: s) := by
    rintro (h | h) <;> simp [h.1] at hline
  rw [lexemeEnds_iff]
  grind

theorem configTurnOk_configEqual (t : Tokenizer) (s : Bytes) : ConfigTurnOk t 61 s (configEqual t s) := by
  have hskip : t.skip (61 :: s) = none := rfl
  have hends : LexemeEnds t 61 s ↔ (t.inBrace ≠ 0 ∨ t.inCond → s ≠ []) := by
    simp [lexemeEnds_sign t s (c := 61) (by decide) (by decide) (by decide)]
  unfold configEqual
  split_ifs with hb hcond hkey
  · unfold lookAhead
    rcases s with _ | ⟨d, s⟩
    · simp [ConfigTurnOk, hends, hb]
    · dsimp only
      split_ifs <;> simp [ConfigTurnOk, Tokenizer.take, hends, hskip]
  · exact configTurnOk_configCondOp _ _ (by simp [hends, hcond]) hskip
  · simp [ConfigTurnOk, Tokenizer.take, hends, hskip, hcond, hb]
  · simp [ConfigTurnOk, hends, hskip, hcond, hb]

theorem configTurnOk_configNewline (s : Bytes) (hc : c = LF ∨ c = CR) :
    ConfigTurnOk t c s (configNewline t c s) := by
  have hkey : ¬ isKeyByte c := by rcases hc with rfl | rfl <;> decide
  have hends : LexemeEnds t c s ↔
      (t.inBrace ≠ 0 → ¬ SkipOpen (c :: s)) ∧
        (t.inBrace = 0 → ∀ s', SkipsTo true false (c :: s) s' → ¬ SkipOpen s') := by
    have hword := exists_not_wordByte hkey t s
    rw [lexemeEnds_iff]
    rcases hc with rfl | rfl <;> grind
  have hopen : SkipOpen (c :: s) ↔ configSkipNewline c s = none := by
    rw [configSkipNewline_eq_none_iff]
    rcases hc with rfl | rfl <;> simp [SkipOpen, CR, LF]
  have hskip : t.skip (c :: s) = if t.inBrace ≠ 0 then configSkipNewline c s else none := by
    rcases hc with rfl | rfl <;> simp [Tokenizer.skip, skipOne, CR, LF, HT, SP]
  unfold configNewline
  split_ifs with hb
  · have hends : LexemeEnds t c s ↔ configSkipLines (c :: s) ≠ none := by
      rw [hends, configSkipLines_ne_none_iff]
      simp [hb]
    rcases h : configSkipLines (c :: s) with _ | s'
    · simp [ConfigTurnOk, hends, h]
    · simp [ConfigTurnOk, Tokenizer.take, hends, h, hskip, hb, configSkipLines_newline hc h]
  · rcases h : configSkipNewline c s with _ | s'
    · simp [ConfigTurnOk, hends, hopen, h, hb]
    · simp [ConfigTurnOk, Tokenizer.skipTo, hends, hopen, h, hskip, hb]

theorem configTurnOk_configQuoted (t : Tokenizer) (s : Bytes) : ConfigTurnOk t 34 s (configQuoted t [] s) := by
  have hends : LexemeEnds t 34 s ↔ StringEnds s := by
    simp [lexemeEnds_sign t s (c := 34) (by decide) (by decide) (by decide)]
  have hskip : t.skip (34 :: s) = none := rfl
  rcases configQuoted_spec t [] s with ⟨h, he⟩ | ⟨h, he⟩ | ⟨text, s', h, hs, he⟩
  · simpa [h, ConfigTurnOk, hends] using he
  · simpa [h, ConfigTurnOk, hends, hskip] using he
  · simpa [h, ConfigTurnOk, Tokenizer.take, hends, hskip, hs] using he

theorem configTurnOk_comment (t : Tokenizer) (s : Bytes) :
    ConfigTurnOk t 35 s (configComment t s) := by
  have hends : LexemeEnds t 35 s ↔ configSkipComment s ≠ none := by
    have hword := exists_not_wordByte (c := 35) (by decide) t s
    have hopen : SkipOpen (35 :: s) ↔ configSkipComment s = none := by
      rw [configSkipComment_eq_none_iff]
      simp [SkipOpen, CR]
    rw [lexemeEnds_iff]
    grind
  have hskip : t.skip (35 :: s) = configSkipComment s := by
    simp [Tokenizer.skip, skipOne, CR, LF, HT, SP]
  unfold configComment
  rcases h : configSkipComment s with _ | s'
  · simp [ConfigTurnOk, hends, h]
  · simp [ConfigTurnOk, Tokenizer.skipTo, hends, h, hskip]

theorem dropWhile_eq_nil_iff_not_exists (p : UInt8 → Bool) (s : Bytes) :
    s.dropWhile p = [] ↔ ¬ ∃ d ∈ s, ¬ p d := by
  rw [List.dropWhile_eq_nil_iff]
  push Not
  rfl

theorem lexemeEnds_word (t : Tokenizer) (s : Bytes) (hc : c ∉ [0, 61, 33, LF, CR, 34, 43, 58, 35]) :
    LexemeEnds t c s ↔ (c :: s).dropWhile (wordByte t c) ≠ [] := by
  rw [ne_eq, dropWhile_eq_nil_iff_not_exists, not_not, lexemeEnds_iff]
  simp only [List.mem_cons, List.not_mem_nil, or_false, not_or] at hc
  have hopen : ¬ SkipOpen (c :: s) := by
    rintro (h | h) <;> grind
  grind

theorem configTurnOk_configName (p : UInt8 → Bool) (id : Bytes → ConfigTokenId)
    (hends : LexemeEnds t c s ↔ (c :: s).dropWhile p ≠ []) (hskip : t.skip (c :: s) = none) :
    ConfigTurnOk t c s (configName t p id (c :: s)) := by
  unfold configName
  rcases h : (c :: s).dropWhile p with _ | ⟨d, s'⟩
  · simp [ConfigTurnOk, hends, h]
  · dsimp only
    split_ifs with hw
    · have hs : d :: s' <:+ s := by
        have hp : p c := by
          by_contra hp
          simp [hp] at hw
        rw [List.dropWhile_cons_of_pos hp] at h
        exact h ▸ List.dropWhile_suffix p
      simp [ConfigTurnOk, Tokenizer.take, hends, h, hskip, hs]
    · simp [ConfigTurnOk, hends, h, hskip]

theorem configTurnOk_configWord (hc : c ∉ [0, 61, 33, LF, CR, 34, 43, 58, 35])
    (hskip : t.skip (c :: s) = none) : ConfigTurnOk t c s (configWord t c s) := by
  have hends := lexemeEnds_word t s hc
  unfold configWord
  unfold wordByte at hends
  split_ifs at hends ⊢ with hcond hdigit
  · exact configTurnOk_configName _ _ hends hskip
  · rw [List.dropWhile_cons_of_pos hdigit] at hends
    rcases h : s.dropWhile isDigit with _ | ⟨d, s'⟩
    · simp [ConfigTurnOk, hends, h]
    · have hs : d :: s' <:+ s := h ▸ List.dropWhile_suffix isDigit
      simp [ConfigTurnOk, Tokenizer.take, hends, h, hskip, hs]
  · exact configTurnOk_configName _ _ hends hskip

theorem configTurnOk_take {t' : Tokenizer} (id : ConfigTokenId) (text : Bytes)
    (hkey : ¬ isKeyByte c) (hc : c ∉ [0, 61, 33, LF, CR, 34, 43, 58, 35])
    (hskip : t.skip (c :: s) = none) : ConfigTurnOk t c s (t'.take id text s) := by
  have hends : LexemeEnds t c s := by
    simp only [List.mem_cons, List.not_mem_nil, or_false, not_or] at hc
    rw [lexemeEnds_sign t s hc.1 hkey (by simp [hc])]
    simp [hc]
  exact ⟨List.suffix_refl s, hends, hskip⟩

theorem configTurnOk_mark (t : Tokenizer) (s : Bytes) :
    ConfigTurnOk t 33 s (if t.inCond then configCondOp t (.tkNe, str "!=") (.tkNomatch, str "!~") s
      else .done .failed) := by
  have hends := lexemeEnds_sign t s (c := 33) (by decide) (by decide) (by decide)
  split_ifs with hcond
  · exact configTurnOk_configCondOp _ _ (by simp [hends, hcond]) rfl
  · exact ⟨by simp [hends, hcond], rfl⟩

theorem configTurnOk_blank (s : Bytes) (hc : c = HT ∨ c = SP) :
    ConfigTurnOk t c s (t.skipTo s) := by
  refine ⟨rfl, .inl ⟨?_, by simp [Tokenizer.skip, skipOne, hc]⟩⟩
  rw [lexemeEnds_sign] <;> rcases hc with rfl | rfl <;> simp [HT, SP] <;> decide

theorem configTurnOk_comma (t : Tokenizer) (s : Bytes) :
    ConfigTurnOk t 44 s (if 0 < t.inBrace then t.take .tkComma (str "(COMMA)") s else t.skipTo s) := by
  have hends := lexemeEnds_sign t s (c := 44) (by decide) (by decide) (by decide)
  have hskip : t.skip (44 :: s) = if 0 < t.inBrace then none else some s := by
    simp only [Tokenizer.skip, skipOne]
    grind
  split_ifs with hb
  · exact ⟨List.suffix_refl s, by simp [hends], by simp [hskip, hb]⟩
  · exact ⟨rfl, .inl ⟨by simp [hends], by simp [hskip, hb]⟩⟩

theorem configTurnOk_plus (t : Tokenizer) (s : Bytes) :
    ConfigTurnOk t 43 s (lookAhead s fun d s' =>
      if d = 61 then t.take .tkAppend (str "+=") s' else t.take .tkPlus (str "+") s) := by
  have hends := lexemeEnds_sign t s (c := 43) (by decide) (by decide) (by decide)
  have hskip : t.skip (43 :: s) = none := rfl
  unfold lookAhead
  rcases s with _ | ⟨d, s⟩
  · simp [ConfigTurnOk, hends]
  · dsimp only
    split_ifs <;> simp [ConfigTurnOk, Tokenizer.take, hends, hskip]

/-- A colon with no `=` behind it is where the loop goes on, again and again. -/
theorem configTurnOk_colon (t : Tokenizer) (s : Bytes) :
    ConfigTurnOk t 58 s (lookAhead s fun d s' =>
      if d = 61 then t.take .tkForceAssign (str ":=") s' else t.skipTo (58 :: s)) := by
  have hends := lexemeEnds_sign t s (c := 58) (by decide) (by decide) (by decide)
  have hskip : t.skip (58 :: s) = none := rfl
  unfold lookAhead
  rcases s with _ | ⟨d, s⟩
  · simp [ConfigTurnOk, hends]
  · dsimp only
    split_ifs with hd
    · subst hd
      simp [ConfigTurnOk, Tokenizer.take, hends, hskip]
    · simp [ConfigTurnOk, Tokenizer.skipTo, hends, hd]

theorem configTurnOk_ite {p : Prop} [Decidable p] {a b : ConfigTurn} (ha : p → ConfigTurnOk t c s a)
    (hb : ¬ p → ConfigTurnOk t c s b) : ConfigTurnOk t c s (if p then a else b) := by
  split_ifs with h
  · exact ha h
  · exact hb h

theorem configTurnOk_configTurn (hc : c ≠ 0) : ConfigTurnOk t c s (configTurn t c s) := by
  unfold configTurn
  refine configTurnOk_ite (fun h => h ▸ configTurnOk_configEqual t s) fun hequal => ?_
  refine configTurnOk_ite (fun h => h ▸ configTurnOk_mark t s) fun hmark => ?_
  refine configTurnOk_ite (fun h => configTurnOk_blank s h) fun hblank => ?_
  refine configTurnOk_ite (fun h => configTurnOk_configNewline s h) fun hline => ?_
  refine configTurnOk_ite (fun h => h ▸ configTurnOk_comma t s) fun hcomma => ?_
  refine configTurnOk_ite (fun h => h ▸ configTurnOk_configQuoted t s) fun hquote => ?_
  refine configTurnOk_ite (fun h => h ▸ configTurnOk_take _ _ (by decide) (by decide) rfl) fun _ => ?_
  refine configTurnOk_ite (fun h => h ▸ configTurnOk_take _ _ (by decide) (by decide) rfl) fun _ => ?_
  refine configTurnOk_ite (fun h => h ▸ configTurnOk_take _ _ (by decide) (by decide) rfl) fun _ => ?_
  refine configTurnOk_ite (fun h => h ▸ configTurnOk_plus t s) fun hplus => ?_
  refine configTurnOk_ite (fun h => h ▸ configTurnOk_colon t s) fun hcolon => ?_
  refine configTurnOk_ite (fun h => h ▸ configTurnOk_take _ _ (by decide) (by decide) rfl) fun _ => ?_
  refine configTurnOk_ite (fun h => h ▸ configTurnOk_take _ _ (by decide) (by decide) rfl) fun _ => ?_
  refine configTurnOk_ite (fun h => h ▸ configTurnOk_take _ _ (by decide) (by decide) rfl) fun _ => ?_
  refine configTurnOk_ite (fun h => h ▸ configTurnOk_take _ _ (by decide) (by decide) rfl) fun _ => ?_
  refine configTurnOk_ite (fun h => h ▸ configTurnOk_comment t s) fun hcomment => ?_
  refine configTurnOk_configWord ?_ ?_
  · simp only [List.mem_cons, List.not_mem_nil, or_false]
    grind
  · simp [Tokenizer.skip, skipOne, hblank, hline, hcomma, hcomment]

end Lighttpd
