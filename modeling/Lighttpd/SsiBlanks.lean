import Lighttpd.SsiEval

/-!
# Blanks in expressions of server-side includes

An expression is laid out as tokens with blanks between them. A word ends only at the next byte that
is not `isgraph`, so a word and the operator behind it are one word, and the last byte of a name
between braces is cut off while the brace is read as a word. `ssiLayout_readsAs_iff` says which
layouts are read as the tokens they are made of; between those, blanks make no difference.
-/

namespace Lighttpd

open CString

/-! ## Layouts -/

/-- The operators of expressions. -/
inductive SsiOp
  | and
  | or
  | eq
  | ne
  | gt
  | ge
  | lt
  | le
  | not
  deriving DecidableEq, Repr

/-- The token of an operator, and its text. -/
def SsiOp.token : SsiOp → ℕ × Bytes
  | .and => (TK_AND, [38, 38])
  | .or => (TK_OR, [124, 124])
  | .eq => (TK_EQ, [61])
  | .ne => (TK_NE, [33, 61])
  | .gt => (TK_GT, [62])
  | .ge => (TK_GE, [62, 61])
  | .lt => (TK_LT, [60])
  | .le => (TK_LE, [60, 61])
  | .not => (TK_NOT, [33])

/-- The tokens that an expression is built from. -/
inductive SsiToken
  | word (w : Bytes)
  | quoted (v : Bytes)
  | var (name : Bytes)
  | braced (name : Bytes)
  | op (o : SsiOp)
  | lparan
  | rparan
  deriving DecidableEq, Repr

/-- The text of a token. -/
def SsiToken.text : SsiToken → Bytes
  | .word w => w
  | .quoted v => 39 :: (v ++ [39])
  | .var name => 36 :: name
  | .braced name => 36 :: 123 :: (name ++ [125])
  | .op o => o.token.2
  | .lparan => [40]
  | .rparan => [41]

/-- What a token means: its code, and the text that goes with it. -/
def SsiToken.meaning (env : SsiEnv) : SsiToken → ℕ × Bytes
  | .word w => (TK_VALUE, w)
  | .quoted v => (TK_VALUE, v)
  | .var name => (TK_VALUE, env.value name)
  | .braced name => (TK_VALUE, env.value name)
  | .op o => (o.token.1, 40 :: (o.token.2 ++ [41]))
  | .lparan => (TK_LPARAN, [40])
  | .rparan => (TK_RPARAN, [41])

/-- A byte of a word: it is neither a blank nor part of an operator, a parenthesis or a quotation
mark. -/
def isWordByte (c : UInt8) : Bool := isGraph c && c ∉ [33, 38, 39, 40, 41, 60, 61, 62, 124]

/-- What a token may hold. -/
def SsiToken.Valid : SsiToken → Prop
  | .word w => w ≠ [] ∧ w.head? ≠ some 36 ∧ ∀ c ∈ w, isWordByte c
  | .quoted v => ∀ c ∈ v, c ≠ 39 ∧ c ≠ 0
  | .var name => name ≠ [] ∧ ssiName name = name
  | .braced name => name ≠ [] ∧ ∀ c ∈ name, c ≠ 125 ∧ c ≠ 0
  | _ => True

/-- Two adjacent words or variables that are another one without a blank between them. -/
def SsiToken.Merges : SsiToken → SsiToken → Prop
  | .word _, .word _ => True
  | .word _, .var _ => True
  | .word _, .braced _ => True
  | .var _, .word w => ∃ c ∈ w.head?, isNameByte c
  | _, _ => False

/-- Tokens with the blanks before each, and the blanks behind the last one. -/
abbrev SsiSpaced : Type := List (Bytes × SsiToken)

/-- The text of an expression. -/
def spacedText (last : Bytes) : SsiSpaced → Bytes
  | [] => last
  | x :: L => x.1 ++ (x.2.text ++ spacedText last L)

/-- Adjacent words are kept apart. -/
def SsiSpaced.Apart (L : SsiSpaced) : Prop :=
  L.IsChain fun x y => y.1 = [] → ¬ x.2.Merges y.2

/-- An expression as it is laid out. -/
structure SsiLayout where
  tokens : SsiSpaced
  last : Bytes
  blanks : ∀ x ∈ tokens, ∀ c ∈ x.1, isBlank c
  lastBlanks : ∀ c ∈ last, isBlank c
  valid : ∀ x ∈ tokens, x.2.Valid
  apart : tokens.Apart

/-- The text of an expression. -/
def SsiLayout.text (L : SsiLayout) : Bytes := spacedText L.last L.tokens

/-- The tokens of an expression. -/
def SsiLayout.lexemes (L : SsiLayout) : List SsiToken := L.tokens.map (·.2)

/-- `ssi_eval_expr` on the text of an expression. -/
def SsiLayout.eval (env : SsiEnv) (L : SsiLayout) : SsiEvaluated :=
  ssiEvalExpr env (L.text.length + 1) L.text

/-- The tokens that are read from a text, up to its end. -/
inductive SsiReads (env : SsiEnv) : Bytes → List (ℕ × Bytes) → Prop
  | stop {s : Bytes} : ssiExprTokenizer env s = .stop → SsiReads env s []
  | token {s rest : Bytes} {x : ℕ × Bytes} {l : List (ℕ × Bytes)} :
      ssiExprTokenizer env s = .token x.1 x.2 rest → SsiReads env rest l → SsiReads env s (x :: l)

/-- In every environment the tokens of the layout are read, each variable with its value. -/
def SsiLayout.ReadsAs (L : SsiLayout) : Prop :=
  ∀ env, SsiReads env L.text (L.lexemes.map (·.meaning env))

/-- What may stand behind a token: behind a word a blank or the end, behind `!`, `<` and `>` no `=`;
and no name stands between braces. -/
def SsiToken.Ends : SsiToken → Bytes → Prop
  | .word _, s => ∀ c ∈ s.head?, isBlank c
  | .braced _, _ => False
  | .op o, s => o ∈ [.not, .lt, .gt] → s.head? ≠ some 61
  | _, _ => True

/-- Each token ends before the next one. -/
def SpacedEnds (last : Bytes) : SsiSpaced → Prop
  | [] => True
  | x :: L => x.2.Ends (spacedText last L) ∧ SpacedEnds last L

/-- Every word has a blank or the end behind it, no `!`, `<` or `>` stands directly before `=`, and
there is no name between braces. -/
def SsiLayout.Separate (L : SsiLayout) : Prop := SpacedEnds L.last L.tokens

/-! ## Reading a token -/

variable {g s : Bytes} {c : UInt8} {t : SsiToken}

theorem skipBlanks_append (hg : ∀ c ∈ g, isBlank c) (s : Bytes) :
    skipBlanks (g ++ s) = skipBlanks s := by
  induction g with
  | nil => rfl
  | cons c g ih =>
    rw [List.cons_append, skipBlanks_cons_of_isBlank (hg c (by simp)),
      ih fun d hd => hg d (by simp [hd])]

theorem ssiExprTokenizer_append_blanks (env : SsiEnv) (hg : ∀ c ∈ g, isBlank c) (s : Bytes) :
    ssiExprTokenizer env (g ++ s) = ssiExprTokenizer env s := by
  rw [ssiExprTokenizer_skipBlanks, skipBlanks_append hg, ← ssiExprTokenizer_skipBlanks]

theorem isGraph_of_isWordByte (h : isWordByte c) : isGraph c := by
  rw [isWordByte, Bool.and_eq_true] at h
  exact h.1

theorem not_isBlank_of_isGraph (h : isGraph c) : ¬ isBlank c := by
  intro hb
  have hc : c = 9 ∨ c = 32 := by simpa [isBlank] using hb
  rcases hc with rfl | rfl <;> exact absurd h (by decide)

theorem ssiExprTokenizer_word (env : SsiEnv) {w : Bytes} (h : (SsiToken.word w).Valid) (s : Bytes) :
    ssiExprTokenizer env (w ++ s) =
      .token TK_VALUE (w ++ s.takeWhile isGraph) (s.dropWhile isGraph) := by
  obtain ⟨hne, h36, hall⟩ := h
  obtain ⟨c, w, rfl⟩ := List.exists_cons_of_ne_nil hne
  have hgraph : ∀ d ∈ c :: w, isGraph d := fun d hd => isGraph_of_isWordByte (hall d hd)
  have hb := not_isBlank_of_isGraph (hgraph c (by simp))
  have hc := hall c (by simp)
  have hsp : ∀ d ∈ [33, 38, 39, 40, 41, 60, 61, 62, 124], c ≠ d := by
    rintro d hd rfl
    simp [isWordByte, hd] at hc
  have h36 : c ≠ 36 := fun h => h36 (by rw [h]; rfl)
  rw [List.cons_append, ssiExprTokenizer, if_neg (hsp 61 (by decide)), if_neg (hsp 62 (by decide)),
    if_neg (hsp 60 (by decide)), if_neg (hsp 33 (by decide)), if_neg (hsp 38 (by decide)),
    if_neg (hsp 124 (by decide)), if_neg hb, if_neg (hsp 39 (by decide)),
    if_neg (hsp 40 (by decide)), if_neg (hsp 41 (by decide)), if_neg h36, ← List.cons_append,
    List.takeWhile_append_of_pos hgraph, List.dropWhile_append_of_pos hgraph]

theorem ssiExprTokenizer_quoted (env : SsiEnv) {v : Bytes} (h : (SsiToken.quoted v).Valid)
    (s : Bytes) : ssiExprTokenizer env (39 :: (v ++ [39]) ++ s) = .token TK_VALUE v s := by
  have htake : ((v ++ [39]) ++ s).takeWhile (· ≠ 39) = v := by
    rw [List.append_assoc, List.takeWhile_append_of_pos fun c hc => by simpa using (h c hc).1]
    simp
  show ssiTokenString ((v ++ [39]) ++ s) = _
  rw [ssiTokenString]
  simp only [htake]
  rw [if_pos (by simp)]
  simp

theorem ssiExprTokenizer_var (env : SsiEnv) {name : Bytes} (h : (SsiToken.var name).Valid)
    (hs : ∀ c ∈ s.head?, ¬ isNameByte c) :
    ssiExprTokenizer env (36 :: name ++ s) = .token TK_VALUE (env.value name) s := by
  obtain ⟨hne, hname⟩ := h
  obtain ⟨c, n, rfl⟩ := List.exists_cons_of_ne_nil hne
  rw [ssiName] at hname
  split at hname
  · rename_i hc
    have hn : n.takeWhile isNameByte = n := (List.cons.inj hname).2
    have hall : ∀ d ∈ n, isNameByte d := by
      intro d hd
      rw [← hn] at hd
      exact List.mem_takeWhile_imp hd
    have hstop : s.takeWhile isNameByte = [] := by
      cases s with
      | nil => rfl
      | cons d s => exact List.takeWhile_cons_of_neg (hs d rfl)
    have hread : ssiName (c :: n ++ s) = c :: n := by
      rw [List.cons_append, ssiName, if_pos hc, List.takeWhile_append_of_pos hall, hstop,
        List.append_nil]
    have h123 : c ≠ 123 := by
      rintro rfl
      exact absurd hc (by decide)
    show ssiTokenVariable env (c :: n ++ s) = _
    rw [ssiTokenVariable, if_neg (by simpa using h123), hread, List.drop_left]
  · cases hname

theorem ssiExprTokenizer_braced (env : SsiEnv) {name : Bytes} (h : (SsiToken.braced name).Valid)
    (s : Bytes) : ssiExprTokenizer env (36 :: 123 :: (name ++ [125]) ++ s) =
      .token TK_VALUE (env.value name.dropLast) (125 :: s) := by
  obtain ⟨hne, hname⟩ := h
  have htake : ((name ++ [125]) ++ s).takeWhile (· ≠ 125) = name := by
    rw [List.append_assoc, List.takeWhile_append_of_pos fun c hc => by simpa using (hname c hc).1]
    simp
  have hpos : 0 < name.length := List.length_pos_iff.mpr hne
  show ssiTokenVariable env (123 :: ((name ++ [125]) ++ s)) = _
  rw [ssiTokenVariable, List.head?_cons, if_pos rfl]
  simp only [List.tail_cons, htake]
  rw [if_neg (by simp), if_neg hpos.ne', List.dropLast_eq_take]
  simp

theorem ssiTokenEq_of_ne (h : s.head? ≠ some 61) (a b : ℕ × Bytes) :
    ssiTokenEq a b s = .token b.1 b.2 s := by
  unfold ssiTokenEq
  split
  · exact absurd rfl h
  · rfl

theorem ssiExprTokenizer_op (env : SsiEnv) {o : SsiOp} (h : (SsiToken.op o).Ends s) :
    ssiExprTokenizer env (o.token.2 ++ s) = .token o.token.1 (40 :: (o.token.2 ++ [41])) s := by
  cases o with
  | not => exact ssiTokenEq_of_ne (h (by decide)) _ _
  | lt => exact ssiTokenEq_of_ne (h (by decide)) _ _
  | gt => exact ssiTokenEq_of_ne (h (by decide)) _ _
  | _ => rfl

/-- What stands behind a name is no part of it. -/
def SsiToken.Follows : SsiToken → Bytes → Prop
  | .var _, s => ∀ c ∈ s.head?, ¬ isNameByte c
  | _, _ => True

theorem SsiToken.read (env : SsiEnv) (hv : t.Valid) (hf : t.Follows s) (he : t.Ends s) :
    ssiExprTokenizer env (t.text ++ s) = .token (t.meaning env).1 (t.meaning env).2 s := by
  cases t with
  | word w =>
    have hs : s.takeWhile isGraph = [] ∧ s.dropWhile isGraph = s := by
      cases s with
      | nil => exact ⟨rfl, rfl⟩
      | cons c s =>
        have hc : ¬ isGraph c := fun hg => not_isBlank_of_isGraph hg (he c rfl)
        exact ⟨List.takeWhile_cons_of_neg hc, List.dropWhile_cons_of_neg hc⟩
    show ssiExprTokenizer env (w ++ s) = _
    rw [ssiExprTokenizer_word env hv, hs.1, hs.2, List.append_nil]
    rfl
  | quoted v => exact ssiExprTokenizer_quoted env hv s
  | var name => exact ssiExprTokenizer_var env hv hf
  | braced name => exact absurd he id
  | op o => exact ssiExprTokenizer_op env he
  | lparan => rfl
  | rparan => rfl

/-- An environment in which every variable has a value of its own. -/
def ssiOwnEnv : SsiEnv := ⟨fun name => some (1 :: name), fun _ => none⟩

/-- A token that is read as it is ends where the text goes on with a blank or a graphic byte. -/
theorem SsiToken.ends_of_read (hv : t.Valid) {rest : Bytes}
    (hs : ∀ c ∈ s.head?, isBlank c ∨ isGraph c) (h : ssiExprTokenizer ssiOwnEnv (t.text ++ s) =
      .token (t.meaning ssiOwnEnv).1 (t.meaning ssiOwnEnv).2 rest) : t.Ends s := by
  cases t with
  | word w =>
    intro c hc
    refine (hs c hc).resolve_right fun hg => ?_
    obtain ⟨s, rfl⟩ : ∃ u, s = c :: u := ⟨s.tail, (List.cons_head?_tail hc).symm⟩
    have hw : ssiExprTokenizer ssiOwnEnv (w ++ c :: s) = .token TK_VALUE w rest := h
    rw [ssiExprTokenizer_word ssiOwnEnv hv, List.takeWhile_cons_of_pos hg] at hw
    have heq : w ++ c :: s.takeWhile isGraph = w := (SsiTokenized.token.inj hw).2.1
    simp at heq
  | braced name =>
    have hb : ssiExprTokenizer ssiOwnEnv (36 :: 123 :: (name ++ [125]) ++ s) =
      .token TK_VALUE (1 :: name) rest := h
    rw [ssiExprTokenizer_braced ssiOwnEnv hv] at hb
    have heq : 1 :: name.dropLast = 1 :: name := (SsiTokenized.token.inj hb).2.1
    have hlen := congrArg List.length (List.cons.inj heq).2
    rw [List.length_dropLast] at hlen
    have hpos := List.length_pos_iff.mpr hv.1
    omega
  | op o =>
    intro ho heq
    obtain ⟨s, rfl⟩ : ∃ u, s = 61 :: u := ⟨s.tail, (List.cons_head?_tail heq).symm⟩
    simp only [List.mem_cons, List.not_mem_nil, or_false] at ho
    rcases ho with rfl | rfl | rfl
    · have hne : SsiTokenized.token TK_NE (str "(!=)") s = .token TK_NOT [40, 33, 41] rest := h
      exact absurd (SsiTokenized.token.inj hne).1 (by decide)
    · have hle : SsiTokenized.token TK_LE (str "(<=)") s = .token TK_LT [40, 60, 41] rest := h
      exact absurd (SsiTokenized.token.inj hle).1 (by decide)
    · have hge : SsiTokenized.token TK_GE (str "(>=)") s = .token TK_GT [40, 62, 41] rest := h
      exact absurd (SsiTokenized.token.inj hge).1 (by decide)
  | _ => trivial

theorem SsiToken.text_ne_nil (hv : t.Valid) : t.text ≠ [] := by
  cases t with
  | word w => exact hv.1
  | op o => cases o <;> exact List.cons_ne_nil _ _
  | _ => exact List.cons_ne_nil _ _

/-- The first byte of a token is graphic, and only that of a word can be part of a name. -/
theorem SsiToken.head_text (hv : t.Valid) (hc : c ∈ t.text.head?) :
    isGraph c ∧ (isNameByte c → ∃ w, t = .word w) := by
  cases t with
  | word w => exact ⟨isGraph_of_isWordByte (hv.2.2 c (List.mem_of_mem_head? hc)), fun _ => ⟨w, rfl⟩⟩
  | op o =>
    cases o <;>
    · obtain rfl := Option.some.inj hc
      exact ⟨by decide, fun h => absurd h (by decide)⟩
  | _ =>
    obtain rfl := Option.some.inj hc
    exact ⟨by decide, fun h => absurd h (by decide)⟩

section Layouts

variable {last : Bytes} {L : SsiSpaced} (hlast : ∀ c ∈ last, isBlank c)
  (hblanks : ∀ x ∈ L, ∀ c ∈ x.1, isBlank c) (hvalid : ∀ x ∈ L, x.2.Valid)

include hlast hblanks hvalid

theorem head_spacedText (hc : c ∈ (spacedText last L).head?) :
    isBlank c ∨ ∃ x L', L = x :: L' ∧ x.1 = [] ∧ c ∈ x.2.text.head? := by
  cases L with
  | nil => exact .inl (hlast c (List.mem_of_mem_head? hc))
  | cons x L =>
    rw [spacedText] at hc
    rcases hx : x.1 with _ | ⟨d, g⟩
    · refine .inr ⟨x, L, rfl, hx, ?_⟩
      obtain ⟨d, u, hd⟩ := List.exists_cons_of_ne_nil (SsiToken.text_ne_nil (hvalid x (by simp)))
      rw [hx, List.nil_append, hd] at hc
      rw [hd]
      exact hc
    · rw [hx] at hc
      obtain rfl := Option.some.inj hc
      exact .inl (hblanks x (by simp) d (by rw [hx]; simp))

theorem head_spacedText_isGraph (hc : c ∈ (spacedText last L).head?) : isBlank c ∨ isGraph c := by
  refine (head_spacedText hlast hblanks hvalid hc).imp_right ?_
  rintro ⟨x, L', rfl, -, hx⟩
  exact (SsiToken.head_text (hvalid x (by simp)) hx).1

/-- What is laid out behind a variable is kept apart from it. -/
theorem follows_spacedText {y : Bytes × SsiToken} (h : SsiSpaced.Apart (y :: L)) :
    y.2.Follows (spacedText last L) := by
  rcases hy : y.2 with _ | _ | name | _ | _ | _ | _
  case var =>
    intro c hc hn
    rcases head_spacedText hlast hblanks hvalid hc with hb | ⟨x, L', rfl, hx, hmem⟩
    · have hc : c = 9 ∨ c = 32 := by simpa [isBlank] using hb
      rcases hc with rfl | rfl <;> exact absurd hn (by decide)
    · obtain ⟨w, hw⟩ := (SsiToken.head_text (hvalid x (by simp)) hmem).2 hn
      refine (List.isChain_cons_cons.mp h).1 hx ?_
      rw [hy, hw]
      rw [hw] at hmem
      exact ⟨c, hmem, hn⟩
  all_goals trivial

/-- The tokens of a layout are read, if each ends before the next one. -/
theorem SpacedEnds.ssiReads (env : SsiEnv) (hap : SsiSpaced.Apart L) (h : SpacedEnds last L) :
    SsiReads env (spacedText last L) (L.map fun x => x.2.meaning env) := by
  induction L with
  | nil =>
    refine .stop ((ssiExprTokenizer_eq_stop_iff env last).mpr ?_)
    have hskip := skipBlanks_append hlast []
    rwa [List.append_nil] at hskip
  | cons x L ih =>
    have hv := hvalid x (by simp)
    have hblanks' : ∀ y ∈ L, ∀ c ∈ y.1, isBlank c := fun y hy => hblanks y (by simp [hy])
    have hvalid' : ∀ y ∈ L, y.2.Valid := fun y hy => hvalid y (by simp [hy])
    have hf := follows_spacedText hlast hblanks' hvalid' hap
    refine .token ?_ (ih hblanks' hvalid' hap.of_cons h.2)
    rw [spacedText, ssiExprTokenizer_append_blanks env (hblanks x (by simp))]
    exact SsiToken.read env hv hf h.1

theorem spacedEnds_of_ssiReads (hap : SsiSpaced.Apart L)
    (h : SsiReads ssiOwnEnv (spacedText last L) (L.map fun x => x.2.meaning ssiOwnEnv)) :
    SpacedEnds last L := by
  induction L with
  | nil => trivial
  | cons x L ih =>
    have hv := hvalid x (by simp)
    have hblanks' : ∀ y ∈ L, ∀ c ∈ y.1, isBlank c := fun y hy => hblanks y (by simp [hy])
    have hvalid' : ∀ y ∈ L, y.2.Valid := fun y hy => hvalid y (by simp [hy])
    rw [List.map_cons] at h
    cases h with
    | token htok hrest =>
      rw [spacedText, ssiExprTokenizer_append_blanks _ (hblanks x (by simp))] at htok
      have hends := SsiToken.ends_of_read hv
        (fun c hc => head_spacedText_isGraph hlast hblanks' hvalid' hc) htok
      have hread := SsiToken.read ssiOwnEnv hv
        (follows_spacedText hlast hblanks' hvalid' hap) hends
      obtain rfl := (SsiTokenized.token.inj (htok.symm.trans hread)).2.2
      exact ⟨hends, ih hblanks' hvalid' hap.of_cons hrest⟩

end Layouts

/-! ## The same tokens -/

/-- `ssi_eval_expr` on the tokens of a text. -/
def ssiEvalTokens : List (ℕ × Bytes) → SsiParser → SsiEvaluated
  | [], p => ssiEvalEnd 0 p
  | x :: l, p =>
    if p.ok then
      match ssiexprparser p x.1 x.2 with
      | none => .undefined
      | some p => ssiEvalTokens l p
    else ssiEvalEnd 1 p

theorem SsiReads.ssiEvalLoop {env : SsiEnv} {l : List (ℕ × Bytes)} (h : SsiReads env s l) {fuel : ℕ}
    (hfuel : l.length < fuel) (p : SsiParser) : ssiEvalLoop env fuel s p = ssiEvalTokens l p := by
  induction h generalizing fuel p with
  | stop hstop =>
    obtain ⟨fuel, rfl⟩ := Nat.exists_eq_add_of_lt hfuel
    rw [Lighttpd.ssiEvalLoop, hstop, ssiEvalTokens]
  | @token s rest x l htok _ ih =>
    obtain ⟨fuel, rfl⟩ := Nat.exists_eq_add_of_lt hfuel
    rw [Lighttpd.ssiEvalLoop, htok, ssiEvalTokens]
    have hlt : l.length < (x :: l).length + fuel := by
      rw [List.length_cons]
      omega
    simp only
    cases ssiexprparser p x.1 x.2 with
    | none => rfl
    | some p' => simp only [ih hlt]

theorem SsiToken.zero_notMem_text (hv : t.Valid) : (0 : UInt8) ∉ t.text := by
  cases t with
  | word w => exact fun h => absurd (isGraph_of_isWordByte (hv.2.2 0 h)) (by decide)
  | quoted v =>
    have hno : (0 : UInt8) ∉ v := fun h => (hv 0 h).2 rfl
    simp [SsiToken.text, hno]
  | var name =>
    have hno : (0 : UInt8) ∉ name := by
      rw [← hv.2]
      cases name with
      | nil => simp [ssiName]
      | cons c n =>
        rw [ssiName]
        split
        · rename_i hc
          rw [List.mem_cons, not_or]
          refine ⟨?_, fun h => absurd (List.mem_takeWhile_imp h) (by decide)⟩
          rintro rfl
          exact absurd hc (by decide)
        · simp
    simp [SsiToken.text, hno]
  | braced name =>
    have hno : (0 : UInt8) ∉ name := fun h => (hv.2 0 h).2 rfl
    simp [SsiToken.text, hno]
  | op o => cases o <;> decide
  | lparan => decide
  | rparan => decide

theorem zero_notMem_blanks (hg : ∀ c ∈ g, isBlank c) : (0 : UInt8) ∉ g :=
  fun h => absurd (hg 0 h) (by decide)

theorem zero_notMem_spacedText {last : Bytes} {L : SsiSpaced} (hlast : ∀ c ∈ last, isBlank c)
    (hblanks : ∀ x ∈ L, ∀ c ∈ x.1, isBlank c) (hvalid : ∀ x ∈ L, x.2.Valid) :
    (0 : UInt8) ∉ spacedText last L := by
  induction L with
  | nil => exact zero_notMem_blanks hlast
  | cons x L ih =>
    have hL := ih (fun y hy => hblanks y (by simp [hy])) fun y hy => hvalid y (by simp [hy])
    rw [spacedText, List.mem_append, List.mem_append, not_or, not_or]
    exact ⟨zero_notMem_blanks (hblanks x (by simp)),
      SsiToken.zero_notMem_text (hvalid x (by simp)), hL⟩

theorem length_le_spacedText (last : Bytes) {L : SsiSpaced} (hvalid : ∀ x ∈ L, x.2.Valid) :
    L.length ≤ (spacedText last L).length := by
  induction L with
  | nil => exact Nat.zero_le _
  | cons x L ih =>
    have hL := ih fun y hy => hvalid y (by simp [hy])
    have hpos := List.length_pos_iff.mpr (SsiToken.text_ne_nil (hvalid x (by simp)))
    rw [spacedText, List.length_append, List.length_append, List.length_cons]
    omega

theorem SsiLayout.readsAs_iff (L : SsiLayout) : L.ReadsAs ↔ L.Separate := by
  have hmap : ∀ env, L.lexemes.map (·.meaning env) = L.tokens.map fun x => x.2.meaning env :=
    fun env => by rw [SsiLayout.lexemes, List.map_map]; rfl
  constructor
  · intro h
    have hread := h ssiOwnEnv
    rw [hmap] at hread
    exact spacedEnds_of_ssiReads L.lastBlanks L.blanks L.valid L.apart hread
  · intro h env
    rw [hmap]
    exact SpacedEnds.ssiReads L.lastBlanks L.blanks L.valid env L.apart h

theorem SsiLayout.eval_eq {L : SsiLayout} (h : L.ReadsAs) (env : SsiEnv) :
    L.eval env = ssiEvalTokens (L.lexemes.map (·.meaning env)) ssiexprparserAlloc := by
  have hcstr : cstr L.text = L.text :=
    cstr_of_notMem (zero_notMem_spacedText L.lastBlanks L.blanks L.valid)
  rw [SsiLayout.eval, ssiEvalExpr, hcstr]
  refine (h env).ssiEvalLoop ?_ _
  rw [List.length_map, SsiLayout.lexemes, List.length_map]
  exact Nat.lt_succ_of_le (length_le_spacedText L.last L.valid)

/-- A layout is read as its tokens, each variable with its value, if and only if every word has a
blank or the end behind it, no `!`, `<` or `>` stands directly before `=`, and there is no name
between braces. Two such layouts of the same tokens have the same result. -/
theorem ssiLayout_readsAs_iff (L : SsiLayout) :
    (L.ReadsAs ↔ L.Separate) ∧
      ∀ L' : SsiLayout, L'.lexemes = L.lexemes → L.Separate → L'.Separate →
        ∀ env, L'.eval env = L.eval env := by
  refine ⟨L.readsAs_iff, fun L' hsame h h' env => ?_⟩
  rw [SsiLayout.eval_eq (L'.readsAs_iff.mpr h'), SsiLayout.eval_eq (L.readsAs_iff.mpr h), hsame]

/-- `a=b` is one word, which is true; `a = b` is a comparison, which is false. -/
theorem not_ssiLayout_eval_eq : ∃ L L' : SsiLayout, L.text = str "a=b" ∧ L'.text = str "a = b" ∧
    L.lexemes = L'.lexemes ∧ L.eval ssiNoEnv ≠ L'.eval ssiNoEnv := by
  have hvalid : ∀ t ∈ [SsiToken.word [97], .op .eq, .word [98]], t.Valid := by
    simp [SsiToken.Valid, isWordByte, isGraph]
  have hmerges : ¬ (SsiToken.word [97]).Merges (.op .eq) ∧
      ¬ (SsiToken.op .eq).Merges (.word [98]) := ⟨id, id⟩
  refine ⟨⟨[([], .word [97]), ([], .op .eq), ([], .word [98])], [], by simp, by simp, ?_, ?_⟩,
    ⟨[([], .word [97]), ([32], .op .eq), ([32], .word [98])], [], ?_, by simp, ?_, ?_⟩,
    ?_, ?_, rfl, ?_⟩
  · simpa using hvalid
  · simpa [SsiSpaced.Apart] using hmerges
  · simp [isBlank]
  · simpa using hvalid
  · simp [SsiSpaced.Apart]
  · exact (by decide : spacedText [] [([], .word [97]), ([], .op .eq), ([], .word [98])] = str "a=b")
  · exact (by decide :
      spacedText [] [([], .word [97]), ([32], .op .eq), ([32], .word [98])] = str "a = b")
  · have htight : ssiEvalExpr ssiNoEnv 4 (str "a=b") = .returned (some 1) := by decide +kernel
    have hwide : ssiEvalExpr ssiNoEnv 6 (str "a = b") = .returned (some 0) := by decide +kernel
    show ssiEvalExpr ssiNoEnv 4 (str "a=b") ≠ ssiEvalExpr ssiNoEnv 6 (str "a = b")
    rw [htight, hwide]
    decide

end Lighttpd
