import Lighttpd.Lib.Strtol

/-!
# Tokens of expressions in server-side includes

`ssi_expr_tokenizer` reads the next token of an expression. A word goes on to the next byte that is
not `isgraph`, since the `break` for blanks, operators and quotation marks only leaves the switch;
and a byte that starts no token and is not `isgraph` gives an empty word and is not read over.
-/

namespace Lighttpd

open CString

/-! ## The tokenizer -/

abbrev TK_AND : ℕ := 1
abbrev TK_OR : ℕ := 2
abbrev TK_EQ : ℕ := 3
abbrev TK_NE : ℕ := 4
abbrev TK_GT : ℕ := 5
abbrev TK_GE : ℕ := 6
abbrev TK_LT : ℕ := 7
abbrev TK_LE : ℕ := 8
abbrev TK_NOT : ℕ := 9
abbrev TK_LPARAN : ℕ := 10
abbrev TK_RPARAN : ℕ := 11
abbrev TK_VALUE : ℕ := 12

/-- `isgraph` in the C locale. -/
def isGraph (c : UInt8) : Bool := 33 ≤ c && c ≤ 126

/-- A blank or a tab. -/
def isBlank (c : UInt8) : Bool := c = 9 || c = 32

/-- Where variables are looked up: `ssi_cgi_env` and `ssi_vars`. -/
structure SsiEnv where
  cgiEnv : Bytes → Option Bytes
  ssiVars : Bytes → Option Bytes

/-- The value of a variable. -/
def SsiEnv.value (env : SsiEnv) (name : Bytes) : Bytes :=
  ((env.cgiEnv name).orElse fun _ => env.ssiVars name).getD []

/-- What a call of `ssi_expr_tokenizer` does: it returns 1 with a token, and the text from `offset`
on; it returns 0 at the end or -1; or an assertion fails. -/
inductive SsiTokenized
  | token (tokenId : ℕ) (token : Bytes) (rest : Bytes)
  | stop
  | failed
  | aborted
  deriving DecidableEq, Repr

/-- `<`, `>` or `!`, with `=` behind it or without. -/
def ssiTokenEq (withEq : ℕ × Bytes) (without : ℕ × Bytes) : Bytes → SsiTokenized
  | 61 :: s => .token withEq.1 withEq.2 s
  | s => .token without.1 without.2 s

/-- `&&` or `||`, with the second byte at `s`. -/
def ssiTokenTwice (c : UInt8) (tid : ℕ) (text : Bytes) (s : Bytes) : SsiTokenized :=
  if s.head? = some c then .token tid text s.tail else .failed

/-- A string behind its first quotation mark. -/
def ssiTokenString (s : Bytes) : SsiTokenized :=
  let t := s.takeWhile (· ≠ 39)
  if t.length < s.length then .token TK_VALUE t (s.drop (t.length + 1)) else .failed

/-- A byte of a name that is not the first one. -/
def isNameByte (c : UInt8) : Bool := isAlpha c || c = 95 || isDigit c

/-- The name behind `$`. -/
def ssiName : Bytes → Bytes
  | [] => []
  | c :: s => if isAlpha c || c = 95 then c :: s.takeWhile isNameByte else []

/-- A variable behind `$`. The name between braces is copied without its last byte, and the second
brace is not read over. -/
def ssiTokenVariable (env : SsiEnv) (s : Bytes) : SsiTokenized :=
  if s.head? = some 123 then
    let name := s.tail.takeWhile (· ≠ 125)
    if s.tail.length ≤ name.length then .failed
    else if name.length = 0 then .aborted
    else .token TK_VALUE (env.value (name.take (name.length - 1))) (s.tail.drop name.length)
  else .token TK_VALUE (env.value (ssiName s)) (s.drop (ssiName s).length)

/-- `ssi_expr_tokenizer` on the text from `offset` on. -/
def ssiExprTokenizer (env : SsiEnv) : Bytes → SsiTokenized
  | [] => .stop
  | c :: s =>
    if c = 61 then .token TK_EQ (str "(=)") s
    else if c = 62 then ssiTokenEq (TK_GE, str "(>=)") (TK_GT, str "(>)") s
    else if c = 60 then ssiTokenEq (TK_LE, str "(<=)") (TK_LT, str "(<)") s
    else if c = 33 then ssiTokenEq (TK_NE, str "(!=)") (TK_NOT, str "(!)") s
    else if c = 38 then ssiTokenTwice 38 TK_AND (str "(&&)") s
    else if c = 124 then ssiTokenTwice 124 TK_OR (str "(||)") s
    else if isBlank c then ssiExprTokenizer env s
    else if c = 39 then ssiTokenString s
    else if c = 40 then .token TK_LPARAN (str "(") s
    else if c = 41 then .token TK_RPARAN (str ")") s
    else if c = 36 then ssiTokenVariable env s
    else .token TK_VALUE ((c :: s).takeWhile isGraph) ((c :: s).dropWhile isGraph)

/-- The bytes that are no part of a token are skipped. -/
def skipBlanks (s : Bytes) : Bytes := s.dropWhile isBlank

/-- The text starts with a byte that starts no token and is not skipped either. -/
def AtNoToken (s : Bytes) : Prop := ∃ c, s.head? = some c ∧ ¬ isGraph c ∧ ¬ isBlank c

/-- `${}` is next. -/
def AtNoName (s : Bytes) : Prop := [36, 123, 125] <+: skipBlanks s

theorem skipBlanks_cons_of_isBlank {c : UInt8} (h : isBlank c) (s : Bytes) :
    skipBlanks (c :: s) = skipBlanks s := by
  simp [skipBlanks, h]

theorem skipBlanks_cons_of_not {c : UInt8} (h : ¬ isBlank c) (s : Bytes) :
    skipBlanks (c :: s) = c :: s := by
  simp [skipBlanks, h]

theorem skipBlanks_length_le (s : Bytes) : (skipBlanks s).length ≤ s.length :=
  List.length_dropWhile_le _ _

/-- Behind the blanks there is the end of the text or a byte that is no blank. -/
theorem skipBlanks_eq_nil_or (s : Bytes) :
    skipBlanks s = [] ∨ ∃ c t, skipBlanks s = c :: t ∧ ¬ isBlank c := by
  by_cases h : skipBlanks s = []
  · exact .inl h
  · have hb := List.head_dropWhile_not isBlank h
    exact .inr ⟨_, _, (List.cons_head_tail h).symm, by rw [Bool.not_eq_true]; exact hb⟩

theorem ssiExprTokenizer_skipBlanks (env : SsiEnv) (s : Bytes) :
    ssiExprTokenizer env s = ssiExprTokenizer env (skipBlanks s) := by
  induction s with
  | nil => rfl
  | cons c s ih =>
    by_cases hc : isBlank c
    · rw [skipBlanks_cons_of_isBlank hc, ← ih]
      have hne : c = 9 ∨ c = 32 := by simpa [isBlank] using hc
      rcases hne with rfl | rfl <;> rfl
    · rw [skipBlanks_cons_of_not hc]

/-! ## What a call returns -/

/-- A terminal of the grammar. -/
def IsTerminal (tid : ℕ) : Prop := 0 < tid ∧ tid ≤ TK_VALUE

instance : DecidablePred IsTerminal := fun _ => inferInstanceAs (Decidable (_ ∧ _))

/-- What a call may do at a byte `c` that is no blank with the text `s` behind it. -/
def Tokenizes (c : UInt8) (s : Bytes) : SsiTokenized → Prop
  | .token tid _ rest =>
    IsTerminal tid ∧ (rest.length ≤ s.length ↔ isGraph c) ∧ rest.length ≤ (c :: s).length
  | .stop => False
  | .failed => True
  | .aborted => AtNoName (c :: s)

section Tokenizes

variable {c : UInt8} {s : Bytes}

theorem tokenizes_token (hc : isGraph c) {tid : ℕ} (hid : tid ∈ List.range' 1 12) {rest : Bytes}
    (hrest : rest.length ≤ s.length) (text : Bytes) : Tokenizes c s (.token tid text rest) := by
  rw [List.mem_range'_1] at hid
  exact ⟨⟨hid.1, Nat.le_of_lt_succ hid.2⟩, iff_of_true hrest hc, Nat.le_succ_of_le hrest⟩

theorem tokenizes_ssiTokenEq (hc : isGraph c) {a b : ℕ × Bytes} (ha : a.1 ∈ List.range' 1 12)
    (hb : b.1 ∈ List.range' 1 12) : Tokenizes c s (ssiTokenEq a b s) := by
  unfold ssiTokenEq
  split
  · exact tokenizes_token hc ha (Nat.le_succ _) _
  · exact tokenizes_token hc hb le_rfl _

theorem tokenizes_ssiTokenTwice (hc : isGraph c) {tid : ℕ} (hid : tid ∈ List.range' 1 12)
    (d : UInt8) (text : Bytes) : Tokenizes c s (ssiTokenTwice d tid text s) := by
  refine iteInduction (fun _ => ?_) (fun _ => trivial)
  exact tokenizes_token hc hid (List.tail_sublist _).length_le _

theorem tokenizes_ssiTokenString (hc : isGraph c) : Tokenizes c s (ssiTokenString s) := by
  refine iteInduction (fun _ => ?_) (fun _ => trivial)
  exact tokenizes_token hc (by decide) (List.drop_sublist _ _).length_le _

theorem tokenizes_ssiTokenVariable (env : SsiEnv) (s : Bytes) :
    Tokenizes 36 s (ssiTokenVariable env s) := by
  refine iteInduction (fun hbrace => ?_) (fun _ => ?_)
  · refine iteInduction (fun _ => trivial) (fun hlen => iteInduction (fun hno => ?_) (fun _ => ?_))
    · rcases s with _ | ⟨c, _ | ⟨d, s⟩⟩
      · cases hbrace
      · exact absurd (Nat.zero_le _) hlen
      · have hd : d = 125 := by
          by_contra hd
          simp [hd] at hno
        cases hbrace
        rw [hd]
        exact ⟨s, rfl⟩
    · refine tokenizes_token rfl (by decide) ?_ _
      rw [List.length_drop, List.length_tail]
      omega
  · exact tokenizes_token rfl (by decide) (List.drop_sublist _ _).length_le _

theorem tokenizes_ssiExprTokenizer (env : SsiEnv) (hb : ¬ isBlank c) (s : Bytes) :
    Tokenizes c s (ssiExprTokenizer env (c :: s)) := by
  refine iteInduction (fun h => ?_) (fun _ => ?_)
  · exact tokenizes_token (h ▸ rfl) (by decide) le_rfl _
  iterate 3
    refine iteInduction (fun h => ?_) (fun _ => ?_)
    · exact tokenizes_ssiTokenEq (h ▸ rfl) (by decide) (by decide)
  iterate 2
    refine iteInduction (fun h => ?_) (fun _ => ?_)
    · exact tokenizes_ssiTokenTwice (h ▸ rfl) (by decide) _ _
  refine iteInduction (fun h => absurd h hb) (fun _ => ?_)
  refine iteInduction (fun h => ?_) (fun _ => ?_)
  · exact tokenizes_ssiTokenString (h ▸ rfl)
  iterate 2
    refine iteInduction (fun h => ?_) (fun _ => ?_)
    · exact tokenizes_token (h ▸ rfl) (by decide) le_rfl _
  refine iteInduction (fun h => ?_) (fun _ => ?_)
  · rw [h]
    exact tokenizes_ssiTokenVariable env s
  -- a word takes its first byte, if that is a graphic one
  refine ⟨⟨by decide, le_rfl⟩, ?_, List.length_dropWhile_le _ _⟩
  by_cases hg : isGraph c
  · rw [List.dropWhile_cons_of_pos hg]
    exact iff_of_true (List.length_dropWhile_le _ _) hg
  · rw [List.dropWhile_cons_of_neg hg]
    exact iff_of_false (Nat.not_succ_le_self _) hg

end Tokenizes

theorem ssiExprTokenizer_of_atNoToken (env : SsiEnv) {s : Bytes} (h : AtNoToken s) :
    ssiExprTokenizer env s = .token TK_VALUE [] s := by
  obtain ⟨c, hc, hg, hb⟩ := h
  obtain ⟨s, rfl⟩ : ∃ t, s = c :: t := ⟨s.tail, (List.cons_head?_tail hc).symm⟩
  have hne (d : UInt8) (hd : isGraph d) : c ≠ d := fun h => hg (h ▸ hd)
  rw [ssiExprTokenizer, if_neg (hne 61 rfl), if_neg (hne 62 rfl), if_neg (hne 60 rfl),
    if_neg (hne 33 rfl), if_neg (hne 38 rfl), if_neg (hne 124 rfl), if_neg hb, if_neg (hne 39 rfl),
    if_neg (hne 40 rfl), if_neg (hne 41 rfl), if_neg (hne 36 rfl), List.takeWhile_cons_of_neg hg,
    List.dropWhile_cons_of_neg hg]

/-- A call that returns 1 returns a terminal; and it goes on, unless it stands before a byte that
starts no token. -/
theorem ssiExprTokenizer_token {env : SsiEnv} {s text rest : Bytes} {tid : ℕ}
    (h : ssiExprTokenizer env s = .token tid text rest) :
    IsTerminal tid ∧ (rest.length < s.length ↔ ¬ AtNoToken s) := by
  have hs := ssiExprTokenizer_skipBlanks env s
  rw [h] at hs
  rcases skipBlanks_eq_nil_or s with hnil | ⟨c, t, hc, hb⟩
  · rw [hnil] at hs
    cases hs
  have ht := tokenizes_ssiExprTokenizer env hb t
  rw [← hc, ← hs] at ht
  refine ⟨ht.1, ?_⟩
  obtain ⟨d, u, rfl⟩ : ∃ d u, s = d :: u := List.exists_cons_of_ne_nil (by rintro rfl; cases hc)
  have hno : AtNoToken (d :: u) ↔ ¬ isGraph d ∧ ¬ isBlank d := by simp [AtNoToken]
  by_cases hd : isBlank d
  · have hlen := skipBlanks_length_le u
    rw [skipBlanks_cons_of_isBlank hd] at hc
    rw [hc] at hlen
    exact iff_of_true (Nat.lt_succ_of_le (ht.2.2.trans hlen)) fun h => (hno.mp h).2 hd
  · rw [skipBlanks_cons_of_not hd, List.cons.injEq] at hc
    obtain ⟨rfl, rfl⟩ := hc
    rw [List.length_cons, Nat.lt_succ_iff, ht.2.1, hno]
    tauto

theorem ssiExprTokenizer_eq_stop_iff (env : SsiEnv) (s : Bytes) :
    ssiExprTokenizer env s = .stop ↔ skipBlanks s = [] := by
  rw [ssiExprTokenizer_skipBlanks]
  rcases skipBlanks_eq_nil_or s with hs | ⟨c, t, hs, hb⟩ <;> rw [hs]
  · exact iff_of_true rfl rfl
  · refine iff_of_false (fun h => ?_) (List.cons_ne_nil _ _)
    have := tokenizes_ssiExprTokenizer env hb t
    rwa [h] at this

theorem ssiExprTokenizer_eq_aborted_iff (env : SsiEnv) (s : Bytes) :
    ssiExprTokenizer env s = .aborted ↔ AtNoName s := by
  rw [ssiExprTokenizer_skipBlanks]
  constructor
  · intro h
    rcases skipBlanks_eq_nil_or s with hs | ⟨c, t, hs, hb⟩ <;> rw [hs] at h
    · cases h
    · have := tokenizes_ssiExprTokenizer env hb t
      rw [h] at this
      rw [AtNoName, hs, ← skipBlanks_cons_of_not hb t]
      exact this
  · rintro ⟨t, ht⟩
    rw [← ht]
    rfl

end Lighttpd
