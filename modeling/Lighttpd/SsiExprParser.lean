import Lighttpd.SsiExpr

/-!
# The parser of expressions in server-side includes

`mod_ssi_exprparser.c`: a table-driven parser made from the grammar of expressions, with a stack of
at most 100 entries. Along the edges of its automaton every reduction finds on the stack what its
rule asks for, so a call always returns, and at the end of the input it leaves an empty stack.
-/

namespace Lighttpd

open CString

/-- The types of `ssi_val_t`. -/
inductive SsiType
  | unset
  | bool
  | string
  deriving DecidableEq, Repr

/-- `ssi_val_t` -/
structure SsiVal where
  type : SsiType
  str : Bytes
  bo : ℤ
  deriving DecidableEq, Repr

/-- `ssi_expr_cond` -/
inductive SsiExprCond
  | unset
  | le
  | ge
  | eq
  | ne
  | lt
  | gt
  deriving DecidableEq, Repr

/-- `ssi_val_tobool` -/
def ssiValTobool (v : SsiVal) : ℤ :=
  if v.type = .string then if v.str.isEmpty then 0 else 1 else v.bo

/-- `strcmp` on strings that end at their first zero. -/
def strcmpFrom : Bytes → Bytes → ℤ
  | [], [] => 0
  | [], _ :: _ => -1
  | _ :: _, [] => 1
  | a :: s, b :: t => if a < b then -1 else if b < a then 1 else strcmpFrom s t

/-- `strcmp` -/
def strcmp (a b : Bytes) : ℤ := strcmpFrom (cstr a) (cstr b)

/-- An `int` that holds a truth value. -/
def ofBool (b : Bool) : ℤ := if b then 1 else 0

/-- The comparison of rule 1; `yygotominor` keeps its `bo` with another condition. -/
def ssiCompare (a : SsiVal) (cond : SsiExprCond) (b : SsiVal) : SsiVal :=
  let cmp := if a.type = .string ∧ b.type = .string then strcmp a.str b.str
    else ssiValTobool a - ssiValTobool b
  let bo := match cond with
    | .eq => ofBool (cmp = 0)
    | .ne => ofBool (cmp ≠ 0)
    | .ge => ofBool (cmp ≥ 0)
    | .gt => ofBool (cmp > 0)
    | .le => ofBool (cmp ≤ 0)
    | .lt => ofBool (cmp < 0)
    | .unset => a.bo
  { a with type := .bool, bo := bo }

/-! ## The tables -/

abbrev YYNOCODE : ℕ := 20
abbrev YYSTACKDEPTH : ℕ := 100
abbrev YYNSTATE : ℕ := 23
abbrev YYNRULE : ℕ := 16
abbrev YYERRORSYMBOL : ℕ := 13
abbrev YY_NO_ACTION : ℕ := YYNSTATE + YYNRULE + 2
abbrev YY_ACCEPT_ACTION : ℕ := YYNSTATE + YYNRULE + 1
abbrev YY_ERROR_ACTION : ℕ := YYNSTATE + YYNRULE
abbrev YY_SHIFT_USE_DFLT : ℤ := -2
abbrev YY_REDUCE_USE_DFLT : ℤ := -7

def yyActionTable : List ℕ :=
  [5, 7, 17, 18, 22, 20, 21, 19, 2, 14,
   1, 23, 40, 9, 11, 3, 16, 2, 14, 12,
   4, 14, 5, 7, 6, 14, 7, 8, 14, 10,
   14, 13, 37, 37, 15]

def yyLookahead : List ℕ :=
  [1, 2, 3, 4, 5, 6, 7, 8, 14, 15,
   16, 0, 18, 9, 10, 17, 12, 14, 15, 16,
   14, 15, 1, 2, 14, 15, 2, 14, 15, 14,
   15, 11, 19, 19, 12]

def yyShiftOfst : List ℤ :=
  [4, 11, -1, 4, 21, 4, 24, 4, -2, 4,
   -2, 4, 20, -2, 22, -2, -2, -2, -2, -2,
   -2, -2, -2]

def yyReduceOfst : List ℤ :=
  [-6, -7, -2, 6, -7, 10, -7, 13, -7, 15,
   -7, 3, -7, -7, -7, -7, -7, -7, -7, -7,
   -7, -7, -7]

def yyDefault : List ℕ :=
  [39, 39, 25, 39, 24, 39, 26, 39, 27, 39,
   28, 39, 39, 29, 30, 32, 31, 33, 34, 35,
   36, 37, 38]

/-- `yyRuleInfo`: the left-hand side of each rule and how many symbols are on the right. -/
def yyRuleInfo : List (ℕ × ℕ) :=
  [(18, 1), (16, 3), (16, 1), (14, 3), (14, 3), (14, 2), (14, 3), (14, 1), (15, 1), (15, 2),
   (17, 1), (17, 1), (17, 1), (17, 1), (17, 1), (17, 1)]

/-- The part that `yy_find_shift_action` and `yy_find_reduce_action` share: the action at an offset
into the table. -/
def yyFindAction (ofst useDflt : ℤ) (stateno iLookAhead : ℕ) : ℕ :=
  if ofst = useDflt then yyDefault.getD stateno 0
  else if iLookAhead = YYNOCODE then YY_NO_ACTION
  else
    let i := ofst + iLookAhead
    if i < 0 ∨ i.toNat ≥ yyActionTable.length ∨ yyLookahead.getD i.toNat 0 ≠ iLookAhead then
      yyDefault.getD stateno 0
    else yyActionTable.getD i.toNat 0

/-- `yy_find_shift_action` -/
def yyFindShiftAction (stateno iLookAhead : ℕ) : ℕ :=
  yyFindAction (yyShiftOfst.getD stateno 0) YY_SHIFT_USE_DFLT stateno iLookAhead

/-- `yy_find_reduce_action` -/
def yyFindReduceAction (stateno iLookAhead : ℕ) : ℕ :=
  yyFindAction (yyReduceOfst.getD stateno 0) YY_REDUCE_USE_DFLT stateno iLookAhead

/-! ## The parser -/

/-- `YYMINORTYPE`; `yystack[0]` has none. -/
inductive YyMinor
  | unset
  | yy0 (token : Bytes)
  | yy8 (cond : SsiExprCond)
  | yy19 (value : Bytes)
  | yy29 (val : SsiVal)
  deriving DecidableEq, Repr

/-- `yyStackEntry` -/
structure YyStackEntry where
  stateno : ℕ
  major : ℕ
  minor : YyMinor
  deriving DecidableEq, Repr

/-- `yyParser` with its stack, the top first, and of `ssi_ctx_t` the fields `ok` and `val.bo`. -/
structure SsiParser where
  yystack : List YyStackEntry
  ok : Bool
  bo : Option ℤ
  deriving DecidableEq, Repr

/-- `ssiexprparserAlloc`, with the context of `ssi_eval_expr`. -/
def ssiexprparserAlloc : SsiParser := ⟨[], true, none⟩

/-- `yy_shift` -/
def yyShift (p : SsiParser) (newState major : ℕ) (minor : YyMinor) : SsiParser :=
  if p.yystack.length ≥ YYSTACKDEPTH then { p with yystack := [] }
  else { p with yystack := ⟨newState, major, minor⟩ :: p.yystack }

/-- The switch of `yy_reduce`: what the rule makes of the entries on top, and `val.bo` behind it.
There is no result if an entry holds another member of the union. -/
def yyRule (bo : Option ℤ) : ℕ → List YyMinor → Option (YyMinor × Option ℤ)
  | 0, .yy29 b :: _ => some (.unset, some (ssiValTobool b))
  | 1, .yy29 c :: .yy8 b :: .yy29 a :: _ => some (.yy29 (ssiCompare a b c), bo)
  | 2, .yy29 b :: _ => some (.yy29 b, bo)
  | 3, .yy29 c :: _ :: .yy29 a :: _ =>
    some (.yy29 { a with type := .bool, bo := ofBool (ssiValTobool a ≠ 0 ∧ ssiValTobool c ≠ 0) }, bo)
  | 4, .yy29 c :: _ :: .yy29 a :: _ =>
    some (.yy29 { a with type := .bool, bo := ofBool (ssiValTobool a ≠ 0 ∨ ssiValTobool c ≠ 0) }, bo)
  | 5, .yy29 b :: _ => some (.yy29 { b with type := .bool, bo := ofBool (ssiValTobool b = 0) }, bo)
  | 6, _ :: .yy29 b :: _ => some (.yy29 b, bo)
  | 7, .yy19 b :: _ => some (.yy29 ⟨.string, b, 0⟩, bo)
  | 8, .yy0 b :: _ => some (.yy19 b, bo)
  | 9, .yy0 c :: .yy19 b :: _ => some (.yy19 (b ++ c), bo)
  | 10, _ => some (.yy8 .eq, bo)
  | 11, _ => some (.yy8 .ne, bo)
  | 12, _ => some (.yy8 .le, bo)
  | 13, _ => some (.yy8 .ge, bo)
  | 14, _ => some (.yy8 .lt, bo)
  | 15, _ => some (.yy8 .gt, bo)
  | _, _ => none

/-- `yy_accept` -/
def yyAccept (p : SsiParser) : SsiParser := { p with yystack := [] }

/-- `yy_reduce`; there is no result if the rule finds other entries than it asks for, or none below
them. -/
def yyReduce (p : SsiParser) (yyruleno : ℕ) : Option SsiParser := do
  let (lhs, nrhs) ← yyRuleInfo[yyruleno]?
  let (yygotominor, bo) ← yyRule p.bo yyruleno ((p.yystack.take nrhs).map (·.minor))
  let top ← (p.yystack.drop nrhs).head?
  let p := { p with yystack := p.yystack.drop nrhs, bo := bo }
  let yyact := yyFindReduceAction top.stateno lhs
  some <| if yyact < YYNSTATE then yyShift p yyact lhs yygotominor
    else if yyact = YY_ACCEPT_ACTION then yyAccept p
    else p

/-- `yy_parse_failed` -/
def yyParseFailed (p : SsiParser) : SsiParser := { p with yystack := [], ok := false }

/-- The entries that are left when `ssiexprparser` looks for one that takes the error symbol. -/
def yyPopError (yymx : ℕ) : List YyStackEntry → List YyStackEntry
  | [] => []
  | e :: st =>
    if yymx ≠ YYERRORSYMBOL ∧ yyFindShiftAction e.stateno YYERRORSYMBOL ≥ YYNSTATE then
      yyPopError yymx st
    else e :: st

/-- What the first syntax error in a call does, and the token that is left. -/
def yySyntaxError (p : SsiParser) (yymajor : ℕ) (top : YyStackEntry) : SsiParser × ℕ :=
  match yyPopError top.major p.yystack with
  | [] => (yyParseFailed p, YYNOCODE)
  | e :: st =>
    if yymajor = 0 then (yyParseFailed p, YYNOCODE)
    else if top.major ≠ YYERRORSYMBOL then
      (yyShift { p with yystack := e :: st } (yyFindShiftAction e.stateno YYERRORSYMBOL)
        YYERRORSYMBOL .unset, yymajor)
    else ({ p with yystack := e :: st }, yymajor)

/-- The loop of `ssiexprparser`, which is run at most `fuel` times. -/
def yyLoop (yyendofinput : Bool) (minor : Bytes) :
    ℕ → SsiParser → ℕ → Bool → Option SsiParser
  | 0, _, _, _ => none
  | fuel + 1, p, yymajor, yyerrorhit => do
    let top ← p.yystack.head?
    let yyact := yyFindShiftAction top.stateno yymajor
    let (p, yymajor, yyerrorhit) ←
      if yyact < YYNSTATE then
        let p := yyShift p yyact yymajor (.yy0 minor)
        some (p, if yyendofinput && !p.yystack.isEmpty then 0 else YYNOCODE, yyerrorhit)
      else if yyact < YYNSTATE + YYNRULE then
        (yyReduce p (yyact - YYNSTATE)).map fun p => (p, yymajor, yyerrorhit)
      else if yyact = YY_ERROR_ACTION then
        if top.major = YYERRORSYMBOL ∨ yyerrorhit then some (p, YYNOCODE, true)
        else
          let r := yySyntaxError p yymajor top
          some (r.1, r.2, true)
      else some (yyAccept p, YYNOCODE, yyerrorhit)
    if yymajor ≠ YYNOCODE ∧ p.yystack ≠ [] then yyLoop yyendofinput minor fuel p yymajor yyerrorhit
    else some p

/-- `ssiexprparser` -/
def ssiexprparser (p : SsiParser) (yymajor : ℕ) (yyminor : Bytes) : Option SsiParser :=
  if p.yystack = [] ∧ yymajor = 0 then some p
  else
    let p := if p.yystack = [] then { p with yystack := [⟨0, 0, .unset⟩] } else p
    yyLoop (yymajor = 0) yyminor (5 * p.yystack.length + 5) p yymajor false

/-! ## The automaton -/

/-- The state behind `s` for a terminal or a nonterminal `m`. -/
def yyGoto (s m : ℕ) : ℕ :=
  if m < YYERRORSYMBOL then yyFindShiftAction s m else yyFindReduceAction s m

/-- The edges of the automaton: a state, a symbol and the state behind it. -/
def yyEdges : List (ℕ × ℕ × ℕ) :=
  [(0, 9, 9), (0, 10, 11), (0, 12, 16), (0, 14, 2), (0, 15, 14), (0, 16, 1), (2, 1, 5), (2, 2, 7),
   (2, 3, 17), (2, 4, 18), (2, 5, 22), (2, 6, 20), (2, 7, 21), (2, 8, 19), (2, 17, 3), (3, 9, 9),
   (3, 10, 11), (3, 12, 16), (3, 14, 4), (3, 15, 14), (4, 1, 5), (4, 2, 7), (5, 9, 9), (5, 10, 11),
   (5, 12, 16), (5, 14, 6), (5, 15, 14), (6, 2, 7), (7, 9, 9), (7, 10, 11), (7, 12, 16), (7, 14, 8),
   (7, 15, 14), (9, 9, 9), (9, 10, 11), (9, 12, 16), (9, 14, 10), (9, 15, 14), (11, 9, 9),
   (11, 10, 11), (11, 12, 16), (11, 14, 2), (11, 15, 14), (11, 16, 12), (12, 11, 13), (14, 12, 15)]

/-- The symbols on the right of each rule, the last one first. -/
def yyRhs : List (List ℕ) :=
  [[16], [14, 17, 14], [14], [14, 1, 14], [14, 2, 14], [14, 9], [11, 16, 10], [15], [12], [12, 15],
   [3], [4], [8], [6], [7], [5]]

theorem yyGoto_mem_yyEdges : ∀ s < YYNSTATE, ∀ m < 19,
    YYNSTATE ≤ yyGoto s m ∨ (s, m, yyGoto s m) ∈ yyEdges := by
  decide +kernel

theorem yyEdges_lt : ∀ e ∈ yyEdges, e.2.2 < YYNSTATE ∧ e.2.2 ≠ 0 ∧ e.2.1 ≠ YYERRORSYMBOL := by
  decide

/-- On every path that leads to state `t`, the symbols `rhs` come last, and the state before them
goes on with `lhs`: it is the first one and accepts, or it has an edge. -/
def YyPops (lhs : ℕ) : List ℕ → ℕ → Prop
  | [], t => lhs = 18 ∧ yyGoto t lhs = YY_ACCEPT_ACTION ∨ lhs ≠ 18 ∧ yyGoto t lhs < YYNSTATE
  | m :: rhs, t => t ≠ 0 ∧ ∀ e ∈ yyEdges, e.2.2 = t → e.2.1 = m ∧ YyPops lhs rhs e.1

instance decidableYyPops (lhs : ℕ) : (rhs : List ℕ) → DecidablePred (YyPops lhs rhs)
  | [], _ => inferInstanceAs (Decidable (_ ∨ _))
  | _ :: rhs, _ =>
    have := decidableYyPops lhs rhs
    inferInstanceAs (Decidable (_ ∧ ∀ e ∈ yyEdges, _))

theorem yyFindShiftAction_spec : ∀ t < YYNSTATE, ∀ m < YYERRORSYMBOL,
    (yyFindShiftAction t m < YYNSTATE → m ≠ 0) ∧
    (yyFindShiftAction t m ≤ YY_ERROR_ACTION) ∧
    (yyFindShiftAction t m = YYNSTATE → m = 0) ∧
    (YYNSTATE ≤ yyFindShiftAction t m → yyFindShiftAction t m < YY_ERROR_ACTION →
      YyPops (yyRuleInfo.getD (yyFindShiftAction t m - YYNSTATE) (0, 0)).1
        (yyRhs.getD (yyFindShiftAction t m - YYNSTATE) []) t) := by
  decide +kernel

theorem yyFindShiftAction_error : ∀ t < YYNSTATE, YYNSTATE ≤ yyFindShiftAction t YYERRORSYMBOL := by
  decide

/-! ## Stacks -/

/-- A truth value. -/
def IsTruth (b : ℤ) : Prop := b = 0 ∨ b = 1

/-- The member of the union that goes with a symbol. -/
def YyMinor.Holds (major : ℕ) : YyMinor → Prop
  | .unset => False
  | .yy0 _ => IsTerminal major
  | .yy8 c => major = 17 ∧ c ≠ .unset
  | .yy19 _ => major = 15
  | .yy29 v => (major = 14 ∨ major = 16) ∧ IsTruth (ssiValTobool v)

/-- A stack along the edges of the automaton. -/
inductive YyGood : List YyStackEntry → Prop
  | bottom : YyGood [⟨0, 0, .unset⟩]
  | push {f e : YyStackEntry} {st : List YyStackEntry} : YyGood (e :: st) →
      (e.stateno, f.major, f.stateno) ∈ yyEdges → f.minor.Holds f.major → YyGood (f :: e :: st)

variable {e : YyStackEntry} {st : List YyStackEntry} {m : YyMinor} {p : SsiParser}

theorem YyGood.stateno_lt (h : YyGood (e :: st)) : e.stateno < YYNSTATE := by
  cases h with
  | bottom => decide
  | push _ he _ => exact (yyEdges_lt _ he).1

theorem YyGood.major_ne (h : YyGood (e :: st)) : e.major ≠ YYERRORSYMBOL := by
  cases h with
  | bottom => decide
  | push _ he _ => exact (yyEdges_lt _ he).2.2

theorem YyGood.pop {lhs : ℕ} {rhs : List ℕ} (h : YyGood (e :: st)) (hp : YyPops lhs rhs e.stateno) :
    ∃ l f st', e :: st = l ++ f :: st' ∧ l.map (·.major) = rhs ∧
      List.Forall₂ YyMinor.Holds rhs (l.map (·.minor)) ∧ YyGood (f :: st') ∧
      YyPops lhs [] f.stateno := by
  induction rhs generalizing e st with
  | nil => exact ⟨[], e, st, rfl, rfl, List.Forall₂.nil, h, hp⟩
  | cons m rhs ih =>
    obtain ⟨h0, hall⟩ := hp
    cases h with
    | bottom => exact absurd rfl h0
    | push hst he hm =>
      obtain ⟨hmaj, hpops⟩ := hall _ he rfl
      obtain ⟨l, f, st', hl, hmap, hall₂, hgood, hgoto⟩ := ih hst hpops
      refine ⟨e :: l, f, st', by rw [hl]; rfl, ?_, ?_, hgood, hgoto⟩
      · rw [List.map_cons, hmap, ← hmaj]
      · exact List.Forall₂.cons (hmaj ▸ hm) hall₂

theorem isTruth_ofBool (b : Bool) : IsTruth (ofBool b) := by
  cases b
  · exact .inl rfl
  · exact .inr rfl

theorem isTruth_ssiCompare (a b : SsiVal) {cond : SsiExprCond} (h : cond ≠ .unset) :
    IsTruth (ssiValTobool (ssiCompare a cond b)) := by
  cases cond with
  | unset => exact absurd rfl h
  | _ => exact isTruth_ofBool _

theorem isTruth_string (s : Bytes) (bo : ℤ) : IsTruth (ssiValTobool ⟨.string, s, bo⟩) := by
  cases s
  · exact .inl rfl
  · exact .inr rfl

theorem YyMinor.holds_of_isTerminal {major : ℕ} (h : m.Holds major) (hm : IsTerminal major) :
    ∃ b, m = .yy0 b := by
  have hle : major ≤ 12 := hm.2
  cases m with
  | yy0 b => exact ⟨b, rfl⟩
  | unset => cases h
  | yy8 c => have := h.1; omega
  | yy19 b => have : major = 15 := h; omega
  | yy29 v => have := h.1; omega

theorem YyMinor.holds_cond (h : m.Holds 17) : ∃ c, m = .yy8 c ∧ c ≠ .unset := by
  cases m with
  | yy8 c => exact ⟨c, rfl, h.2⟩
  | unset => cases h
  | yy0 b => exact absurd h.2 (by decide)
  | yy19 b => cases (h : 17 = 15)
  | yy29 v => exact absurd h.1 (by decide)

theorem YyMinor.holds_value (h : m.Holds 15) : ∃ b, m = .yy19 b := by
  cases m with
  | yy19 b => exact ⟨b, rfl⟩
  | unset => cases h
  | yy0 b => exact absurd h.2 (by decide)
  | yy8 c => exact absurd h.1 (by decide)
  | yy29 v => exact absurd h.1 (by decide)

theorem YyMinor.holds_val {major : ℕ} (h : m.Holds major) (hm : major = 14 ∨ major = 16) :
    ∃ v, m = .yy29 v ∧ IsTruth (ssiValTobool v) := by
  cases m with
  | yy29 v => exact ⟨v, rfl, h.2⟩
  | unset => cases h
  | yy0 b => have : major ≤ 12 := h.2; omega
  | yy8 c => have := h.1; omega
  | yy19 b => have : major = 15 := h; omega

/-- On entries that hold what the rule asks for, its action has a result, which is what goes with
its left-hand side. -/
theorem yyRule_spec {r : ℕ} (hr : r < YYNRULE) (bo : Option ℤ) {minors : List YyMinor}
    (h : List.Forall₂ YyMinor.Holds (yyRhs.getD r []) minors) :
    ∃ minor bo', yyRule bo r minors = some (minor, bo') ∧
      (r = 0 → ∃ b, bo' = some b ∧ IsTruth b) ∧
      (r ≠ 0 → bo' = bo ∧ minor.Holds (yyRuleInfo.getD r (0, 0)).1) := by
  have hval {major : ℕ} (hm : major = 14 ∨ major = 16) {v : SsiVal}
      (hv : IsTruth (ssiValTobool v)) : (YyMinor.yy29 v).Holds major := ⟨hm, hv⟩
  interval_cases r
  case «0» =>
    rcases h with _ | ⟨hm, _ | _⟩
    obtain ⟨v, rfl, hv⟩ := YyMinor.holds_val hm (.inr rfl)
    exact ⟨_, _, rfl, fun _ => ⟨_, rfl, hv⟩, fun h => absurd rfl h⟩
  case «1» =>
    rcases h with _ | ⟨hc, _ | ⟨hb, _ | ⟨ha, _ | _⟩⟩⟩
    obtain ⟨c, rfl, -⟩ := YyMinor.holds_val hc (.inl rfl)
    obtain ⟨b, rfl, hcond⟩ := YyMinor.holds_cond hb
    obtain ⟨a, rfl, -⟩ := YyMinor.holds_val ha (.inl rfl)
    exact ⟨_, _, rfl, nofun, fun _ => ⟨rfl, hval (.inr rfl) (isTruth_ssiCompare a c hcond)⟩⟩
  case «2» =>
    rcases h with _ | ⟨hm, _ | _⟩
    obtain ⟨v, rfl, hv⟩ := YyMinor.holds_val hm (.inl rfl)
    exact ⟨_, _, rfl, nofun, fun _ => ⟨rfl, hval (.inr rfl) hv⟩⟩
  case «3» =>
    rcases h with _ | ⟨hc, _ | ⟨-, _ | ⟨ha, _ | _⟩⟩⟩
    obtain ⟨c, rfl, -⟩ := YyMinor.holds_val hc (.inl rfl)
    obtain ⟨a, rfl, -⟩ := YyMinor.holds_val ha (.inl rfl)
    exact ⟨_, _, rfl, nofun, fun _ => ⟨rfl, hval (.inl rfl) (isTruth_ofBool _)⟩⟩
  case «4» =>
    rcases h with _ | ⟨hc, _ | ⟨-, _ | ⟨ha, _ | _⟩⟩⟩
    obtain ⟨c, rfl, -⟩ := YyMinor.holds_val hc (.inl rfl)
    obtain ⟨a, rfl, -⟩ := YyMinor.holds_val ha (.inl rfl)
    exact ⟨_, _, rfl, nofun, fun _ => ⟨rfl, hval (.inl rfl) (isTruth_ofBool _)⟩⟩
  case «5» =>
    rcases h with _ | ⟨hb, _ | ⟨-, _ | _⟩⟩
    obtain ⟨b, rfl, -⟩ := YyMinor.holds_val hb (.inl rfl)
    exact ⟨_, _, rfl, nofun, fun _ => ⟨rfl, hval (.inl rfl) (isTruth_ofBool _)⟩⟩
  case «6» =>
    rcases h with _ | ⟨-, _ | ⟨hb, _ | ⟨-, _ | _⟩⟩⟩
    obtain ⟨b, rfl, hv⟩ := YyMinor.holds_val hb (.inr rfl)
    exact ⟨_, _, rfl, nofun, fun _ => ⟨rfl, hval (.inl rfl) hv⟩⟩
  case «7» =>
    rcases h with _ | ⟨hb, _ | _⟩
    obtain ⟨b, rfl⟩ := YyMinor.holds_value hb
    exact ⟨_, _, rfl, nofun, fun _ => ⟨rfl, hval (.inl rfl) (isTruth_string b 0)⟩⟩
  case «8» =>
    rcases h with _ | ⟨hb, _ | _⟩
    obtain ⟨b, rfl⟩ := YyMinor.holds_of_isTerminal hb (by decide)
    exact ⟨_, _, rfl, nofun, fun _ => ⟨rfl, rfl⟩⟩
  case «9» =>
    rcases h with _ | ⟨hc, _ | ⟨hb, _ | _⟩⟩
    obtain ⟨c, rfl⟩ := YyMinor.holds_of_isTerminal hc (by decide)
    obtain ⟨b, rfl⟩ := YyMinor.holds_value hb
    exact ⟨_, _, rfl, nofun, fun _ => ⟨rfl, rfl⟩⟩
  -- the operators of comparison
  all_goals exact ⟨_, _, rfl, nofun, fun _ => ⟨rfl, rfl, by decide⟩⟩

/-! ## A call returns -/

/-- How often a symbol may still be reduced without a pop of two entries. -/
def yyRank (major : ℕ) : ℕ :=
  if major = TK_VALUE then 4 else if major = 15 then 3 else if major = 14 then 2
  else if major = 16 ∨ TK_EQ ≤ major ∧ major ≤ TK_LE then 1 else 0

/-- What every reduction makes smaller. -/
def yyMeasure (st : List YyStackEntry) : ℕ :=
  5 * st.length + yyRank ((st.map (·.major)).headD 0)

theorem yyRank_le (major : ℕ) : yyRank major ≤ 4 := by
  unfold yyRank
  split_ifs <;> decide

/-- The lengths of the rules, and that each makes the measure smaller. -/
theorem yyRule_lengths : ∀ r < YYNRULE,
    yyRuleInfo[r]? = some ((yyRuleInfo.getD r (0, 0)).1, (yyRhs.getD r []).length) ∧
    yyRank (yyRuleInfo.getD r (0, 0)).1 + 5 <
      5 * (yyRhs.getD r []).length + yyRank ((yyRhs.getD r []).headD 0) ∧
    ((yyRuleInfo.getD r (0, 0)).1 = 18 ↔ r = 0) ∧
    YYERRORSYMBOL < (yyRuleInfo.getD r (0, 0)).1 ∧ (yyRuleInfo.getD r (0, 0)).1 < 19 := by
  decide

/-- A parser between two calls that is not at its start. -/
structure YyReady (p : SsiParser) : Prop where
  good : YyGood p.yystack
  depth : p.yystack.length ≤ YYSTACKDEPTH

/-- The parser at its end with a result. -/
structure YyAccepted (p : SsiParser) : Prop where
  empty : p.yystack = []
  result : ∃ b, p.bo = some b ∧ IsTruth b

/-- A reduction goes on with a smaller stack, or accepts at the end of the input. -/
theorem yyReduce_spec (h : YyReady p) (hst : p.yystack = e :: st) {m r : ℕ} (hm : m < YYERRORSYMBOL)
    (hr : r < YYNRULE) (hact : yyFindShiftAction e.stateno m = YYNSTATE + r) :
    ∃ p', yyReduce p r = some p' ∧ p'.ok = p.ok ∧
      (m = 0 ∧ YyAccepted p' ∨
        YyReady p' ∧ yyMeasure p'.yystack < yyMeasure p.yystack ∧ p'.bo = p.bo) := by
  obtain ⟨hgood, hdepth⟩ := h
  rw [hst] at hgood hdepth
  obtain ⟨-, -, hzero, hpops⟩ := yyFindShiftAction_spec _ hgood.stateno_lt m hm
  rw [hact, Nat.add_sub_cancel_left] at hpops
  obtain ⟨l, f, st', hl, hmap, hall, hf, hgoto⟩ :=
    hgood.pop (hpops (Nat.le_add_right _ _) (Nat.add_lt_add_left hr _))
  obtain ⟨minor, bo, hrule, haccept, hother⟩ := yyRule_spec hr p.bo hall
  obtain ⟨hinfo, hrank, h18, h13, h19⟩ := yyRule_lengths r hr
  have hlen : l.length = (yyRhs.getD r []).length := by rw [← hmap, List.length_map]
  have htake : p.yystack.take (yyRhs.getD r []).length = l := by
    rw [hst, hl, ← hlen, List.take_left]
  have hdrop : p.yystack.drop (yyRhs.getD r []).length = f :: st' := by
    rw [hst, hl, ← hlen, List.drop_left]
  generalize (yyRuleInfo.getD r (0, 0)).1 = lhs at *
  have hreduce : yyReduce p r = some
      (if yyGoto f.stateno lhs < YYNSTATE then
        yyShift { p with yystack := f :: st', bo := bo } (yyGoto f.stateno lhs) lhs minor
      else if yyGoto f.stateno lhs = YY_ACCEPT_ACTION then
        yyAccept { p with yystack := f :: st', bo := bo }
      else { p with yystack := f :: st', bo := bo }) := by
    simp only [yyReduce, hinfo, htake, hrule, hdrop, List.head?_cons, Option.bind_eq_bind,
      Option.bind_some, yyGoto, if_neg h13.not_gt]
  rcases hgoto with ⟨hlhs, hgoto⟩ | ⟨hlhs, hgoto⟩
  · -- the rule for the whole input
    have hr0 := h18.mp hlhs
    rw [hgoto, if_neg (by decide), if_pos rfl] at hreduce
    refine ⟨_, hreduce, rfl, .inl ⟨hzero ?_, rfl, haccept hr0⟩⟩
    rw [hact, hr0]
  · obtain ⟨hbo, hholds⟩ := hother fun h => hlhs (h18.mpr h)
    have hpos : 0 < l.length := by
      rcases hrhs : yyRhs.getD r [] with _ | ⟨m, rhs⟩
      · rw [hrhs] at hrank
        exact absurd hrank (by simp [yyRank])
      · rw [hlen, hrhs]
        exact Nat.succ_pos _
    have hdepth' : l.length + (f :: st').length ≤ YYSTACKDEPTH := by
      rwa [hl, List.length_append] at hdepth
    rw [if_pos hgoto, yyShift, if_neg (by simp only; omega)] at hreduce
    refine ⟨_, hreduce, rfl, .inr ⟨⟨YyGood.push hf ?_ hholds, ?_⟩, ?_, hbo⟩⟩
    · exact ((yyGoto_mem_yyEdges _ hf.stateno_lt _ h19).resolve_left hgoto.not_ge)
    · simp only [List.length_cons] at hdepth' ⊢
      omega
    · have hhead : ((e :: st).map (·.major)).headD 0 = (yyRhs.getD r []).headD 0 := by
        rw [hl, ← hmap]
        cases l with
        | nil => exact absurd hpos (lt_irrefl _)
        | cons a l => rfl
      have hmeasure : yyMeasure p.yystack =
          5 * (l.length + (f :: st').length) + yyRank ((yyRhs.getD r []).headD 0) := by
        rw [yyMeasure, hst, hhead, hl, List.length_append]
      rw [hmeasure, hlen]
      simp only [yyMeasure, List.length_cons, List.map_cons, List.headD_cons]
      omega

/-- The whole stack is popped when there is no place for the error symbol. -/
theorem YyGood.yyPopError_eq_nil (h : YyGood st) {yymx : ℕ} (hmx : yymx ≠ YYERRORSYMBOL) :
    yyPopError yymx st = [] := by
  have hpop : ∀ e : YyStackEntry, e.stateno < YYNSTATE →
      yymx ≠ YYERRORSYMBOL ∧ yyFindShiftAction e.stateno YYERRORSYMBOL ≥ YYNSTATE :=
    fun e he => ⟨hmx, yyFindShiftAction_error _ he⟩
  induction h with
  | bottom => rw [yyPopError, if_pos (hpop _ (by decide)), yyPopError]
  | push hst he hm ih => rw [yyPopError, if_pos (hpop _ (yyEdges_lt _ he).1), ih]

/-- A parser between two calls. -/
def YyBetween (p : SsiParser) : Prop := p.yystack = [] ∨ YyReady p

/-- What a call with token `m` does to a parser. -/
structure YyDone (m : ℕ) (p p' : SsiParser) : Prop where
  ready : YyBetween p'
  ok : p'.ok = true → p.ok = true
  bo : m ≠ 0 → p'.bo = p.bo
  atEnd : m = 0 → p'.yystack = [] ∧ (p'.ok = true → ∃ b, p'.bo = some b ∧ IsTruth b)

theorem YyReady.yyShift (h : YyReady p) (hst : p.yystack = e :: st) {m : ℕ} (hm : m < YYERRORSYMBOL)
    (hact : yyFindShiftAction e.stateno m < YYNSTATE) (minor : Bytes) :
    YyDone m p (yyShift p (yyFindShiftAction e.stateno m) m (.yy0 minor)) := by
  obtain ⟨hgood, hdepth⟩ := h
  rw [hst] at hgood
  have hm0 := (yyFindShiftAction_spec _ hgood.stateno_lt m hm).1 hact
  have hgoto : yyGoto e.stateno m = yyFindShiftAction e.stateno m := if_pos hm
  have hedge : (e.stateno, m, yyFindShiftAction e.stateno m) ∈ yyEdges := by
    rw [← hgoto]
    refine (yyGoto_mem_yyEdges _ hgood.stateno_lt _ (hm.trans (by decide))).resolve_left ?_
    rw [hgoto]
    exact hact.not_ge
  unfold Lighttpd.yyShift
  split
  · exact ⟨.inl rfl, id, fun _ => rfl, fun h => absurd h hm0⟩
  · rename_i hlt
    refine ⟨.inr ⟨?_, Nat.lt_of_not_le hlt⟩, id, fun _ => rfl, fun h => absurd h hm0⟩
    rw [hst]
    exact YyGood.push hgood hedge ⟨Nat.pos_of_ne_zero hm0, Nat.le_of_lt_succ hm⟩

theorem yyLoop_spec {m : ℕ} (hm : m < YYERRORSYMBOL) (minor : Bytes) :
    ∀ (fuel : ℕ) (p : SsiParser), YyReady p → yyMeasure p.yystack < fuel →
      ∃ p', yyLoop (m = 0) minor fuel p m false = some p' ∧ YyDone m p p' := by
  intro fuel
  induction fuel with
  | zero => exact fun _ _ h => absurd h (Nat.not_lt_zero _)
  | succ fuel ih =>
    intro p hp hfuel
    obtain ⟨e, st, hst⟩ : ∃ e st, p.yystack = e :: st := by
      have hgood := hp.good
      cases h : p.yystack with
      | nil => rw [h] at hgood; cases hgood
      | cons e st => exact ⟨e, st, rfl⟩
    have hgood := hp.good
    rw [hst] at hgood
    obtain ⟨hshift0, hle, -, -⟩ := yyFindShiftAction_spec _ hgood.stateno_lt m hm
    rw [yyLoop, hst]
    simp only [List.head?_cons, Option.bind_eq_bind, Option.bind_some]
    by_cases hshift : yyFindShiftAction e.stateno m < YYNSTATE
    · have hm0 := hshift0 hshift
      refine ⟨_, ?_, hp.yyShift hst hm hshift minor⟩
      simp [hshift, hm0]
    rw [if_neg hshift]
    by_cases hreduce : yyFindShiftAction e.stateno m < YYNSTATE + YYNRULE
    · obtain ⟨r, hr⟩ := Nat.exists_eq_add_of_le (Nat.le_of_not_lt hshift)
      obtain ⟨p₁, hp₁, hok, hcase⟩ := yyReduce_spec hp hst hm (by omega) hr
      have hm20 : m ≠ YYNOCODE := (hm.trans (by decide)).ne
      rw [if_pos hreduce, hr, Nat.add_sub_cancel_left, hp₁]
      simp only [Option.map_some, Option.bind_some]
      rcases hcase with ⟨hm0, hacc⟩ | ⟨hready, hlt, hbo⟩
      · refine ⟨p₁, if_neg fun h => h.2 hacc.empty, .inl hacc.empty, fun h => hok ▸ h,
          fun h => absurd hm0 h, fun _ => ⟨hacc.empty, fun _ => hacc.result⟩⟩
      · obtain ⟨p', hp', hdone⟩ := ih p₁ hready (by omega)
        have hne : p₁.yystack ≠ [] := by
          intro h
          have := hready.good
          rw [h] at this
          cases this
        refine ⟨p', by rw [if_pos ⟨hm20, hne⟩, hp'], hdone.ready, fun h => hok ▸ hdone.ok h,
          fun h => (hdone.bo h).trans hbo, hdone.atEnd⟩
    rw [if_neg hreduce]
    have herr : yyFindShiftAction e.stateno m = YY_ERROR_ACTION :=
      le_antisymm hle (Nat.le_of_not_lt hreduce)
    have hpop : yyPopError e.major p.yystack = [] := hp.good.yyPopError_eq_nil hgood.major_ne
    have hsyntax : yySyntaxError p m e = (yyParseFailed p, YYNOCODE) := by
      rw [yySyntaxError, hpop]
    refine ⟨yyParseFailed p, ?_, .inl rfl, nofun, fun _ => rfl, fun _ => ⟨rfl, nofun⟩⟩
    rw [if_pos herr, if_neg (by simp [hgood.major_ne]), hsyntax]
    rfl

theorem ssiexprparser_spec (h : YyBetween p) {m : ℕ} (hm : m < YYERRORSYMBOL) (minor : Bytes)
    (hne : p.yystack ≠ [] ∨ m ≠ 0) : ∃ p', ssiexprparser p m minor = some p' ∧ YyDone m p p' := by
  have hfuel (st : List YyStackEntry) : yyMeasure st < 5 * st.length + 5 :=
    Nat.add_lt_add_left (Nat.lt_succ_of_le (yyRank_le _)) _
  unfold ssiexprparser
  by_cases hst : p.yystack = []
  · have hm0 := hne.resolve_left fun h => h hst
    rw [if_neg fun h => hm0 h.2, if_pos hst]
    have hready : YyReady { p with yystack := [⟨0, 0, .unset⟩] } :=
      ⟨YyGood.bottom, by simp⟩
    obtain ⟨p', hp', hdone⟩ := yyLoop_spec hm minor _ _ hready (hfuel _)
    exact ⟨p', hp', hdone.ready, hdone.ok, hdone.bo, hdone.atEnd⟩
  · rw [if_neg fun h => hst h.1, if_neg hst]
    exact yyLoop_spec hm minor _ p (h.resolve_left hst) (hfuel _)

theorem ssiexprparser_nil (h : p.yystack = []) (minor : Bytes) :
    ssiexprparser p 0 minor = some p := if_pos ⟨h, rfl⟩

end Lighttpd
