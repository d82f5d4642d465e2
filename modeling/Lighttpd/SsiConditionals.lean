import Mathlib.Tactic.Linarith

/-!
# Conditionals of server-side includes

`process_ssi_stmt` keeps four numbers for the conditionals that are open: how many there are
(`if_level`), whether output is off (`if_is_false`), the level of the conditional that turned it off
last (`if_is_false_level`), and whether a branch of that one was taken already. The level stays
behind when a conditional is closed. In an outer conditional the one remembered is then that of an
inner one, `if` and `elif` go by it, and text is output that should not be. `page_selects_iff` says
for which pages this does not happen.
-/

namespace Lighttpd

/-- What `ssi_eval_expr` returns: -1, 0 or 1. -/
inductive SsiResult
  | failed
  | isFalse
  | isTrue
  deriving DecidableEq, Repr

/-- The directives of conditionals, with the result of the expression unless it is missing. `text`
is what stands between them: literal text or another directive. -/
inductive SsiStmt
  | text
  | «if» (expr : Option SsiResult)
  | «else»
  | elif (expr : Option SsiResult)
  | endif
  deriving DecidableEq, Repr

/-- The fields of a `handler_ctx` that conditionals use. -/
structure SsiCtx where
  ifLevel : ℤ
  ifIsFalseLevel : ℤ
  ifIsFalse : Bool
  ifIsFalseEndif : Bool
  deriving DecidableEq, Repr

/-- A new `handler_ctx`. -/
def ssiCtxInit : SsiCtx := ⟨0, 0, false, false⟩

/-- The switch on the result of an expression. -/
def SsiCtx.branch (p : SsiCtx) : SsiResult → SsiCtx
  | .isTrue => { p with ifIsFalse := false }
  | _ => { p with ifIsFalse := true, ifIsFalseLevel := p.ifLevel }

/-- `process_ssi_stmt`, as far as the conditionals go. -/
def processSsiStmt (p : SsiCtx) : SsiStmt → SsiCtx
  | .text => p
  | .if none => p
  | .if (some r) =>
    let p :=
      if p.ifIsFalse = false ∧ (p.ifIsFalseLevel = 0 ∨ p.ifLevel < p.ifIsFalseLevel) then p.branch r
      else p
    { p with ifLevel := p.ifLevel + 1 }
  | .else =>
    let p := { p with ifLevel := p.ifLevel - 1 }
    let p :=
      if p.ifIsFalse then
        if p.ifLevel = p.ifIsFalseLevel ∧ p.ifIsFalseEndif = false then { p with ifIsFalse := false }
        else p
      else { p with ifIsFalse := true, ifIsFalseLevel := p.ifLevel }
    { p with ifLevel := p.ifLevel + 1 }
  | .elif none => p
  | .elif (some r) =>
    let p := { p with ifLevel := p.ifLevel - 1 }
    let p :=
      if p.ifLevel = p.ifIsFalseLevel then
        if p.ifIsFalse ∧ p.ifIsFalseEndif = false then p.branch r
        else { p with ifIsFalse := true, ifIsFalseLevel := p.ifLevel, ifIsFalseEndif := true }
      else p
    { p with ifLevel := p.ifLevel + 1 }
  | .endif =>
    let p := { p with ifLevel := p.ifLevel - 1 }
    if p.ifLevel = p.ifIsFalseLevel then { p with ifIsFalse := false, ifIsFalseEndif := false } else p

/-- The context behind a sequence. -/
def processSsi (p : SsiCtx) (stmts : List SsiStmt) : SsiCtx := stmts.foldl processSsiStmt p

/-- For every `text` whether it is output: `mod_ssi_read_fd` and the other directives look at
`if_is_false`. -/
def outputs (p : SsiCtx) : List SsiStmt → List Bool
  | [] => []
  | s :: stmts =>
    (if s = .text then [!p.ifIsFalse] else []) ++ outputs (processSsiStmt p s) stmts

/-! ## Pages -/

mutual

/-- A well-nested sequence: text, perhaps empty, and conditionals with text behind each. -/
inductive Page
  | text
  | cond (expr : SsiResult) (body : Page) (rest : Branches) (next : Page)

/-- What follows the first branch of a conditional. -/
inductive Branches
  | endif
  | else (body : Page)
  | elif (expr : SsiResult) (body : Page) (rest : Branches)

end

mutual

/-- The directives of a page. -/
def Page.stmts : Page → List SsiStmt
  | .text => [.text]
  | .cond expr body rest next =>
    .text :: .if (some expr) :: (body.stmts ++ (rest.stmts ++ next.stmts))

/-- The directives of the branches. -/
def Branches.stmts : Branches → List SsiStmt
  | .endif => [.endif]
  | .else body => .else :: (body.stmts ++ [.endif])
  | .elif expr body rest => .elif (some expr) :: (body.stmts ++ rest.stmts)

end

mutual

/-- For every text of a page whether it is selected, when the page itself is if `on`: the branch it
stands in is the first with a true expression, or the last one when there is none. -/
def Page.selects (on : Bool) : Page → List Bool
  | .text => [on]
  | .cond expr body rest next =>
    on :: (body.selects (on && expr = .isTrue) ++
      (rest.selects on (expr = .isTrue) ++ next.selects on))

/-- For the branches behind others, one of which had a true expression if `taken`. -/
def Branches.selects (on taken : Bool) : Branches → List Bool
  | .endif => []
  | .else body => body.selects (on && !taken)
  | .elif expr body rest =>
    body.selects (on && !taken && expr = .isTrue) ++ rest.selects on (taken || expr = .isTrue)

end

/-- What became of the branches in front: none was taken, the last one was, or one before it. -/
inductive Before
  | none
  | last
  | earlier
  deriving DecidableEq

mutual

/-- The level that is remembered behind a page that is selected, at depth `d`, when it was `f`. -/
def Page.remembers (d f : ℤ) : Page → ℤ
  | .text => f
  | .cond expr body rest next =>
    if expr = .isTrue then next.remembers d (rest.remembers d (body.remembers (d + 1) f) .last)
    else next.remembers d (rest.remembers d d .none)

/-- The same for branches. -/
def Branches.remembers (d f : ℤ) : Before → Branches → ℤ
  | _, .endif => f
  | .none, .else body => body.remembers (d + 1) f
  | _, .else _ => d
  | .none, .elif expr body rest =>
    if expr = .isTrue then rest.remembers d (body.remembers (d + 1) f) .last
    else rest.remembers d f .none
  | _, .elif _ _ rest => rest.remembers d d .earlier

end

mutual

/-- Every `if` in a selected page that is false is evaluated, as the remembered level is zero or
greater than its own, and every `elif` behind the branch that was taken finds its own level. -/
def Page.Remembered (d f : ℤ) : Page → Prop
  | .text => True
  | .cond expr body rest next =>
    if expr = .isTrue then
      body.Remembered (d + 1) f ∧ rest.Remembered d (body.remembers (d + 1) f) .last ∧
        next.Remembered d (rest.remembers d (body.remembers (d + 1) f) .last)
    else
      (f = 0 ∨ d < f) ∧ rest.Remembered d d .none ∧ next.Remembered d (rest.remembers d d .none)

/-- The same for branches. -/
def Branches.Remembered (d f : ℤ) : Before → Branches → Prop
  | _, .endif => True
  | .none, .else body => body.Remembered (d + 1) f
  | _, .else _ => True
  | .none, .elif expr body rest =>
    if expr = .isTrue then
      body.Remembered (d + 1) f ∧ rest.Remembered d (body.remembers (d + 1) f) .last
    else rest.Remembered d f .none
  | .last, .elif _ _ rest => f = d ∧ rest.Remembered d d .earlier
  | .earlier, .elif _ _ rest => rest.Remembered d d .earlier

end

/-! ## Sequences -/

theorem processSsi_append (p : SsiCtx) (s t : List SsiStmt) :
    processSsi p (s ++ t) = processSsi (processSsi p s) t := List.foldl_append

theorem outputs_append (p : SsiCtx) (s t : List SsiStmt) :
    outputs p (s ++ t) = outputs p s ++ outputs (processSsi p s) t := by
  induction s generalizing p with
  | nil => rfl
  | cons x s ih =>
    rw [List.cons_append, outputs, ih, outputs, List.append_assoc]
    rfl

theorem length_outputs (p : SsiCtx) (s : List SsiStmt) :
    (outputs p s).length = s.count .text := by
  induction s generalizing p with
  | nil => rfl
  | cons x s ih =>
    rw [outputs, List.length_append, ih, List.count_cons, Nat.add_comm]
    by_cases hx : x = .text <;> simp [hx]

mutual

theorem Page.length_selects (on : Bool) : (pg : Page) → (pg.selects on).length = pg.stmts.count .text
  | .text => by simp [Page.selects, Page.stmts]
  | .cond expr body rest next => by
    simp [Page.selects, Page.stmts, body.length_selects, rest.length_selects, next.length_selects]

theorem Branches.length_selects (on taken : Bool) :
    (b : Branches) → (b.selects on taken).length = b.stmts.count .text
  | .endif => by simp [Branches.selects, Branches.stmts]
  | .else body => by simp [Branches.selects, Branches.stmts, body.length_selects]
  | .elif expr body rest => by
    simp [Branches.selects, Branches.stmts, body.length_selects, rest.length_selects]

end

theorem outputs_append_eq_iff {p : SsiCtx} {s t : List SsiStmt} {a b : List Bool}
    (h : a.length = s.count .text) :
    outputs p (s ++ t) = a ++ b ↔ outputs p s = a ∧ outputs (processSsi p s) t = b := by
  rw [outputs_append]
  constructor
  · exact fun heq => List.append_inj heq (by rw [length_outputs, h])
  · rintro ⟨rfl, rfl⟩
    rfl

theorem Page.outputs_eq (p : SsiCtx) (on : Bool) (pg : Page) :
    (∃ l, outputs p pg.stmts = (!p.ifIsFalse) :: l) ∧ ∃ l, pg.selects on = on :: l := by
  cases pg with
  | text => exact ⟨⟨[], rfl⟩, [], by rw [Page.selects]⟩
  | cond expr body rest next => exact ⟨⟨_, by rw [Page.stmts, outputs]; rfl⟩, _, by rw [Page.selects]⟩

/-- A sequence leads from one context to another, and this is output. -/
structure SsiRun (p : SsiCtx) (stmts : List SsiStmt) (q : SsiCtx) (out : List Bool) : Prop where
  ctx : processSsi p stmts = q
  out : outputs p stmts = out

section SsiRun

variable {p q r : SsiCtx} {x : SsiStmt} {s t : List SsiStmt} {a b : List Bool}

theorem SsiRun.append (h : SsiRun p s q a) (h' : SsiRun q t r b) : SsiRun p (s ++ t) r (a ++ b) where
  ctx := by rw [processSsi_append, h.ctx, h'.ctx]
  out := by rw [outputs_append, h.out, h.ctx, h'.out]

theorem SsiRun.text (h : SsiRun p s q a) : SsiRun p (.text :: s) q ((!p.ifIsFalse) :: a) where
  ctx := h.ctx
  out := by rw [← h.out]; rfl

theorem SsiRun.stmt (hx : x ≠ .text) (hstep : processSsiStmt p x = q) (h : SsiRun q s r a) :
    SsiRun p (x :: s) r a where
  ctx := by rw [← h.ctx, ← hstep]; rfl
  out := by rw [outputs, if_neg hx, hstep, h.out, List.nil_append]

theorem SsiRun.nil (p : SsiCtx) : SsiRun p [] p [] := ⟨rfl, rfl⟩

end SsiRun

/-- Output is off at depth `d`, by a conditional of level `f`. -/
def SsiCtx.off (d f : ℤ) (taken : Bool) : SsiCtx := ⟨d, f, true, taken⟩

/-- Output is on. -/
def SsiCtx.live (d f : ℤ) : SsiCtx := ⟨d, f, false, false⟩

section Off

variable {d f : ℤ} {e : Bool}

theorem off_if (d f : ℤ) (e : Bool) (r : SsiResult) :
    processSsiStmt (.off d f e) (.if (some r)) = .off (d + 1) f e := by
  simp [processSsiStmt, SsiCtx.off]

theorem off_else (h : f < d) : processSsiStmt (.off (d + 1) f e) .else = .off (d + 1) f e := by
  simp [processSsiStmt, SsiCtx.off, h.ne']

theorem off_elif (h : f < d) (r : SsiResult) :
    processSsiStmt (.off (d + 1) f e) (.elif (some r)) = .off (d + 1) f e := by
  simp [processSsiStmt, SsiCtx.off, h.ne']

theorem off_endif (h : f < d) : processSsiStmt (.off (d + 1) f e) .endif = .off d f e := by
  simp [processSsiStmt, SsiCtx.off, h.ne']

end Off

mutual

/-- In a branch that is off nothing is output, and nothing is changed. -/
theorem Page.off {d f : ℤ} {e : Bool} (h : f < d) : (pg : Page) →
    SsiRun (.off d f e) pg.stmts (.off d f e) (pg.selects false)
  | .text => by
    rw [Page.stmts, Page.selects]
    exact (SsiRun.nil _).text
  | .cond expr body rest next => by
    rw [Page.stmts, Page.selects]
    refine .text (.stmt (by simp) (off_if d f e expr) ?_)
    exact (body.off (by omega)).append ((rest.off h _).append (next.off h))

theorem Branches.off {d f : ℤ} {e : Bool} (h : f < d) (taken : Bool) : (b : Branches) →
    SsiRun (.off (d + 1) f e) b.stmts (.off d f e) (b.selects false taken)
  | .endif => by
    rw [Branches.stmts, Branches.selects]
    exact .stmt (by simp) (off_endif h) (.nil _)
  | .else body => by
    rw [Branches.stmts, Branches.selects, ← List.append_nil (body.selects _)]
    exact .stmt (by simp) (off_else h)
      ((body.off (by omega)).append (.stmt (by simp) (off_endif h) (.nil _)))
  | .elif expr body rest => by
    rw [Branches.stmts, Branches.selects]
    exact .stmt (by simp) (off_elif h expr) ((body.off (by omega)).append (rest.off h _))

end

/-! ## What is selected -/

section Live

variable {d f : ℤ}

theorem live_if_true (d f : ℤ) :
    processSsiStmt (.live d f) (.if (some .isTrue)) = .live (d + 1) f := by
  simp [processSsiStmt, SsiCtx.live, SsiCtx.branch]

theorem live_if_false {r : SsiResult} (hr : r ≠ .isTrue) (h : f = 0 ∨ d < f) :
    processSsiStmt (.live d f) (.if (some r)) = .off (d + 1) d false := by
  cases r <;> simp_all [processSsiStmt, SsiCtx.live, SsiCtx.branch, SsiCtx.off]

theorem live_if_skipped (r : SsiResult) (h : ¬ (f = 0 ∨ d < f)) :
    processSsiStmt (.live d f) (.if (some r)) = .live (d + 1) f := by
  simp [processSsiStmt, SsiCtx.live, h]

theorem live_endif (d f : ℤ) : processSsiStmt (.live (d + 1) f) .endif = .live d f := by
  simp [processSsiStmt, SsiCtx.live]

theorem live_else (d f : ℤ) : processSsiStmt (.live (d + 1) f) .else = .off (d + 1) d false := by
  simp [processSsiStmt, SsiCtx.live, SsiCtx.off]

theorem live_elif (d : ℤ) (r : SsiResult) :
    processSsiStmt (.live (d + 1) d) (.elif (some r)) = .off (d + 1) d true := by
  simp [processSsiStmt, SsiCtx.live, SsiCtx.off]

theorem live_elif_skipped (r : SsiResult) (h : f ≠ d) :
    processSsiStmt (.live (d + 1) f) (.elif (some r)) = .live (d + 1) f := by
  simp [processSsiStmt, SsiCtx.live, h.symm]

theorem own_else (d : ℤ) : processSsiStmt (.off (d + 1) d false) .else = .live (d + 1) d := by
  simp [processSsiStmt, SsiCtx.live, SsiCtx.off]

theorem own_else_taken (d : ℤ) : processSsiStmt (.off (d + 1) d true) .else = .off (d + 1) d true := by
  simp [processSsiStmt, SsiCtx.off]

theorem own_elif_true (d : ℤ) :
    processSsiStmt (.off (d + 1) d false) (.elif (some .isTrue)) = .live (d + 1) d := by
  simp [processSsiStmt, SsiCtx.live, SsiCtx.off, SsiCtx.branch]

theorem own_elif_false {r : SsiResult} (hr : r ≠ .isTrue) :
    processSsiStmt (.off (d + 1) d false) (.elif (some r)) = .off (d + 1) d false := by
  cases r <;> simp_all [processSsiStmt, SsiCtx.branch, SsiCtx.off]

theorem own_elif_taken (d : ℤ) (r : SsiResult) :
    processSsiStmt (.off (d + 1) d true) (.elif (some r)) = .off (d + 1) d true := by
  simp [processSsiStmt, SsiCtx.off]

theorem own_endif (d : ℤ) (e : Bool) : processSsiStmt (.off (d + 1) d e) .endif = .live d d := by
  simp [processSsiStmt, SsiCtx.live, SsiCtx.off]

end Live

/-- This is output exactly when the condition holds, and it leads to this context then. -/
structure Selects (p : SsiCtx) (stmts : List SsiStmt) (out : List Bool) (c : Prop) (q : SsiCtx) :
    Prop where
  exact : outputs p stmts = out ↔ c
  ctx : c → processSsi p stmts = q

section Selects

variable {p q r : SsiCtx} {x : SsiStmt} {s t : List SsiStmt} {a b : List Bool} {c c' : Prop}

theorem SsiRun.selects (h : SsiRun p s q a) : Selects p s a True q :=
  ⟨iff_true_intro h.out, fun _ => h.ctx⟩

theorem Selects.append (h : Selects p s a c q) (hlen : a.length = s.count .text)
    (h' : c → Selects q t b c' r) : Selects p (s ++ t) (a ++ b) (c ∧ c') r where
  exact := by
    rw [outputs_append_eq_iff hlen, h.exact]
    exact and_congr_right fun hc => by rw [h.ctx hc, (h' hc).exact]
  ctx := fun ⟨hc, hc'⟩ => by rw [processSsi_append, h.ctx hc, (h' hc).ctx hc']

theorem Selects.text (h : Selects p s a c q) :
    Selects p (.text :: s) ((!p.ifIsFalse) :: a) c q where
  exact := by
    rw [← h.exact, outputs, if_pos rfl]
    exact ⟨fun heq => (List.cons.inj heq).2, fun heq => by rw [← heq]; rfl⟩
  ctx := h.ctx

theorem Selects.stmt (hx : x ≠ .text) (hstep : processSsiStmt p x = q) (h : Selects q s a c r) :
    Selects p (x :: s) a c r where
  exact := by rw [outputs, if_neg hx, hstep, List.nil_append, h.exact]
  ctx := fun hc => by rw [← h.ctx hc, ← hstep]; rfl

theorem Selects.congr (h : Selects p s a c q) (hc : c ↔ c') : Selects p s a c' q :=
  ⟨h.exact.trans hc, fun h' => h.ctx (hc.mpr h')⟩

theorem selects_of_shown (body : Page) (hp : p.ifIsFalse = false) (t : List SsiStmt)
    (b : List Bool) (q : SsiCtx) :
    Selects p (body.stmts ++ t) (body.selects false ++ b) False q where
  exact := by
    refine iff_false_intro fun heq => ?_
    obtain ⟨hout, -⟩ := (outputs_append_eq_iff (body.length_selects false)).mp heq
    obtain ⟨⟨l, hl⟩, l', hl'⟩ := body.outputs_eq p false
    rw [hl, hl', hp] at hout
    exact absurd (List.cons.inj hout).1 (by decide)
  ctx := False.elim

end Selects

/-- The context behind the branches in front. -/
def Before.ctx (d f : ℤ) : Before → SsiCtx
  | .none => .off (d + 1) d false
  | .last => .live (d + 1) f
  | .earlier => .off (d + 1) d true

mutual

theorem Page.live (d f : ℤ) : (pg : Page) →
    Selects (.live d f) pg.stmts (pg.selects true) (pg.Remembered d f) (.live d (pg.remembers d f))
  | .text => by
    rw [Page.stmts, Page.selects, Page.Remembered, Page.remembers]
    exact (SsiRun.nil _).selects.text
  | .cond expr body rest next => by
    rw [Page.stmts, Page.selects, Page.Remembered, Page.remembers]
    by_cases hexpr : expr = .isTrue
    · subst hexpr
      rw [if_pos rfl, if_pos rfl]
      refine .text (.stmt (by simp) (live_if_true d f) ?_)
      exact (body.live (d + 1) f).append (body.length_selects _) fun _ =>
        (rest.live d _ .last (by simp)).append (rest.length_selects _ _) fun _ => next.live d _
    · rw [if_neg hexpr, if_neg hexpr]
      by_cases hf : f = 0 ∨ d < f
      · refine .text (.stmt (by simp) (live_if_false hexpr hf) ?_)
        have hbody := (body.off (d := d + 1) (f := d) (e := false) (by omega)).selects
        have hrest := (rest.live d d .none fun _ => rfl).append (rest.length_selects _ _) fun _ =>
          next.live d _
        simpa [hexpr, hf] using hbody.append (body.length_selects _) fun _ => hrest
      · refine .text (.stmt (by simp) (live_if_skipped expr hf) ?_)
        have hshown := selects_of_shown (p := .live (d + 1) f) body rfl
        simpa [hexpr, hf] using hshown _ _ _

theorem Branches.live (d f : ℤ) (st : Before) (hf : st ≠ .last → f = d) : (b : Branches) →
    Selects (st.ctx d f) b.stmts (b.selects true (st ≠ .none)) (b.Remembered d f st)
      (.live d (b.remembers d f st))
  | .endif => by
    rw [Branches.stmts, Branches.selects, Branches.Remembered, Branches.remembers]
    cases st with
    | none =>
      obtain rfl := hf (by simp)
      exact .stmt (by simp) (own_endif f false) (SsiRun.nil _).selects
    | last => exact .stmt (by simp) (live_endif d f) (SsiRun.nil _).selects
    | earlier =>
      obtain rfl := hf (by simp)
      exact .stmt (by simp) (own_endif f true) (SsiRun.nil _).selects
  | .else body => by
    rw [Branches.stmts, Branches.selects, ← List.append_nil (body.selects _)]
    cases st with
    | none =>
      obtain rfl := hf (by simp)
      have hend : Selects (.live (f + 1) (body.remembers (f + 1) f)) [.endif] [] True
          (.live f (body.remembers (f + 1) f)) :=
        .stmt (by simp) (live_endif f _) (SsiRun.nil _).selects
      simpa [Before.ctx, Branches.Remembered, Branches.remembers] using Selects.stmt (by simp) (own_else f)
        ((body.live (f + 1) f).append (body.length_selects _) fun _ => hend)
    | last =>
      have hbody := (body.off (d := d + 1) (f := d) (e := false) (by omega)).append
        (.stmt (by simp) (own_endif d false) (.nil _))
      simpa [Before.ctx, Branches.Remembered, Branches.remembers] using
        Selects.stmt (by simp) (live_else d f) hbody.selects
    | earlier =>
      have hbody := (body.off (d := d + 1) (f := d) (e := true) (by omega)).append
        (.stmt (by simp) (own_endif d true) (.nil _))
      simpa [Before.ctx, Branches.Remembered, Branches.remembers] using
        Selects.stmt (by simp) (own_else_taken d) hbody.selects
  | .elif expr body rest => by
    rw [Branches.stmts, Branches.selects]
    cases st with
    | none =>
      obtain rfl := hf (by simp)
      rw [Branches.Remembered, Branches.remembers]
      by_cases hexpr : expr = .isTrue
      · subst hexpr
        rw [if_pos rfl, if_pos rfl]
        have hrest := (body.live (f + 1) f).append (body.length_selects _) fun _ =>
          rest.live f (body.remembers (f + 1) f) .last (by simp)
        simpa [Before.ctx] using Selects.stmt (by simp) (own_elif_true f) hrest
      · rw [if_neg hexpr, if_neg hexpr]
        have hbody := (body.off (d := f + 1) (f := f) (e := false) (by omega)).selects
        have hrest := hbody.append (body.length_selects _) fun _ =>
          rest.live f f .none fun _ => rfl
        simpa [Before.ctx, hexpr] using Selects.stmt (by simp) (own_elif_false hexpr) hrest
    | last =>
      rw [Branches.Remembered, Branches.remembers]
      · by_cases hfd : f = d
        · subst hfd
          have hbody := (body.off (d := f + 1) (f := f) (e := true) (by omega)).selects
          have hrest := hbody.append (body.length_selects _) fun _ =>
            rest.live f f .earlier fun _ => rfl
          simpa [Before.ctx] using Selects.stmt (by simp) (live_elif f expr) hrest
        · have hshown := selects_of_shown (p := .live (d + 1) f) body rfl
          simpa [Before.ctx, hfd] using Selects.stmt (by simp) (live_elif_skipped expr hfd) (hshown _ _ _)
      · simp
    | earlier =>
      obtain rfl := hf (by simp)
      rw [Branches.Remembered, Branches.remembers]
      · have hbody := (body.off (d := f + 1) (f := f) (e := true) (by omega)).selects
        have hrest := hbody.append (body.length_selects _) fun _ =>
          rest.live f f .earlier fun _ => rfl
        simpa [Before.ctx] using Selects.stmt (by simp) (own_elif_taken f expr) hrest
      · simp

end

/-- The text of a page is output where it is selected, and output is on behind it. -/
structure SelectsText (pg : Page) : Prop where
  outputs : outputs ssiCtxInit pg.stmts = pg.selects true
  ifLevel : (processSsi ssiCtxInit pg.stmts).ifLevel = 0
  ifIsFalse : (processSsi ssiCtxInit pg.stmts).ifIsFalse = false
  ifIsFalseEndif : (processSsi ssiCtxInit pg.stmts).ifIsFalseEndif = false

/-- The text of a page is output exactly where it is selected if and only if the level that is
remembered is right wherever the code goes by it. -/
theorem page_selects_iff (pg : Page) : SelectsText pg ↔ pg.Remembered 0 0 := by
  have h : Selects ssiCtxInit pg.stmts (pg.selects true) (pg.Remembered 0 0)
      (.live 0 (pg.remembers 0 0)) := pg.live 0 0
  constructor
  · exact fun hpg => h.exact.mp hpg.outputs
  · intro hrem
    have hctx := h.ctx hrem
    exact ⟨h.exact.mpr hrem, by rw [hctx]; rfl, by rw [hctx]; rfl, by rw [hctx]; rfl⟩

/-- A true `if` with a false one in it and an `elif` behind: the `elif` is output, too. -/
theorem not_page_selects :
    ¬ SelectsText (.cond .isTrue (.cond .isFalse .text .endif .text)
      (.elif .isTrue .text .endif) .text) := fun h => by
  have := h.outputs
  revert this
  decide

end Lighttpd
