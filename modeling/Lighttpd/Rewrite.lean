import Lighttpd.Alias
import Lighttpd.CondMatches
import Lighttpd.GwRequest

/-!
# Rewrite rules

`mod_rewrite` rewrites the target of a request by the first rule that matches it, and the request is
prepared anew. What it remembers of a request is a context with a counter, made at the first rewrite
and freed when the connection is reset; both of its hooks count up. Behind the bound the request is
aborted, with a message that names the condition around the rules. Rules outside of every condition
have none, and the message is then made of what is behind a null pointer
(`rewriteRun_clean_iff`).

What other code does between two calls is any change of the connection but its context.
-/

namespace Lighttpd

open CString

/-- `rewrite_rule`, with a compiled expression. -/
structure RewriteRule (R : Type*) where
  key : R
  value : Buffer
  once : Bool

/-- The rules of a configuration block. -/
structure RewriteConfig (R : Type*) where
  rewrite : List (RewriteRule R)
  rewriteNF : List (RewriteRule R)

/-- The configuration blocks with their options that are arrays, and the library for regular
expressions : `pcreExec` gives the substrings or the code of an error. -/
structure RewriteServer (n : ℕ) (R : Type*) where
  env : CondEnv
  context : ConfigContext (n + 1)
  config : Fin (n + 1) → DataArray (DataArray Buffer)
  pcreCompile : Bytes → Option R
  pcreExec : R → Bytes → Except ℤ (List Bytes)

/-- `PCRE_ERROR_NOMATCH` -/
def pcreErrorNomatch : ℤ := -1

section Config

variable {R : Type*}

/-- The loop over the entries of an option. It ends at an expression that does not compile. -/
def rewriteRuleBufferAppend (pcreCompile : Bytes → Option R) (once : Bool)
    (kvb : List (RewriteRule R)) : List (DataUnset Buffer) → List (RewriteRule R)
  | [] => kvb
  | ds :: rest =>
    match pcreCompile (cstr ds.key.string) with
    | none => kvb
    | some key => rewriteRuleBufferAppend pcreCompile once (kvb ++ [⟨key, ds.value, once⟩]) rest

/-- `parse_config_entry`. Nothing looks at its result. -/
def parseConfigEntry (pcreCompile : Bytes → Option R) (ca : DataArray (DataArray Buffer))
    (kvb : List (RewriteRule R)) (option : Bytes) (once : Bool) : List (RewriteRule R) :=
  match arrayGetElementKlen ca option with
  | none => kvb
  | some du =>
    if du.type ≠ .array ∨ ¬ arrayIsKvstring du.value then kvb
    else rewriteRuleBufferAppend pcreCompile once kvb du.value.live

/-- The block of `mod_rewrite_set_defaults` for a configuration block. -/
def modRewriteSetDefaults (pcreCompile : Bytes → Option R) (ca : DataArray (DataArray Buffer)) :
    RewriteConfig R :=
  let parse := parseConfigEntry pcreCompile ca
  let rewrite := parse [] (str "url.rewrite-once") true
  let rewrite := parse rewrite (str "url.rewrite-final") true
  let rewriteNF := parse [] (str "url.rewrite-if-not-file") true
  let rewriteNF := parse rewriteNF (str "url.rewrite-repeat-if-not-file") false
  let rewrite := parse rewrite (str "url.rewrite") true
  let rewrite := parse rewrite (str "url.rewrite-repeat") false
  ⟨rewrite, rewriteNF⟩

end Config

/-! ## The connection -/

/-- `handler_ctx` -/
structure RewriteCtx where
  finished : Bool
  loops : ℕ
  deriving DecidableEq, Repr

/-- `hctx->loops++` -/
def RewriteCtx.counted (hctx : RewriteCtx) : RewriteCtx := { hctx with loops := hctx.loops + 1 }

/-- What `mod_rewrite` reads and writes of a connection; `regular` is what `stat_cache_get_entry`
says of `physical.path`. -/
structure RewriteCon (n : ℕ) where
  uri : Bytes
  attrs : ConAttrs
  cond : CondState (n + 1)
  direct : Bool
  physicalPath : Buffer
  regular : Bool
  hctx : Option RewriteCtx

/-- `p->conf` -/
structure RewriteConf (n : ℕ) (R : Type*) where
  rewrite : List (RewriteRule R)
  rewriteNF : List (RewriteRule R)
  context : Option (Fin (n + 1))
  contextNF : Option (Fin (n + 1))

/-- What a call ends with : a result, or a rewrite by a rule, which is the result
`HANDLER_COMEBACK`. The other two are reads through a null pointer, for the message about an endless
loop, and of text that was not captured. -/
inductive RewriteOutcome (R : Type*)
  | result (r : HandlerT)
  | rewritten (rule : RewriteRule R)
  | nullContext
  | badCapture

variable {n : ℕ} {R : Type*} (srv : RewriteServer n R)

/-- The options that `mod_rewrite_patch_connection` merges into `rewrite`. -/
def rewriteOptions : List Bytes :=
  [str "url.rewrite", str "url.rewrite-once", str "url.rewrite-repeat", str "url.rewrite-final"]

/-- The options that `mod_rewrite_patch_connection` merges into `rewrite_NF`. -/
def rewriteOptionsNF : List Bytes :=
  [str "url.rewrite-if-not-file", str "url.rewrite-repeat-if-not-file"]

/-- The loop over the options of a block that is in effect. -/
def rewriteMerge (dc : Fin (n + 1)) (conf : RewriteConf n R) (key : Buffer) : RewriteConf n R :=
  let s := modRewriteSetDefaults srv.pcreCompile (srv.config dc)
  if rewriteOptions.any fun option => key = some option then
    { conf with rewrite := s.rewrite, context := some dc }
  else if rewriteOptionsNF.any fun option => key = some option then
    { conf with rewriteNF := s.rewriteNF, contextNF := some dc }
  else conf

/-- A turn of the loop over the blocks. -/
def rewritePatchBlock (attrs : ConAttrs) (r : RewriteConf n R × CondState (n + 1)) (i : Fin n) :
    RewriteConf n R × CondState (n + 1) :=
  let check := configCheckCond srv.env attrs srv.context r.2 i.succ
  if check.2 then
    ((srv.config i.succ).live.foldl (fun conf du => rewriteMerge srv i.succ conf du.key) r.1,
      check.1)
  else (r.1, check.1)

/-- `mod_rewrite_patch_connection` -/
def modRewritePatchConnection (con : RewriteCon n) : RewriteConf n R × CondState (n + 1) :=
  let s := modRewriteSetDefaults srv.pcreCompile (srv.config 0)
  (List.finRange n).foldl (rewritePatchBlock srv con.attrs)
    (⟨s.rewrite, s.rewriteNF, none, none⟩, con.cond)

/-- The context once a rule was applied. -/
def rewriteCtxAfter (rule : RewriteRule R) (hctx : Option RewriteCtx) : RewriteCtx :=
  let ctx := hctx.getD ⟨false, 0⟩
  if rule.once then { ctx with finished := true } else ctx

/-- The loop over the rules. -/
def rewriteRulesLoop (context : Option (Fin (n + 1))) (matchBuf : Bytes) (con : RewriteCon n) :
    List (RewriteRule R) → RewriteOutcome R × RewriteCon n
  | [] => (.result .goOn, con)
  | rule :: rules =>
    match srv.pcreExec rule.key matchBuf with
    | .error code =>
      if code ≠ pcreErrorNomatch then (.result .error, con)
      else rewriteRulesLoop context matchBuf con rules
    | .ok list =>
      if rule.value.string.length = 0 then (.result .goOn, con)
      else
        match pcreKeyvalueBufferSubst
            (substCall con.attrs con.cond context rule.value.string list) with
        | none => (.badCapture, con)
        | some st =>
          (.rewritten rule,
            { con with uri := st.out, hctx := some (rewriteCtxAfter rule con.hctx) })

/-- `process_rewrite_rules` -/
def processRewriteRules (context : Option (Fin (n + 1))) (con : RewriteCon n)
    (kvb : List (RewriteRule R)) : RewriteOutcome R × RewriteCon n :=
  match con.hctx with
  | none => rewriteRulesLoop srv context con.uri con kvb
  | some hctx =>
    let con := { con with hctx := some hctx.counted }
    if 100 < hctx.loops then
      match context with
      | none => (.nullContext, con)
      | some _ => (.result .error, con)
    else if hctx.finished then (.result .goOn, con)
    else rewriteRulesLoop srv context con.uri con kvb

/-- `mod_rewrite_physical` -/
def modRewritePhysical (con : RewriteCon n) : RewriteOutcome R × RewriteCon n :=
  if ¬ con.direct then (.result .goOn, con)
  else
    let patch := modRewritePatchConnection srv con
    let con := { con with cond := patch.2 }
    if con.regular then (.result .goOn, con)
    else
      let r := processRewriteRules srv patch.1.contextNF con patch.1.rewriteNF
      match r.1 with
      | .rewritten rule => (.rewritten rule, { r.2 with physicalPath := none })
      | outcome => (outcome, r.2)

/-- `mod_rewrite_uri_handler` -/
def modRewriteUriHandler (con : RewriteCon n) : RewriteOutcome R × RewriteCon n :=
  let patch := modRewritePatchConnection srv con
  processRewriteRules srv patch.1.context { con with cond := patch.2 } patch.1.rewrite

/-! ## Runs -/

/-- A call of one of the two hooks, a reset of the connection, and what other code does to it. -/
inductive RewriteOp (n : ℕ)
  | uriRaw
  | physical
  | reset
  | others (con : RewriteCon n)

/-- The operation is a reset. -/
def RewriteOp.isReset : RewriteOp n → Bool
  | .reset => true
  | _ => false

/-- What happens to the connection. -/
def rewriteStep (con : RewriteCon n) : RewriteOp n → RewriteOutcome R × RewriteCon n
  | .uriRaw => modRewriteUriHandler srv con
  | .physical => modRewritePhysical srv con
  | .reset => (.result .goOn, { con with hctx := none })
  | .others con' => (.result .goOn, { con' with hctx := con.hctx })

/-- The request goes on. -/
def RewriteOutcome.goesOn : RewriteOutcome R → Bool
  | .result r => r ≠ .error
  | .rewritten _ => true
  | _ => false

/-- The outcome is the read through a null pointer. -/
def RewriteOutcome.isNullContext : RewriteOutcome R → Bool
  | .nullContext => true
  | _ => false

/-- A step of a run : the connection before it, the operation and the outcome. -/
structure RewriteEvent (n : ℕ) (R : Type*) where
  con : RewriteCon n
  op : RewriteOp n
  outcome : RewriteOutcome R

/-- A run, to the end of the request if it comes to it. -/
def rewriteRun (con : RewriteCon n) : List (RewriteOp n) → List (RewriteEvent n R)
  | [] => []
  | op :: ops =>
    let r := rewriteStep srv con op
    ⟨con, op, r.1⟩ :: if r.1.goesOn then rewriteRun r.2 ops else []

/-- The outcome is a rewrite. -/
def RewriteOutcome.isRewrite : RewriteOutcome R → Bool
  | .rewritten _ => true
  | _ => false

/-- The counter is behind the bound. -/
def RewriteCon.AtBound (con : RewriteCon n) : Prop :=
  ∃ hctx, con.hctx = some hctx ∧ 100 < hctx.loops

/-- The condition around the rules that an operation goes through, if it does. -/
def rewriteContext (con : RewriteCon n) : RewriteOp n → Option (Option (Fin (n + 1)))
  | .uriRaw => some (modRewritePatchConnection srv con).1.context
  | .physical =>
    if con.direct ∧ ¬ con.regular then some (modRewritePatchConnection srv con).1.contextNF
    else none
  | _ => none

/-- Rewriting is bounded and ends cleanly : at most 102 rewrites for a reset, none behind one by a
rule that is to be applied once, and an error at the bound. -/
structure CleanRewriting (events : List (RewriteEvent n R)) : Prop where
  bounded : events.countP (fun e => e.outcome.isRewrite) ≤
    102 * (events.countP (fun e => e.op.isReset) + 1)
  once_last : ∀ front e rule between e' behind, events = front ++ e :: (between ++ e' :: behind) →
    e.outcome = .rewritten rule → rule.once = true → e'.outcome.isRewrite = true →
      ∃ r ∈ between, r.op.isReset = true
  at_bound : ∀ e ∈ events, e.con.AtBound → (rewriteContext srv e.con e.op).isSome →
    e.outcome = .result .error

/-- The bound is hit in rules outside of every condition. -/
def RewriteEvent.HitsGlobally (e : RewriteEvent n R) : Prop :=
  e.con.AtBound ∧ rewriteContext srv e.con e.op = some none

/-! ## A step -/

theorem RewriteOutcome.isRewrite_iff {outcome : RewriteOutcome R} :
    outcome.isRewrite = true ↔ ∃ rule, outcome = .rewritten rule := by
  cases outcome with
  | rewritten rule => exact ⟨fun _ => ⟨rule, rfl⟩, fun _ => rfl⟩
  | result | nullContext | badCapture =>
    constructor
    · intro h
      cases h
    · rintro ⟨rule, h⟩
      cases h

/-- How many rewrites are left. -/
def RewriteCon.budget (con : RewriteCon n) : ℕ :=
  match con.hctx with
  | none => 102
  | some hctx => 101 - hctx.loops

/-- A rule that is to be applied once was. -/
def RewriteCon.Finished (con : RewriteCon n) : Prop :=
  ∃ hctx, con.hctx = some hctx ∧ hctx.finished = true

variable {con : RewriteCon n} {op : RewriteOp n} {rule : RewriteRule R} {ops : List (RewriteOp n)}
  {between behind : List (RewriteEvent n R)} {e' e : RewriteEvent n R}

/-- What the loop over the rules does : it leaves the context, or it applies a rule. -/
theorem rewriteRulesLoop_spec (context : Option (Fin (n + 1))) (matchBuf : Bytes)
    (con : RewriteCon n) (kvb : List (RewriteRule R)) :
    let r := rewriteRulesLoop srv context matchBuf con kvb
    (r.1.isRewrite = false ∧ r.2 = con) ∨
      ∃ rule, r.1 = .rewritten rule ∧ r.2.hctx = some (rewriteCtxAfter rule con.hctx) := by
  induction kvb with
  | nil => exact .inl ⟨rfl, rfl⟩
  | cons rule rules ih =>
    dsimp only
    rw [rewriteRulesLoop]
    split
    · split_ifs
      · exact .inl ⟨rfl, rfl⟩
      · exact ih
    · split_ifs
      · exact .inl ⟨rfl, rfl⟩
      · split
        · exact .inl ⟨rfl, rfl⟩
        · exact .inr ⟨rule, rfl, rfl⟩

/-- What a call leaves : without a rewrite the context, counted up, and with one the context of the
rule. A connection at the bound, or a finished one, is not rewritten. -/
structure ProcessSpec (context : Option (Fin (n + 1))) (con : RewriteCon n)
    (r : RewriteOutcome R × RewriteCon n) : Prop where
  kept : r.1.isRewrite = false → r.2.hctx = con.hctx.map RewriteCtx.counted
  rewritten : ∀ rule, r.1 = .rewritten rule → ¬ con.AtBound ∧ ¬ con.Finished ∧
    r.2.hctx = some (rewriteCtxAfter rule (con.hctx.map RewriteCtx.counted))
  bound : con.AtBound → r.1 = if context = none then .nullContext else .result .error

/-- The loop over the rules, for a connection that is counted up. -/
theorem rewriteRulesLoop_processSpec (context : Option (Fin (n + 1))) {con con' : RewriteCon n}
    (matchBuf : Bytes) (kvb : List (RewriteRule R)) (hat : ¬ con.AtBound) (hfin : ¬ con.Finished)
    (hctx : con'.hctx = con.hctx.map RewriteCtx.counted) :
    ProcessSpec context con (rewriteRulesLoop srv context matchBuf con' kvb) := by
  rcases rewriteRulesLoop_spec srv context matchBuf con' kvb with
    ⟨hno, hcon⟩ | ⟨rule, hr, hcon⟩
  · refine ⟨fun _ => by rw [hcon, hctx], fun rule hr => ?_, fun h => absurd h hat⟩
    rw [hr] at hno
    cases hno
  · refine ⟨fun hno => ?_, fun rule' hr' => ⟨hat, hfin, ?_⟩, fun h => absurd h hat⟩
    · rw [hr] at hno
      cases hno
    · rw [hr'] at hr
      cases hr
      rw [hcon, hctx]

theorem processRewriteRules_spec (context : Option (Fin (n + 1))) (con : RewriteCon n)
    (kvb : List (RewriteRule R)) :
    ProcessSpec context con (processRewriteRules srv context con kvb) := by
  unfold processRewriteRules
  cases hctx : con.hctx with
  | none =>
    have hat : ¬ con.AtBound := fun ⟨h, hh, _⟩ => by simp [hctx] at hh
    have hfin : ¬ con.Finished := fun ⟨h, hh, _⟩ => by simp [hctx] at hh
    exact rewriteRulesLoop_processSpec srv context con.uri kvb hat hfin (by rw [hctx]; rfl)
  | some h =>
    dsimp only
    split_ifs with hloops hfinished
    · cases context with
      | none => exact ⟨fun _ => by rw [hctx]; rfl, nofun, fun _ => rfl⟩
      | some dc => exact ⟨fun _ => by rw [hctx]; rfl, nofun, fun _ => rfl⟩
    · refine ⟨fun _ => by rw [hctx]; rfl, nofun, fun ⟨h', hh', hl⟩ => ?_⟩
      rw [hctx, Option.some.injEq] at hh'
      exact absurd (hh' ▸ hl) hloops
    · have hat : ¬ con.AtBound := fun ⟨h', hh', hl⟩ => by
        rw [hctx, Option.some.injEq] at hh'
        exact absurd (hh' ▸ hl) hloops
      have hfin : ¬ con.Finished := fun ⟨h', hh', hf⟩ => by
        rw [hctx, Option.some.injEq] at hh'
        exact absurd (hh' ▸ hf) hfinished
      exact rewriteRulesLoop_processSpec srv context con.uri kvb hat hfin (by rw [hctx]; rfl)

/-- A step that goes through rules, or one that does not rewrite. -/
theorem rewriteStep_cases (con : RewriteCon n) (op : RewriteOp n) :
    (∃ context, rewriteContext srv con op = some context ∧
      ProcessSpec context con (rewriteStep srv con op)) ∨
    (rewriteContext srv con op = none ∧ (rewriteStep srv con op).1 = .result .goOn ∧
      (rewriteStep srv con op).2.hctx = if op.isReset then none else con.hctx) := by
  cases op with
  | uriRaw =>
    have hspec := processRewriteRules_spec srv (modRewritePatchConnection srv con).1.context
      { con with cond := (modRewritePatchConnection srv con).2 }
      (modRewritePatchConnection srv con).1.rewrite
    exact .inl ⟨_, rfl, ⟨hspec.kept, hspec.rewritten, hspec.bound⟩⟩
  | physical =>
    by_cases hgo : con.direct ∧ ¬ con.regular
    · have hspec := processRewriteRules_spec srv
        (modRewritePatchConnection srv con).1.contextNF
        { con with cond := (modRewritePatchConnection srv con).2 }
        (modRewritePatchConnection srv con).1.rewriteNF
      refine .inl ⟨_, if_pos hgo, ?_⟩
      change ProcessSpec _ con (modRewritePhysical srv con)
      unfold modRewritePhysical
      rw [if_neg (not_not.mpr hgo.1)]
      dsimp only
      rw [if_neg hgo.2]
      split
      · next rule hr =>
        refine ⟨nofun, fun rule' hr' => ?_, fun h => ?_⟩
        · cases hr'
          exact hspec.rewritten rule hr
        · rw [← hspec.bound h, hr]
      · exact ⟨hspec.kept, hspec.rewritten, hspec.bound⟩
    · refine .inr ⟨if_neg hgo, ?_⟩
      change (modRewritePhysical srv con).1 = _ ∧ (modRewritePhysical srv con).2.hctx = con.hctx
      unfold modRewritePhysical
      by_cases hdirect : con.direct
      · have hregular : con.regular = true := by
          by_contra hno
          exact hgo ⟨hdirect, hno⟩
        rw [if_neg (not_not.mpr hdirect)]
        dsimp only
        rw [if_pos hregular]
        exact ⟨rfl, rfl⟩
      · rw [if_pos hdirect]
        exact ⟨rfl, rfl⟩
  | reset => exact .inr ⟨rfl, rfl, rfl⟩
  | others con' => exact .inr ⟨rfl, rfl, rfl⟩

theorem loops_rewriteCtxAfter (rule : RewriteRule R) (hctx : Option RewriteCtx) :
    (rewriteCtxAfter rule hctx).loops = (hctx.getD ⟨false, 0⟩).loops := by
  unfold rewriteCtxAfter
  dsimp only
  split_ifs
  · rfl
  · rfl

theorem rewriteStep_budget (con : RewriteCon n) (op : RewriteOp n) :
    (rewriteStep srv con op).2.budget + (if (rewriteStep srv con op).1.isRewrite then 1 else 0) ≤
      con.budget + if op.isReset then 102 else 0 := by
  rcases rewriteStep_cases srv con op with ⟨context, hcontext, hspec⟩ | ⟨-, hgo, hctx⟩
  · by_cases hrewrite : (rewriteStep srv con op).1.isRewrite = true
    · obtain ⟨rule, hr⟩ := RewriteOutcome.isRewrite_iff.mp hrewrite
      obtain ⟨hat, -, hafter⟩ := hspec.rewritten rule hr
      rw [if_pos hrewrite, RewriteCon.budget, hafter]
      dsimp only
      rw [loops_rewriteCtxAfter, RewriteCon.budget]
      cases hh : con.hctx with
      | none => simp
      | some h =>
        have hle : h.loops ≤ 100 := not_lt.mp fun hlt => hat ⟨h, hh, hlt⟩
        dsimp only [Option.map_some, Option.getD_some, RewriteCtx.counted]
        omega
    · have hkept := hspec.kept (Bool.not_eq_true _ ▸ hrewrite)
      rw [if_neg hrewrite, RewriteCon.budget, hkept, RewriteCon.budget]
      cases con.hctx with
      | none => exact Nat.le_add_right _ _
      | some h =>
        dsimp only [Option.map_some, RewriteCtx.counted]
        omega
  · have hrewrite : ¬ (rewriteStep srv con op).1.isRewrite = true := by
      rw [hgo]
      exact Bool.false_ne_true
    rw [if_neg hrewrite, RewriteCon.budget, hctx]
    by_cases hreset : op.isReset
    · simp [hreset]
    · simp [hreset, RewriteCon.budget]

theorem rewriteStep_finished (h : con.Finished) (hop : op.isReset = false) :
    (rewriteStep srv con op).1.isRewrite = false ∧ (rewriteStep srv con op).2.Finished := by
  obtain ⟨hctx, hh, hfinished⟩ := h
  rcases rewriteStep_cases srv con op with ⟨context, -, hspec⟩ | ⟨-, hgo, hafter⟩
  · have hno : (rewriteStep srv con op).1.isRewrite = false := by
      cases hr : (rewriteStep srv con op).1 with
      | rewritten rule => exact absurd ⟨hctx, hh, hfinished⟩ (hspec.rewritten rule hr).2.1
      | result | nullContext | badCapture => rfl
    refine ⟨hno, hctx.counted, (hspec.kept hno).trans (by rw [hh]; rfl), hfinished⟩
  · rw [hop] at hafter
    exact ⟨by rw [hgo]; rfl, hctx, hafter.trans hh, hfinished⟩

theorem rewriteStep_once (h : (rewriteStep srv con op).1 = .rewritten rule)
    (honce : rule.once = true) : (rewriteStep srv con op).2.Finished := by
  rcases rewriteStep_cases srv con op with ⟨context, -, hspec⟩ | ⟨-, hgo, -⟩
  · refine ⟨_, (hspec.rewritten rule h).2.2, ?_⟩
    unfold rewriteCtxAfter
    rw [honce]
    rfl
  · rw [hgo] at h
    cases h

/-! ## Runs that end cleanly -/

theorem rewriteRun_bounded (con : RewriteCon n) (ops : List (RewriteOp n)) :
    (rewriteRun srv con ops).countP (fun e => e.outcome.isRewrite) ≤
      con.budget + 102 * (rewriteRun srv con ops).countP (fun e => e.op.isReset) := by
  induction ops generalizing con with
  | nil => simp [rewriteRun]
  | cons op ops ih =>
    have hstep := rewriteStep_budget srv con op
    rw [rewriteRun, List.countP_cons, List.countP_cons]
    by_cases hgo : (rewriteStep srv con op).1.goesOn = true
    · rw [if_pos hgo]
      have hrest := ih (rewriteStep srv con op).2
      split_ifs at hstep ⊢ <;> omega
    · rw [if_neg hgo, List.countP_nil, List.countP_nil]
      split_ifs at hstep ⊢ <;> omega

/-- Once a rule that is to be applied once was, there is no rewrite without a reset. -/
theorem rewriteRun_finished (hfinished : con.Finished)
    (hrun : rewriteRun srv con ops = between ++ e' :: behind)
    (hrewrite : e'.outcome.isRewrite = true) : ∃ r ∈ between, r.op.isReset = true := by
  induction ops generalizing con between with
  | nil => simp [rewriteRun] at hrun
  | cons op ops ih =>
    rw [rewriteRun] at hrun
    by_cases hreset : op.isReset = true
    · cases between with
      | nil =>
        rw [List.nil_append, List.cons.injEq] at hrun
        cases op with
        | reset =>
          rw [← hrun.1] at hrewrite
          cases hrewrite
        | uriRaw | physical | others => cases hreset
      | cons r between =>
        rw [List.cons_append, List.cons.injEq] at hrun
        exact ⟨r, List.mem_cons_self, hrun.1 ▸ hreset⟩
    · obtain ⟨hno, hafter⟩ := rewriteStep_finished srv hfinished
        (Bool.not_eq_true _ ▸ hreset)
      cases between with
      | nil =>
        rw [List.nil_append, List.cons.injEq] at hrun
        rw [← hrun.1] at hrewrite
        exact absurd hrewrite (by simp [hno])
      | cons r between =>
        rw [List.cons_append, List.cons.injEq] at hrun
        obtain ⟨-, hrest⟩ := hrun
        split_ifs at hrest with hgo
        · obtain ⟨r', hr', hres⟩ := ih hafter hrest
          exact ⟨r', List.mem_cons_of_mem r hr', hres⟩
        · simp at hrest

theorem rewriteRun_once {front : List (RewriteEvent n R)}
    (hrun : rewriteRun srv con ops = front ++ e :: (between ++ e' :: behind))
    (he : e.outcome = .rewritten rule) (honce : rule.once = true)
    (hrewrite : e'.outcome.isRewrite = true) : ∃ r ∈ between, r.op.isReset = true := by
  induction ops generalizing con front with
  | nil => simp [rewriteRun] at hrun
  | cons op ops ih =>
    rw [rewriteRun] at hrun
    cases front with
    | nil =>
      rw [List.nil_append, List.cons.injEq] at hrun
      obtain ⟨rfl, hrest⟩ := hrun
      split_ifs at hrest with hgo
      · exact rewriteRun_finished srv (rewriteStep_once srv he honce) hrest hrewrite
      · simp at hrest
    | cons f front =>
      rw [List.cons_append, List.cons.injEq] at hrun
      obtain ⟨-, hrest⟩ := hrun
      split_ifs at hrest with hgo
      · exact ih hrest
      · simp at hrest

theorem mem_rewriteRun (he : e ∈ rewriteRun srv con ops) :
    e.outcome = (rewriteStep srv e.con e.op).1 := by
  induction ops generalizing con with
  | nil => cases he
  | cons op ops ih =>
    rw [rewriteRun] at he
    rcases List.mem_cons.mp he with rfl | he
    · rfl
    · split_ifs at he
      · exact ih he
      · cases he

theorem rewriteStep_atBound (he : e.outcome = (rewriteStep srv e.con e.op).1) (hat : e.con.AtBound)
    (hsome : (rewriteContext srv e.con e.op).isSome) :
    e.outcome = .result .error ↔ ¬ e.HitsGlobally srv := by
  rcases rewriteStep_cases srv e.con e.op with ⟨context, hcontext, hspec⟩ | ⟨hnone, -⟩
  · rw [he, hspec.bound hat, RewriteEvent.HitsGlobally, hcontext]
    cases context with
    | none => simp [hat]
    | some dc => simp
  · rw [hnone] at hsome
    cases hsome

/-- A run from a reset rewrites as it is to if and only if the bound is not hit in rules outside of
every condition. -/
theorem rewriteRun_clean_iff (con : RewriteCon n)
    (hcon : con.hctx = none) (ops : List (RewriteOp n)) :
    CleanRewriting srv (rewriteRun srv con ops) ↔
      ∀ e ∈ rewriteRun srv con ops, ¬ e.HitsGlobally srv := by
  constructor
  · intro hclean e he hhits
    have hsome : (rewriteContext srv e.con e.op).isSome := by rw [hhits.2]; rfl
    exact (rewriteStep_atBound srv (mem_rewriteRun srv he) hhits.1 hsome).mp
      (hclean.at_bound e he hhits.1 hsome) hhits
  · intro hno
    refine ⟨?_, fun _ _ _ _ _ _ => rewriteRun_once srv, fun e he hat hsome =>
      (rewriteStep_atBound srv (mem_rewriteRun srv he) hat hsome).mpr (hno e he)⟩
    have hbounded := rewriteRun_bounded srv con ops
    rw [RewriteCon.budget, hcon] at hbounded
    dsimp only at hbounded
    omega

/-- A table of one option with one rule. -/
def oneRewrite (option key value : Bytes) : DataArray (DataArray Buffer) :=
  ⟨[some ⟨.array, some option, false, oneAlias key value⟩], [0], 1, 0⟩

/-- `url.rewrite-repeat` or another option outside of every condition, with a rule that takes `/a`
to itself. -/
def globalRewrite (option : Bytes) : RewriteServer 0 Unit where
  env := ⟨.noAddress, fun _ _ => (-1, [])⟩
  context := ⟨fun _ => ⟨.unset, [], .unset, none, none, none, none, []⟩, nofun, nofun⟩
  config _ := oneRewrite option (str "^/a$") (str "/a")
  pcreCompile _ := some ()
  pcreExec _ s := if s = str "/a" then .ok [str "/a"] else .error pcreErrorNomatch

/-- A connection with a request for `/a`. -/
def rewriteCon : RewriteCon 0 :=
  ⟨str "/a", requestAttrs [] (str "/a") [], emptyState 1, true, none, false, none⟩

/-- With a rule that is applied once. -/
theorem rewriteRun_clean_iff_once :
    let events := rewriteRun (globalRewrite (str "url.rewrite-once")) rewriteCon [.uriRaw, .uriRaw]
    CleanRewriting (globalRewrite (str "url.rewrite-once")) events ↔
      ∀ e ∈ events, ¬ e.HitsGlobally (globalRewrite (str "url.rewrite-once")) :=
  rewriteRun_clean_iff (globalRewrite (str "url.rewrite-once")) rewriteCon rfl [.uriRaw, .uriRaw]

/-- The condition around global rules is read through a null pointer when the bound is hit. -/
theorem rewriteRun_not_clean :
    ¬ ∀ (n : ℕ) (R : Type) (srv : RewriteServer n R) (con : RewriteCon n), con.hctx = none →
      ∀ ops, CleanRewriting srv (rewriteRun srv con ops) := by
  intro h
  let srv := globalRewrite (str "url.rewrite-repeat")
  have hclean := h 0 Unit srv rewriteCon rfl (List.replicate 103 .uriRaw)
  have hlast : (rewriteRun srv rewriteCon (List.replicate 103 .uriRaw)).any (fun e =>
      e.con.hctx.any (fun hctx => decide (100 < hctx.loops)) &&
        (rewriteContext srv e.con e.op).isSome && e.outcome.isNullContext) = true := by
    decide +kernel
  obtain ⟨e, he, hnull⟩ := List.any_eq_true.mp hlast
  rw [Bool.and_eq_true, Bool.and_eq_true] at hnull
  obtain ⟨⟨hloops, hcontext⟩, hnull⟩ := hnull
  obtain ⟨hctx, hh, hloops⟩ := (Option.any_eq_true _ _).mp hloops
  have herror := hclean.at_bound e he ⟨hctx, hh, of_decide_eq_true hloops⟩ hcontext
  rw [herror] at hnull
  cases hnull

end Lighttpd
