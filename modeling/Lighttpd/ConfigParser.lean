import Lighttpd.ConfigCond
import Lighttpd.DataArray
import Lighttpd.RequestHost

/-!
# Parsing conditional blocks

The actions of `configparser.y` on settings and on conditional blocks, in the order in which the
parser runs them. A block is kept in `all_configs` under a key, which is the key of the enclosing
block, a slash and the condition; the block of a condition whose key is there already is taken up
again. An else block is there under a temporary key until it ends, and then under the key of the
condition before it with the operator negated.

Expressions are evaluated in the text, and a file that is included stands in the place of its
`include`. What the parser refuses, it refuses for good: the result is then `none`. This is also the
result when the block of an else branch is freed while it is in use, because its temporary key is
taken.
-/

namespace Lighttpd

open CString

/-- The operators of a condition. -/
inductive TextOp
  | eq
  | ne
  | regexMatch
  | regexNomatch
  deriving DecidableEq, Repr

/-- `$var[tag] op value`, with the values of the expressions. -/
structure TextCond where
  var : Bytes
  tag : Bytes
  op : TextOp
  value : Bytes
  deriving DecidableEq, Repr

/-- `=`, `:=` and `+=`. -/
inductive AssignOp
  | assign
  | forceAssign
  | append
  deriving DecidableEq, Repr

mutual

/-- `metalines`. With `+=` the value is what was there and what is appended. -/
inductive ConfigText (V : Type)
  | nil
  | varline (op : AssignOp) (key : Bytes) (value : V) (rest : ConfigText V)
  | global (body rest : ConfigText V)
  | condlines (c : TextCond) (body : ConfigText V) (more : ElseText V) (rest : ConfigText V)

/-- The branches behind the first one of `condlines`. -/
inductive ElseText (V : Type)
  | done
  | condline (c : TextCond) (body : ConfigText V) (more : ElseText V)
  | condElse (body : ConfigText V) (more : ElseText V)

end

/-! ## Conditions -/

/-- What the parser calls besides: the address functions, and `pcre_compile` with what is checked of
its result. -/
structure ParserLib extends AddrLib where
  pcreCompiles : Bytes → Bool

/-- What a block compares: `comp`, `comp_tag`, `cond` and `string`. -/
structure BlockCond where
  comp : CompKey
  compTag : Bytes
  cond : ConfigCond
  string : Bytes
  deriving DecidableEq, Repr

def TextOp.cond : TextOp → ConfigCond
  | .eq => .eq
  | .ne => .ne
  | .regexMatch => .regexMatch
  | .regexNomatch => .regexNomatch

/-- `op`. -/
def TextOp.text : TextOp → Bytes
  | .eq => str "=="
  | .ne => str "!="
  | .regexMatch => str "=~"
  | .regexNomatch => str "!~"

/-- The table `comps`. -/
def comps : List (CompKey × Bytes) :=
  [(.serverSocket, str "SERVER[\"socket\"]"), (.httpUrl, str "HTTP[\"url\"]"),
    (.httpHost, str "HTTP[\"host\"]"), (.httpRequestHeader, str "HTTP[\"referer\"]"),
    (.httpUserAgent, str "HTTP[\"useragent\"]"),
    (.httpRequestHeader, str "HTTP[\"user-agent\"]"), (.httpLanguage, str "HTTP[\"language\"]"),
    (.httpRequestHeader, str "HTTP[\"cookie\"]"), (.httpRemoteIp, str "HTTP[\"remoteip\"]"),
    (.httpRemoteIp, str "HTTP[\"remote-ip\"]"), (.httpQueryString, str "HTTP[\"querystring\"]"),
    (.httpQueryString, str "HTTP[\"query-string\"]"),
    (.httpRequestMethod, str "HTTP[\"request-method\"]"), (.httpScheme, str "HTTP[\"scheme\"]")]

/-- `strtoul` in base ten: the value and the offset of the first byte not read. -/
def strtoul10 (s : Bytes) : ℕ × ℕ :=
  let ws := (s.takeWhile isSpace).length
  let t := s.drop ws
  let sign := if t.head? = some 43 ∨ t.head? = some 45 then 1 else 0
  let ds := (t.drop sign).takeWhile isDigit
  if ds = [] then (0, 0)
  else
    let n := ofDigits 10 ds
    (if 2 ^ 64 ≤ n then 2 ^ 64 - 1 else if t.head? = some 45 then (2 ^ 64 - n) % 2 ^ 64 else n,
      ws + sign + ds.length)

section Conditions

variable (lib : ParserLib)

/-- `configparser_remoteip_normalize_compat`. -/
def configparserRemoteipNormalizeCompat (rvalue : Bytes) : Option Bytes :=
  let b := if rvalue.head? ≠ some 91 then 91 :: rvalue ++ [93] else rvalue
  (httpRequestHostNormalize lib.toAddrLib b 0).map fun b =>
    if 1 < b.length then (b.drop 1).take (b.length - 2) else rvalue

/-- The value of a remote address condition. -/
def remoteipValue (rvalue : Bytes) : Option Bytes :=
  let normalize (s : Bytes) : Option Bytes :=
    match strchr rvalue 58 with
    | none => httpRequestHostNormalize lib.toAddrLib s 0
    | some _ => configparserRemoteipNormalizeCompat lib s
  match strchr rvalue 47 with
  | some 0 => some rvalue
  | some slash =>
    let bits := strtoul10 (rvalue.drop (slash + 1))
    if (rvalue.drop (slash + 1 + bits.2)).headD 0 ≠ 0 ∨ bits.1 = 0 ∨
        bits.1 > (if (strchr rvalue 58).isSome then 128 else 32) then none
    else (normalize (rvalue.take slash)).map fun s => s ++ 47 :: itostr bits.1
  | none => normalize rvalue

/-- `comp` as it is looked up in `comps`. -/
def compOf (c : TextCond) : Option CompKey :=
  match comps.find? fun e => e.2 = c.var ++ str "[\"" ++ c.tag ++ str "\"]" with
  | some e => some e.1
  | none => if c.var = str "REQUEST_HEADER" then some .httpRequestHeader else none

/-- The condition of a new block, `none` when it is refused. -/
def contextCond (c : TextCond) : Option BlockCond :=
  let compared := c.op = .eq ∨ c.op = .ne
  let block : Option (CompKey × Bytes × Bytes) :=
    match compOf c with
    | none => none
    | some .httpLanguage => some (.httpRequestHeader, str "Accept-Language", c.value)
    | some .httpUserAgent => some (.httpRequestHeader, str "User-Agent", c.value)
    | some .httpRemoteIp =>
      if compared then (remoteipValue lib c.value).map fun s => (.httpRemoteIp, c.tag, s)
      else some (.httpRemoteIp, c.tag, c.value)
    | some .serverSocket =>
      if c.value.head? ≠ some 58 ∧ ¬ (c.value.head? = some 91 ∧ c.value[1]? = some 93) then
        (httpRequestHostNormalize lib.toAddrLib c.value 0).map fun s => (.serverSocket, c.tag, s)
      else some (.serverSocket, c.tag, c.value)
    | some .httpHost =>
      if compared then
        (httpRequestHostNormalize lib.toAddrLib c.value 0).map fun s => (.httpHost, c.tag, s)
      else some (.httpHost, c.tag, c.value)
    | some comp => some (comp, c.tag, c.value)
  match block with
  | none => none
  | some (comp, tag, s) =>
    if compared ∨ lib.pcreCompiles s then some ⟨comp, tag, c.op.cond, s⟩ else none

end Conditions

/-! ## Blocks -/

/-- `data_config`. -/
structure ConfigBlock (V : Type) where
  key : Bytes
  comp : CompKey
  compTag : Bytes
  cond : ConfigCond
  string : Buffer
  contextNdx : ℕ
  parent : Option ℕ
  prev : Option ℕ
  next : Option ℕ
  children : List ℕ
  value : DataArray V

/-- `data_config_init`. -/
def dataConfigInit {V : Type} : ConfigBlock V where
  key := []
  comp := .unset
  compTag := []
  cond := .unset
  string := none
  contextNdx := 0
  parent := none
  prev := none
  next := none
  children := []
  value := arrayInit

/-- What a branch of `condlines` has for a condition: `otherwise` is that of an else block, and
`invalid` one that is refused for a new block. -/
inductive BranchCond
  | cond (c : BlockCond)
  | otherwise
  | invalid
  deriving DecidableEq, Repr

/-- Where something stands in the text: the blocks around it from the inside to the outside, each
with the earlier branches of its `condlines` from the last to the first. -/
abbrev Place := List (BranchCond × List BranchCond)

/-- The log of a run. -/
inductive ParseEvent
  /-- A block or setting that stands at `place` is put into the block `dc`. -/
  | stands (place : Place) (dc : ℕ)
  /-- An else block ends; `last` says that it is the last of `all_configs`. -/
  | elseEnd (last : Bool)
  deriving DecidableEq, Repr

/-- What a block has for a condition. -/
def ConfigBlock.own {V : Type} (b : ConfigBlock V) : BranchCond :=
  if b.cond = .elseBranch then .otherwise
  else .cond ⟨b.comp, b.compTag, b.cond, b.string.string⟩

/-- `config_t`, with the blocks by the order in which they were made and what happened so far. -/
structure ConfigCtx (V : Type) where
  heap : ℕ → ConfigBlock V
  next : ℕ
  allConfigs : DataArray ℕ
  current : ℕ
  configsStack : List ℕ
  log : List ParseEvent

namespace ConfigCtx

variable {V : Type}

/-- The block `ctx->current`. -/
def cur (ctx : ConfigCtx V) : ConfigBlock V := ctx.heap ctx.current

/-- The block `dc` changed. -/
def setBlock (ctx : ConfigCtx V) (dc : ℕ) (b : ConfigBlock V) : ConfigCtx V :=
  { ctx with heap := Function.update ctx.heap dc b }

def addLog (ctx : ConfigCtx V) (e : ParseEvent) : ConfigCtx V :=
  { ctx with log := e :: ctx.log }

end ConfigCtx

section Parser

variable {V : Type}

/-- The methods of `data_config`. -/
def configMethods : ElementMethods ℕ where
  reset e := { e with key := none }
  insertDup old _ := old.value
  init := 0

/-- The element of `all_configs` for a block. -/
def configElement (dc : ℕ) (key : Bytes) : DataUnset ℕ := ⟨.config, some key, false, dc⟩

/-- `config_read` up to the text; `vars` are the settings `var.PID` and `var.CWD`. -/
def configInit (vars : DataArray V) : ConfigCtx V where
  heap := Function.update (fun _ => dataConfigInit) 0
    { (dataConfigInit : ConfigBlock V) with key := str "global", value := vars }
  next := 1
  allConfigs := arrayInsertAt arrayInit (configElement 0 (str "global")) 0
  current := 0
  configsStack := []
  log := [.stands [] 0]

/-! ## The actions -/

/-- `configparser_push` of a block that is new: its place in `all_configs` and among the children
of the block around it. -/
def configparserInsert (ctx : ConfigCtx V) (dc : ConfigBlock V) : Option (ConfigCtx V) :=
  if (arrayGetElementKlen ctx.allConfigs dc.key).isSome then none
  else if ctx.allConfigs.used ≤ ctx.cur.contextNdx then none
  else
    (arrayInsertUniqueElement configMethods ctx.allConfigs (configElement ctx.next dc.key)).map
      fun all =>
        let ctx := ctx.setBlock ctx.next
          { dc with contextNdx := ctx.allConfigs.used, parent := some ctx.current }
        let ctx := ctx.setBlock ctx.current { ctx.cur with children := ctx.cur.children ++ [ctx.next] }
        { ctx with allConfigs := all, next := ctx.next + 1 }

/-- The rest of `configparser_push`. -/
def configparserEnter (ctx : ConfigCtx V) (dc : ℕ) : Option (ConfigCtx V) :=
  if ctx.configsStack ≠ [] ∧ ctx.cur.contextNdx = 0 then none
  else some { ctx with configsStack := ctx.current :: ctx.configsStack, current := dc }

/-- `configparser_pop`: the block that was open, and the context. -/
def configparserPop (ctx : ConfigCtx V) : Option (ℕ × ConfigCtx V) :=
  match ctx.configsStack with
  | [] => none
  | dc :: rest => some (ctx.current, { ctx with current := dc, configsStack := rest })

/-- The key of a condition in a block with the key `key`. -/
def condKey (key : Bytes) (c : TextCond) : Bytes :=
  key ++ str "/" ++ c.var ++ c.tag ++ c.op.text ++ c.value

/-- `context`: the block of the condition is open afterwards. -/
def parseContext (lib : ParserLib) (c : TextCond) (ctx : ConfigCtx V) : Option (ConfigCtx V) :=
  let key := condKey ctx.cur.key c
  match arrayGetElementKlen ctx.allConfigs key with
  | some e => configparserEnter ctx e.value
  | none =>
    match contextCond lib c with
    | none => none
    | some cond =>
      (configparserInsert ctx { dataConfigInit with
        key := key, comp := cond.comp, compTag := cond.compTag, cond := cond.cond,
        string := some cond.string }).bind fun ctx' => configparserEnter ctx' ctx.next

/-- The temporary key of an else block in a block with the key `key`. -/
def elseKey (key : Bytes) : Bytes := key ++ str "/" ++ str "else_tmp_token"

/-- `context_else`. -/
def parseContextElse (ctx : ConfigCtx V) : Option (ConfigCtx V) :=
  (configparserInsert ctx { dataConfigInit with key := elseKey ctx.cur.key, cond := .elseBranch }).bind
    fun ctx' => configparserEnter ctx' ctx.next

/-- `globalstart`. -/
def parseGlobalstart (ctx : ConfigCtx V) : Option (ConfigCtx V) :=
  match arrayGetElementKlen ctx.allConfigs (str "global") with
  | some e => configparserEnter ctx e.value
  | none => none

/-- What the two else actions check of the branch `b` before the branch `c`. -/
def elseReachable (ctx : ConfigCtx V) (b c : ℕ) : Bool :=
  (ctx.heap b).contextNdx < (ctx.heap c).contextNdx && (ctx.heap b).cond ≠ .elseBranch

/-- `C->prev = B; B->next = C`. -/
def linkBranches (ctx : ConfigCtx V) (b c : ℕ) : ConfigCtx V :=
  let ctx := ctx.setBlock c { ctx.heap c with prev := some b }
  ctx.setBlock b { ctx.heap b with next := some c }

/-- `condlines ::= condlines eols ELSE condline`. -/
def parseElseCondline (ctx : ConfigCtx V) (b c : ℕ) : Option (ConfigCtx V) :=
  if elseReachable ctx b c then some (linkBranches ctx b c) else none

/-- The first character of the opposite operator. -/
def oppositeChar : ConfigCond → Option UInt8
  | .ne | .regexNomatch => some 61
  | .eq | .regexMatch => some 33
  | _ => none

/-- The key `key` with the operator negated; `string` is what is compared. -/
def negatedKey (key : Bytes) (cond : ConfigCond) (string : Bytes) : Option Bytes :=
  if key.length < string.length + 2 then none
  else (oppositeChar cond).map fun ch => key.set (key.length - string.length - 2) ch

/-- `condlines ::= condlines eols ELSE cond_else`. -/
def parseElseCondElse (ctx : ConfigCtx V) (b c : ℕ) : Option (ConfigCtx V) :=
  if ¬ elseReachable ctx b c then none
  else
    match arrayExtractElementKlen ctx.allConfigs (ctx.heap c).key,
      negatedKey (ctx.heap b).key (ctx.heap b).cond (ctx.heap b).string.string with
    | some (some e, all), some key =>
      if e.value ≠ c then none
      else if (arrayGetElementKlen all key).isSome then none
      else
        (arrayInsertUniqueElement configMethods all (configElement c key)).map fun all' =>
          let last := (arrayGetIndex ctx.allConfigs (ctx.heap c).key).1 =
            some (ctx.allConfigs.used - 1)
          let ctx := ctx.setBlock c { ctx.heap c with key := key, comp := (ctx.heap b).comp }
          (linkBranches { ctx with allConfigs := all' } b c).addLog (.elseEnd last)
    | _, _ => none

/-- The methods of the settings; the value with `+=` is merged already. -/
def settingMethods [Inhabited V] : ElementMethods V where
  reset e := e
  insertDup old _ := old.value
  init := default

/-- `varline`. -/
def parseVarline [Inhabited V] (ctx : ConfigCtx V) (op : AssignOp) (key : Bytes) (value : V) :
    Option (ConfigCtx V) :=
  if (str "env.").isPrefixOf key then none
  else
    let entry : DataUnset V := ⟨.unset, some key, false, value⟩
    let vars := ctx.cur.value
    let vars' : Option (DataArray V) :=
      match op with
      | .assign =>
        if (arrayGetElementKlen vars key).isSome then none
        else arrayInsertUniqueElement settingMethods vars entry
      | .forceAssign => some (arrayReplace vars entry)
      | .append =>
        (arrayExtractElementKlen vars key).bind fun r =>
          arrayInsertUniqueElement settingMethods r.2 entry
    vars'.map fun vars => ctx.setBlock ctx.current { ctx.cur with value := vars }

/-- The condition of a branch of the text. -/
def branchCond (lib : ParserLib) (c : TextCond) : BranchCond :=
  match contextCond lib c with
  | some cond => .cond cond
  | none => .invalid

variable [Inhabited V] (lib : ParserLib)

mutual

/-- `metalines` that stand at `place`. -/
def parseMetalines (place : Place) : ConfigText V → ConfigCtx V → Option (ConfigCtx V)
  | .nil, ctx => some ctx
  | .varline op key value rest, ctx =>
    (parseVarline ctx op key value).bind fun ctx =>
      parseMetalines place rest (ctx.addLog (.stands place ctx.current))
  | .global body rest, ctx =>
    (parseGlobalstart ctx).bind fun ctx =>
      (parseMetalines [] body (ctx.addLog (.stands [] ctx.current))).bind fun ctx =>
        (configparserPop ctx).bind fun r => parseMetalines place rest r.2
  | .condlines c body more rest, ctx =>
    let inner := (branchCond lib c, []) :: place
    (parseContext lib c ctx).bind fun ctx =>
      (parseMetalines inner body (ctx.addLog (.stands inner ctx.current))).bind fun ctx =>
        (configparserPop ctx).bind fun r =>
          (parseElse place [branchCond lib c] more r.1 r.2).bind fun ctx =>
            parseMetalines place rest ctx

/-- The branches behind the branch `b`; `earlier` are the conditions so far, the last one first. -/
def parseElse (place : Place) (earlier : List BranchCond) :
    ElseText V → ℕ → ConfigCtx V → Option (ConfigCtx V)
  | .done, _, ctx => some ctx
  | .condline c body more, b, ctx =>
    let inner := (branchCond lib c, earlier) :: place
    (parseContext lib c ctx).bind fun ctx =>
      (parseMetalines inner body (ctx.addLog (.stands inner ctx.current))).bind fun ctx =>
        (configparserPop ctx).bind fun r =>
          (parseElseCondline r.2 b r.1).bind fun ctx =>
            parseElse place (branchCond lib c :: earlier) more r.1 ctx
  | .condElse body more, b, ctx =>
    let inner := (BranchCond.otherwise, earlier) :: place
    (parseContextElse ctx).bind fun ctx =>
      (parseMetalines inner body (ctx.addLog (.stands inner ctx.current))).bind fun ctx =>
        (configparserPop ctx).bind fun r =>
          (parseElseCondElse r.2 b r.1).bind fun ctx =>
            parseElse place (.otherwise :: earlier) more r.1 ctx

end

/-- A text from its beginning to its end; nothing is left on the stack then. -/
def configParse (vars : DataArray V) (text : ConfigText V) : Option (ConfigCtx V) :=
  (parseMetalines lib [] text (configInit vars)).filter fun ctx => ctx.configsStack = []

end Parser

end Lighttpd
