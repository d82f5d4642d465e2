import Mathlib.Data.List.DropRight
import Lighttpd.ForwardedTable

/-!
# What a Forwarded header means

Over the commas and parameters of the header, with no table: `forwardedTaken` is the `for` whose
address the connection takes, and `forwardedMeaning` what the parameters around it then set.
-/

namespace Lighttpd

open CString

/-! ## Parameters -/

/-- The parameter is called `name`. -/
def ForwardedParam.Named (s : Bytes) (p : ForwardedParam) (name : Bytes) : Prop :=
  p.klen = name.length ∧
    bufferCaselessCompare ((s.drop p.k.toNat).take name.length) name = 0

instance (s : Bytes) (p : ForwardedParam) (name : Bytes) : Decidable (p.Named s name) :=
  inferInstanceAs (Decidable (_ ∧ _))

/-- The parameter is a `for`. -/
abbrev ForwardedParam.IsFor (s : Bytes) (p : ForwardedParam) : Prop := p.Named s (str "for")

/-- The bytes of the value. -/
def ForwardedParam.text (s : Bytes) (p : ForwardedParam) : Bytes :=
  (s.drop p.v.toNat).take p.vlen.toNat

/-- A value without blanks at its end and without quotation marks, and whether there were any. -/
def unquotedValue (text : Bytes) : Bytes × Bool :=
  let t := text.rdropWhile fun c => c = SP ∨ c = HT
  if 1 < t.length ∧ t.head? = some 34 ∧ t.getLast? = some 34 then (t.tail.dropLast, true)
  else (t, false)

/-- The address in the value of a `for`; none if it is rejected. -/
def ForwardedParam.addr (s : Bytes) (p : ForwardedParam) : Option Bytes :=
  match forwardedForAddr s p.v (p.v + p.vlen) with
  | .ok (some (v, e)) => some ((s.drop v.toNat).take (e - v).toNat)
  | _ => none

/-- The parameter that the token is, if it is called `name`. -/
def ForwardedToken.named (s name : Bytes) : ForwardedToken → Option ForwardedParam
  | .sep => none
  | .param p => if p.Named s name then some p else none

/-- The parameters called `name`. -/
def namedParams (s name : Bytes) (ts : List ForwardedToken) : List ForwardedParam :=
  ts.filterMap (·.named s name)

section Named

variable {s name : Bytes} {p : ForwardedParam} {ts : List ForwardedToken}

@[simp] theorem namedParams_nil : namedParams s name [] = [] := rfl

@[simp] theorem namedParams_sep : namedParams s name (.sep :: ts) = namedParams s name ts := rfl

theorem namedParams_param_pos (h : p.Named s name) :
    namedParams s name (.param p :: ts) = p :: namedParams s name ts := by
  simp [namedParams, ForwardedToken.named, h]

theorem namedParams_param_neg (h : ¬ p.Named s name) :
    namedParams s name (.param p :: ts) = namedParams s name ts := by
  simp [namedParams, ForwardedToken.named, h]

theorem namedParams_append (a b : List ForwardedToken) :
    namedParams s name (a ++ b) = namedParams s name a ++ namedParams s name b :=
  List.filterMap_append

end Named

/-- A `for` of the header, with what is in front of it, the last token first. -/
structure ForwardedTaken where
  param : ForwardedParam
  front : List ForwardedToken

/-- The `for` that is taken, from the tokens with the last one first. `over` is set in the rest of
an element with a `for` that is passed over, and `o` is what has been found so far. None if the
header is rejected. -/
def forwardedTaken (conf : ExtforwardConf) (s : Bytes) :
    Bool → List ForwardedToken → Option ForwardedTaken → Option (Option ForwardedTaken)
  | _, [], o => some o
  | _, .sep :: ts, o => forwardedTaken conf s false ts o
  | true, .param _ :: ts, o => forwardedTaken conf s true ts o
  | false, .param p :: ts, o =>
    if p.IsFor s then
      match p.addr s with
      | none => none
      | some addr =>
        let o := if addr ≠ [] ∧ ¬ isObfuscated addr then some ⟨p, ts⟩ else o
        if addr ≠ [] ∧ ¬ conf.isProxyTrusted addr then some o else forwardedTaken conf s true ts o
    else forwardedTaken conf s false ts o

/-! ## What it sets -/

/-- Not a comma. -/
def ForwardedToken.inElement (t : ForwardedToken) : Bool := t ≠ .sep

/-- The tokens behind the `for`. -/
def ForwardedTaken.behind (t : ForwardedTaken) (ts : List ForwardedToken) : List ForwardedToken :=
  ts.drop (t.front.length + 1)

/-- The parameters between the commas around a `for`. -/
def elementTokens (front behind : List ForwardedToken) : List ForwardedToken :=
  (front.takeWhile (·.inElement)).reverse ++ behind.takeWhile (·.inElement)

/-- What is behind the element. -/
def laterTokens (behind : List ForwardedToken) : List ForwardedToken :=
  behind.dropWhile (·.inElement)

/-- The last `proto` of the element. -/
def protoParam (s : Bytes) (front behind : List ForwardedToken) : Option ForwardedParam :=
  (namedParams s (str "proto") (elementTokens front behind)).getLast?

/-- The last `host` of the element, and else the first one behind. -/
def hostParam (s : Bytes) (front behind : List ForwardedToken) : Option ForwardedParam :=
  (namedParams s (str "host") (elementTokens front behind)).getLast?.or
    (namedParams s (str "host") (laterTokens behind)).head?

/-- The last `remote_user` from the element on. -/
def remoteUserParam (s : Bytes) (front behind : List ForwardedToken) : Option ForwardedParam :=
  (namedParams s (str "remote_user") (laterTokens behind)).getLast?.or
    (namedParams s (str "remote_user") (elementTokens front behind)).getLast?

/-- The scheme, by the parameter `proto`. -/
def takeProto (conf : ExtforwardConf) (s : Bytes) (con : ForwardedCon)
    (p : Option ForwardedParam) : ForwardedCon :=
  match p with
  | none => con
  | some p => modExtforwardSetProto conf con (unquotedValue (p.text s)).1

/-- The host, by the parameter `host`. -/
def takeHost (conf : ExtforwardConf) (s : Bytes) (con : ForwardedCon)
    (p : Option ForwardedParam) : ForwardedHandled :=
  match p with
  | none => .goOn con
  | some p => forwardedTakeHost conf con (unquotedValue (p.text s))

/-- A value as a string: what stands between quotation marks is unescaped. -/
def decodedValue (text : Bytes) : Bytes × Bool :=
  let value := unquotedValue text
  if value.2 then bufferBackslashUnescape value.1 else (value.1, true)

/-- The user, by the parameter `remote_user`. -/
def takeRemoteUser (s : Bytes) (con : ForwardedCon) (p : Option ForwardedParam) :
    ForwardedHandled :=
  match p with
  | none => .goOn con
  | some p =>
    let con := con.setEnv (str "REMOTE_USER") (decodedValue (p.text s)).1
    if (decodedValue (p.text s)).2 then .goOn con else con.reject

/-- A parameter that the options do not ask for. -/
def optionParam (enabled : Bool) (p : Option ForwardedParam) : Option ForwardedParam :=
  if enabled then p else none

/-- What the parameters around a `for` set. -/
def aroundMeaning (conf : ExtforwardConf) (s : Bytes) (con : ForwardedCon)
    (front behind : List ForwardedToken) : ForwardedHandled :=
  let con := takeProto conf s con (protoParam s front behind)
  match takeHost conf s con (optionParam conf.forwardedHost (hostParam s front behind)) with
  | .finished con => .finished con
  | .goOn con =>
    takeRemoteUser s con (optionParam conf.forwardedRemoteUser (remoteUserParam s front behind))

/-- What the header sets with the `for` that is taken, if there is one. -/
def takenMeaning (conf : ExtforwardConf) (s : Bytes) (con : ForwardedCon)
    (ts : List ForwardedToken) : Option ForwardedTaken → ForwardedHandled
  | none => .goOn con
  | some t =>
    match (t.param.addr s).bind (modExtforwardSetAddr conf con) with
    | none => .goOn con
    | some con => aroundMeaning conf s con t.front (t.behind ts)

/-- What a header with the tokens `ts` sets. -/
def tokensMeaning (conf : ExtforwardConf) (s : Bytes) (con : ForwardedCon)
    (ts : List ForwardedToken) : ForwardedHandled :=
  match forwardedTaken conf s false ts.reverse none with
  | none => con.reject
  | some o => takenMeaning conf s con ts o

/-- What the header `s` sets. -/
def forwardedMeaning (conf : ExtforwardConf) (s : Bytes) (con : ForwardedCon) : ForwardedHandled :=
  match forwardedTokens s (s.length + 1) 0 with
  | .ok (ts, true) => if entries ts ≤ 252 then tokensMeaning conf s con ts else con.reject
  | _ => con.reject

end Lighttpd
