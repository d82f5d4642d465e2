import Lighttpd.DataArray

/-!
# Parsing a Forwarded header

`mod_extforward_Forwarded` goes over the value of the header once and notes where its parameters are
in the table `offsets`: four entries for a parameter, one entry of -1 for a comma. Then it walks
back over the table to the address that no trusted proxy has vouched for, and goes over the
parameters around it. An entry outside of `offsets` or a place outside of the value is a fault here,
as is a loop that goes on.
-/

namespace Lighttpd

open CString

/-- An index outside of `offsets`, a place outside of the header value, or a loop with no end. -/
inductive ForwardedFault
  | index
  | offset
  | fuel
  deriving DecidableEq, Repr

/-- A run of the parser, unless it comes to a fault. -/
abbrev ForwardedRun (α : Type) := Except ForwardedFault α

/-- The entries of `offsets`. What is outside of the array, and what was there before the array was
filled, can be anything. -/
abbrev Offsets := ℤ → ℤ

/-- `s[i]`; there is a NUL behind the value. -/
def readByte (s : Bytes) (i : ℤ) : ForwardedRun UInt8 :=
  if 0 ≤ i ∧ i ≤ s.length then .ok (s.getD i.toNat 0) else .error .offset

/-- The `n` bytes of the value from `i` on. -/
def derived (s : Bytes) (i n : ℤ) : ForwardedRun Bytes :=
  if 0 ≤ i ∧ 0 ≤ n ∧ i + n ≤ s.length then .ok ((s.drop i.toNat).take n.toNat)
  else .error .offset

/-- `offsets[j]`, read. -/
def readOffset (offsets : Offsets) (j : ℤ) : ForwardedRun ℤ :=
  if 0 ≤ j ∧ j < 256 then .ok (offsets j) else .error .index

/-- `offsets[j]`, written. -/
def writeOffset (offsets : Offsets) (j v : ℤ) : ForwardedRun Offsets :=
  if 0 ≤ j ∧ j < 256 then .ok (Function.update offsets j v) else .error .index

/-- `find_end_quoted_string`. -/
def findEndQuotedString (s : Bytes) : ℕ → ℤ → ForwardedRun ℤ
  | 0, _ => .error .fuel
  | fuel + 1, i => do
    let c ← readByte s (i + 1)
    if c = 34 ∨ c = 0 then pure (i + 1)
    else if c = 92 then do
      let d ← readByte s (i + 2)
      if d = 0 then pure (i + 2) else findEndQuotedString s fuel (i + 2)
    else findEndQuotedString s fuel (i + 1)

/-- `find_next_semicolon_or_comma_or_eq`, and `find_next_semicolon_or_comma` without `eq`; none for
a return of -1. -/
def findNext (eq : Bool) (s : Bytes) : ℕ → ℤ → ForwardedRun (Option ℤ)
  | 0, _ => .error .fuel
  | fuel + 1, i => do
    let c ← readByte s i
    if (eq ∧ c = 61) ∨ c = 59 ∨ c = 44 ∨ c = 0 then pure (some i)
    else if c = 34 then do
      let i ← findEndQuotedString s (s.length + 1) i
      let d ← readByte s i
      if d = 0 then pure none else findNext eq s fuel (i + 1)
    else findNext eq s fuel (i + 1)

/-- The loop over blanks and tabs. -/
def skipForwardedBlanks (s : Bytes) : ℕ → ℤ → ForwardedRun ℤ
  | 0, _ => .error .fuel
  | fuel + 1, i => do
    let c ← readByte s i
    if c = SP ∨ c = HT then skipForwardedBlanks s fuel (i + 1) else pure i

/-- Where a parameter and its value are in the header value. -/
structure ForwardedParam where
  k : ℤ
  klen : ℤ
  v : ℤ
  vlen : ℤ
  deriving DecidableEq, Repr

/-- What one turn of the first loop comes to, and where it goes on. -/
inductive ForwardedScan
  | skip (i : ℤ)
  | comma (i : ℤ)
  | param (p : ForwardedParam) (i : ℤ)
  | stop
  | invalid
  deriving DecidableEq, Repr

/-- One turn of the first loop, up to the table. -/
def forwardedScan (s : Bytes) (i : ℤ) : ForwardedRun ForwardedScan := do
  let k ← skipForwardedBlanks s (s.length + 1) i
  let c ← readByte s k
  if c = 59 then pure (.skip (k + 1))
  else if c = 44 then pure (.comma (k + 1))
  else if c = 0 then pure .stop
  else
    match ← findNext true s (s.length + 1) k with
    | none => pure .invalid
    | some i => do
      let c ← readByte s i
      if c ≠ 61 then pure (.skip i)
      else
        match ← findNext false s (s.length + 1) (i + 1) with
        | none => pure .invalid
        | some e =>
          if i - k = 0 then pure (.skip e)
          else pure (.param ⟨k, i - k, i + 1, e - (i + 1)⟩ e)

/-- The four entries of a parameter. -/
def writeParam (offsets : Offsets) (j : ℤ) (p : ForwardedParam) : ForwardedRun Offsets := do
  let offsets ← writeOffset offsets (j + 1) p.k
  let offsets ← writeOffset offsets (j + 2) p.klen
  let offsets ← writeOffset offsets (j + 3) p.v
  writeOffset offsets (j + 4) p.vlen

/-- The first loop, with `j` and the table that it ends with; none if it rejects the header. -/
def forwardedFill (s : Bytes) : ℕ → ℤ → ℤ → Offsets → ForwardedRun (Option (ℤ × Offsets))
  | 0, _, _, _ => .error .fuel
  | fuel + 1, i, j, offsets =>
    if i < s.length then do
      match ← forwardedScan s i with
      | .skip i => forwardedFill s fuel i j offsets
      | .stop => pure (some (j, offsets))
      | .invalid => pure none
      | .comma i =>
        if 256 ≤ j then pure (some (j, offsets))
        else do
          let offsets ← writeOffset offsets (j + 1) (-1)
          forwardedFill s fuel i (j + 1) offsets
      | .param p i =>
        if 252 ≤ j then pure (some (j, offsets))
        else do
          let offsets ← writeParam offsets j p
          forwardedFill s fuel i (j + 4) offsets
    else pure (some (j, offsets))

/-! ## Walking back -/

/-- The parameter at the entry `j` is called `name`. -/
def keyIs (s : Bytes) (offsets : Offsets) (j : ℤ) (name : Bytes) : ForwardedRun Bool := do
  let klen ← readOffset offsets (j + 1)
  if klen = name.length then do
    let k ← readOffset offsets j
    let key ← derived s k name.length
    pure (bufferCaselessCompare key name = 0)
  else pure false

/-- The inner loop from the end of a parameter: the place of a `for`, or of the entry of a comma, or
-1. -/
def forwardedFindFor (s : Bytes) (offsets : Offsets) : ℕ → ℤ → ForwardedRun ℤ
  | 0, _ => .error .fuel
  | fuel + 1, j => do
    let j := j - 3
    let isFor ← keyIs s offsets j (str "for")
    if isFor then pure j
    else if j = 0 then pure (-1)
    else do
      let e ← readOffset offsets (j - 1)
      if e = -1 then pure (j - 1) else forwardedFindFor s offsets fuel (j - 1)

/-- The loop over the blanks at the end of a value that starts at `v` and ends at `vlen`. -/
def trimBlanks (s : Bytes) (v : ℤ) : ℕ → ℤ → ForwardedRun ℤ
  | 0, _ => .error .fuel
  | fuel + 1, vlen =>
    if v < vlen then do
      let c ← readByte s (vlen - 1)
      if c = SP ∨ c = HT then trimBlanks s v fuel (vlen - 1) else pure vlen
    else pure vlen

/-- `do { --vlen; } while (vlen > v && s[vlen] != ']')`. -/
def findBracket (s : Bytes) (v : ℤ) : ℕ → ℤ → ForwardedRun ℤ
  | 0, _ => .error .fuel
  | fuel + 1, vlen =>
    let vlen := vlen - 1
    if v < vlen then do
      let c ← readByte s vlen
      if c ≠ 93 then findBracket s v fuel vlen else pure vlen
    else pure vlen

/-- The loop to the colon in front of a port, up to `e`. -/
def findPort (s : Bytes) (e : ℤ) : ℕ → ℤ → ForwardedRun ℤ
  | 0, _ => .error .fuel
  | fuel + 1, vlen =>
    if vlen < e then do
      let c ← readByte s vlen
      if c ≠ 58 then findPort s e fuel (vlen + 1) else pure vlen
    else pure vlen

/-- `vlen > v+1 && s[v] == '"' && s[vlen-1] == '"'`. -/
def isQuoted (s : Bytes) (v vlen : ℤ) : ForwardedRun Bool :=
  if v + 1 < vlen then do
    let c ← readByte s v
    let d ← readByte s (vlen - 1)
    pure (decide (c = 34 ∧ d = 34))
  else pure false

/-- Where the address in the value of a `for` starts and ends; none if it is rejected. -/
def forwardedForAddr (s : Bytes) (v vlen : ℤ) : ForwardedRun (Option (ℤ × ℤ)) := do
  let vlen ← trimBlanks s v (s.length + 1) vlen
  let quoted ← isQuoted s v vlen
  if quoted then do
    let v := v + 1
    let vlen := vlen - 1
    let c ← readByte s v
    if c = 91 then do
      let v := v + 1
      let vlen ← findBracket s v (s.length + 1) vlen
      if v = vlen then pure none else pure (some (v, vlen))
    else if c ≠ 95 ∧ c ≠ 47 ∧ c ≠ 117 then do
      let vlen ← findPort s vlen (s.length + 1) v
      pure (some (v, vlen))
    else pure (some (v, vlen))
  else pure (some (v, vlen))

/-- `do { --j; } while (j > 0 && -1 != offsets[j])`. -/
def scanDown (offsets : Offsets) : ℕ → ℤ → ForwardedRun ℤ
  | 0, _ => .error .fuel
  | fuel + 1, j =>
    let j := j - 1
    if 0 < j then do
      let e ← readOffset offsets j
      if e ≠ -1 then scanDown offsets fuel j else pure j
    else pure j

/-- What `mod_extforward` knows from elsewhere: `is_proxy_trusted`, whether
`sock_addr_from_str_numeric` gives an address, what `http_request_host_policy` makes of a host,
given the scheme, if it does not reject it; and the options. -/
structure ExtforwardConf where
  isProxyTrusted : Bytes → Bool
  isNumericAddr : Bytes → Bool
  hostPolicy : Bytes → Bytes → Option Bytes
  forwardedHost : Bool
  forwardedRemoteUser : Bool
  checkProxy : Bool

/-- The address from `v` to `vlen`, if it is not empty. -/
def forwardedAddr (s : Bytes) (v vlen : ℤ) : ForwardedRun Bytes :=
  if v ≠ vlen then derived s v (vlen - v) else pure []

/-- An obfuscated address, as far as this module can tell. -/
def isObfuscated (addr : Bytes) : Bool :=
  addr.head? = some 95 || addr.head? = some 47 || addr = str "unknown"

/-- How the walk goes on behind a `for`: the header is rejected, `ofor` is found, or there is an
element in front that ends at `j`. -/
inductive ForwardedVisit
  | rejected
  | found (ofor : ℤ) (offsets : Offsets)
  | further (j ofor : ℤ) (offsets : Offsets)

/-- The `for` at the entry `j`. -/
def forwardedVisit (conf : ExtforwardConf) (s : Bytes) (j ofor : ℤ) (offsets : Offsets) :
    ForwardedRun ForwardedVisit := do
  let v ← readOffset offsets (j + 2)
  let n ← readOffset offsets (j + 3)
  match ← forwardedForAddr s v (v + n) with
  | none => pure .rejected
  | some (v, vlen) => do
    let offsets ← writeOffset offsets (j + 2) v
    let offsets ← writeOffset offsets (j + 3) (vlen - v)
    let addr ← forwardedAddr s v vlen
    let ofor := if v ≠ vlen ∧ ¬ isObfuscated addr then j else ofor
    if v ≠ vlen ∧ ¬ conf.isProxyTrusted addr then pure (.found ofor offsets)
    else do
      let j ← scanDown offsets 256 j
      pure (if j ≤ 0 then .found ofor offsets else .further (j - 1) ofor offsets)

/-- The loop that walks back over the table: `ofor` and the table; none if it rejects the header. -/
def forwardedWalk (conf : ExtforwardConf) (s : Bytes) :
    ℕ → ℤ → ℤ → Offsets → ForwardedRun (Option (ℤ × Offsets))
  | 0, _, _, _ => .error .fuel
  | fuel + 1, j, ofor, offsets =>
    if 0 < j then do
      let e ← readOffset offsets j
      if e = -1 then forwardedWalk conf s fuel (j - 1) ofor offsets
      else do
        let j ← forwardedFindFor s offsets 256 j
        if j < 0 then pure (some (ofor, offsets))
        else do
          let e ← readOffset offsets j
          if e = -1 then forwardedWalk conf s fuel (j - 1) ofor offsets
          else do
            match ← forwardedVisit conf s j ofor offsets with
            | .rejected => pure none
            | .found ofor offsets => pure (some (ofor, offsets))
            | .further j ofor offsets => forwardedWalk conf s fuel j ofor offsets
    else pure (some (ofor, offsets))

/-! ## What the header sets -/

/-- What the parser changes in a connection and its request. -/
structure ForwardedCon where
  dstAddrBuf : Bytes
  savedRemoteAddrBuf : Option Bytes
  uriScheme : Bytes
  httpHost : Bytes
  environment : Bytes → Option Bytes
  httpStatus : ℕ
  direct : Bool

/-- `HANDLER_GO_ON` or `HANDLER_FINISHED`. -/
inductive ForwardedHandled
  | goOn (con : ForwardedCon)
  | finished (con : ForwardedCon)

namespace ForwardedCon

/-- `array_set_key_value` on `con->environment`. -/
def setEnv (con : ForwardedCon) (key value : Bytes) : ForwardedCon :=
  { con with environment := Function.update con.environment key (some value) }

/-- The header is rejected with 400. -/
def reject (con : ForwardedCon) : ForwardedHandled :=
  .finished { con with httpStatus := 400, direct := true }

end ForwardedCon

/-- `mod_extforward_set_addr`; none if `addr` is no address. -/
def modExtforwardSetAddr (conf : ExtforwardConf) (con : ForwardedCon) (addr : Bytes) :
    Option ForwardedCon :=
  if conf.isNumericAddr addr then
    let con := { con with dstAddrBuf := con.savedRemoteAddrBuf.getD con.dstAddrBuf }
    let con := if conf.checkProxy then con.setEnv (str "_L_EXTFORWARD_ACTUAL_FOR") con.dstAddrBuf
      else con
    some { con with savedRemoteAddrBuf := some con.dstAddrBuf, dstAddrBuf := addr }
  else none

/-- `mod_extforward_set_proto`. -/
def modExtforwardSetProto (conf : ExtforwardConf) (con : ForwardedCon) (proto : Bytes) :
    ForwardedCon :=
  if proto ≠ [] ∧ bufferCaselessCompare con.uriScheme proto ≠ 0 then
    let con := if conf.checkProxy then con.setEnv (str "_L_EXTFORWARD_ACTUAL_PROTO") con.uriScheme
      else con
    if bufferCaselessCompare proto (str "https") = 0 then { con with uriScheme := str "https" }
    else if bufferCaselessCompare proto (str "http") = 0 then { con with uriScheme := str "http" }
    else con
  else con

/-- The bytes that the loop of `buffer_backslash_unescape` moves, and whether it ends well. -/
def backslashUnescaped : Bytes → Bytes × Bool
  | [] => ([], true)
  | b :: s =>
    if b = 92 then
      match s with
      | [] => ([], false)
      | d :: s => (d :: (backslashUnescaped s).1, (backslashUnescaped s).2)
    else (b :: (backslashUnescaped s).1, (backslashUnescaped s).2)

/-- `buffer_backslash_unescape`: what is in the buffer, and the return. -/
def bufferBackslashUnescape (b : Bytes) : Bytes × Bool :=
  let r := backslashUnescaped b
  (if r.2 then r.1 else r.1 ++ b.drop r.1.length, r.2)

/-- `oproto`, `ohost` and `oremote_user`. -/
structure ForwardedPlaces where
  proto : ℤ
  host : ℤ
  remoteUser : ℤ

/-- The loop over the parameters up to the next entry of -1, which is the place it ends at. -/
def forwardedParams (s : Bytes) (offsets : Offsets) :
    ℕ → ℤ → ForwardedPlaces → ForwardedRun (ℤ × ForwardedPlaces)
  | 0, _, _ => .error .fuel
  | fuel + 1, j, o => do
    let k ← readOffset offsets j
    if k = -1 then pure (j, o)
    else do
      let host ← keyIs s offsets j (str "host")
      let proto ← keyIs s offsets j (str "proto")
      let remoteUser ← keyIs s offsets j (str "remote_user")
      forwardedParams s offsets fuel (j + 4)
        ⟨if proto then j else o.proto, if host then j else o.host,
          if remoteUser then j else o.remoteUser⟩

/-- The loop to a parameter called `name` from `j` on: to the first one if `o` is -1 and `once`, and
else to the last. -/
def forwardedFindLater (once : Bool) (name s : Bytes) (offsets : Offsets) (used : ℤ) :
    ℕ → ℤ → ℤ → ForwardedRun ℤ
  | 0, _, _ => .error .fuel
  | fuel + 1, j, o =>
    if j < used ∧ (once → o = -1) then do
      let k ← readOffset offsets j
      if k = -1 then forwardedFindLater once name s offsets used fuel (j + 1) o
      else do
        let found ← keyIs s offsets j name
        forwardedFindLater once name s offsets used fuel (j + 4) (if found then j else o)
    else pure o

/-- The value of the parameter at `j` without blanks at its end and without quotation marks, and
whether there were any. -/
def forwardedValue (s : Bytes) (offsets : Offsets) (j : ℤ) : ForwardedRun (Bytes × Bool) := do
  let v ← readOffset offsets (j + 2)
  let n ← readOffset offsets (j + 3)
  let vlen ← trimBlanks s v (s.length + 1) (v + n)
  let quoted ← isQuoted s v vlen
  let value ← derived s (if quoted then v + 1 else v)
    (if quoted then vlen - 1 - (v + 1) else vlen - v)
  pure (value, quoted)

/-- The parameter `proto`. -/
def forwardedSetProto (conf : ExtforwardConf) (s : Bytes) (offsets : Offsets) (oproto : ℤ)
    (con : ForwardedCon) : ForwardedRun ForwardedCon :=
  if oproto = -1 then pure con
  else do
    let value ← forwardedValue s offsets oproto
    pure (modExtforwardSetProto conf con value.1)

/-- A value of `host`, and whether it was in quotation marks. -/
def forwardedTakeHost (conf : ExtforwardConf) (con : ForwardedCon) (value : Bytes × Bool) :
    ForwardedHandled :=
  let con := if conf.checkProxy ∧ con.httpHost ≠ [] then
    con.setEnv (str "_L_EXTFORWARD_ACTUAL_HOST") con.httpHost else con
  let unescaped := if value.2 then bufferBackslashUnescape value.1 else (value.1, true)
  let con := { con with httpHost := unescaped.1 }
  if unescaped.2 then
    match conf.hostPolicy con.httpHost con.uriScheme with
    | none => con.reject
    | some host => .goOn { con with httpHost := host }
  else con.reject

/-- The parameter `host`. -/
def forwardedSetHost (conf : ExtforwardConf) (s : Bytes) (offsets : Offsets) (ohost : ℤ)
    (con : ForwardedCon) : ForwardedRun ForwardedHandled :=
  if ohost = -1 then pure (.goOn con)
  else do
    let value ← forwardedValue s offsets ohost
    pure (forwardedTakeHost conf con value)

/-- The parameter `remote_user`. -/
def forwardedSetRemoteUser (s : Bytes) (offsets : Offsets) (oremoteUser : ℤ)
    (con : ForwardedCon) : ForwardedRun ForwardedHandled :=
  if oremoteUser = -1 then pure (.goOn con)
  else do
    let value ← forwardedValue s offsets oremoteUser
    let unescaped := if value.2 then bufferBackslashUnescape value.1 else (value.1, true)
    let con := con.setEnv (str "REMOTE_USER") unescaped.1
    pure (if unescaped.2 then .goOn con else con.reject)

/-- `if (j > 0) { do { --j; } while (j > 0 && -1 != offsets[j]); }`. -/
def scanToElement (offsets : Offsets) (j : ℤ) : ForwardedRun ℤ :=
  if 0 < j then scanDown offsets 256 j else pure j

/-- The first parameter of the element of the header that the entry `ofor` is in, or the second if
the first is the one at `ofor`. -/
def forwardedElement (offsets : Offsets) (ofor : ℤ) : ForwardedRun ℤ := do
  let j ← scanToElement offsets ofor
  let e ← readOffset offsets j
  let j := if e = -1 then j + 1 else j
  pure (if j = ofor then j + 4 else j)

/-- A parameter that the options do not ask for is not looked for. -/
def forwardedOption (enabled : Bool) (o : ForwardedRun ℤ) : ForwardedRun ℤ :=
  if enabled then o else pure (-1)

/-- The parameters around the `for` at `ofor`, in a table with `used` entries. -/
def forwardedAround (conf : ExtforwardConf) (s : Bytes) (offsets : Offsets) (used ofor : ℤ)
    (con : ForwardedCon) : ForwardedRun ForwardedHandled := do
  let j ← forwardedElement offsets ofor
  let r ← forwardedParams s offsets 256 j ⟨-1, -1, -1⟩
  let i := r.1 + 1
  let con ← forwardedSetProto conf s offsets r.2.proto con
  let ohost ← forwardedOption conf.forwardedHost
    (forwardedFindLater true (str "host") s offsets used 257 i r.2.host)
  match ← forwardedSetHost conf s offsets ohost con with
  | .finished con => pure (.finished con)
  | .goOn con => do
    let oremoteUser ← forwardedOption conf.forwardedRemoteUser
      (forwardedFindLater false (str "remote_user") s offsets used 257 i r.2.remoteUser)
    forwardedSetRemoteUser s offsets oremoteUser con

/-- `mod_extforward_Forwarded`, for the value `s` and an array with anything in it. -/
def modExtforwardForwarded (conf : ExtforwardConf) (s : Bytes) (offsets : Offsets)
    (con : ForwardedCon) : ForwardedRun ForwardedHandled := do
  match ← forwardedFill s (s.length + 1) 0 (-1) offsets with
  | none => pure con.reject
  | some (j, offsets) =>
    if 252 ≤ j then pure con.reject
    else if j = -1 then pure (.goOn con)
    else do
      let used := j + 1
      let offsets ← writeOffset offsets used (-1)
      match ← forwardedWalk conf s 256 j (-1) offsets with
      | none => pure con.reject
      | some (ofor, offsets) =>
        if ofor = -1 then pure (.goOn con)
        else do
          let v ← readOffset offsets (ofor + 2)
          let n ← readOffset offsets (ofor + 3)
          let addr ← derived s v n
          match modExtforwardSetAddr conf con addr with
          | none => pure (.goOn con)
          | some con => forwardedAround conf s offsets used ofor con

end Lighttpd
