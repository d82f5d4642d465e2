import Lighttpd.Buffer
import Lighttpd.SockAddr
import Lighttpd.Lib.Strtol

/-!
# The host of a request

`http_request_host_policy` may check the syntax of a host (`request_check_hostname`) and
may bring it into one form (`http_request_host_normalize`). The check reads the labels
from the right, so it is a recursion over the reversed host.
-/

namespace Lighttpd

open CString

/-- `enum { DOMAINLABEL, TOPLABEL }`. -/
inductive HostStage
  | domainLabel
  | topLabel
  deriving DecidableEq, Repr

/-- The variables of the scan over the labels; `isIp` is `none` while it is not known. -/
structure HostScan where
  stage : HostStage
  labelLen : ℕ
  isIp : Option Bool
  level : ℕ
  deriving DecidableEq, Repr

/-- One turn of the scan, on `c`; `right` is the byte to its right, if it is not the last of
the host, and `isFirst` says that there is none to its left. -/
def hostScanStep (s : HostScan) (c : UInt8) (right : Option UInt8) (isFirst : Bool) :
    Option HostScan :=
  match s.stage with
  | .topLabel =>
    if c = 46 then
      match right with
      | some r =>
        if s.labelLen = 0 then none
        else if s.isIp = some false ∧ ¬ isAlnum r then none
        else
          let isIp :=
            if s.isIp = some false then some false
            else if ¬ isDigit r then some false
            else some true
          some ⟨.domainLabel, 0, isIp, s.level + 1⟩
      | none => if isFirst then none else some s
    else if isFirst then
      if ¬ isAlnum c then none else some { s with labelLen := s.labelLen + 1 }
    else if c ≠ 45 ∧ ¬ isAlnum c then none
    else
      let isIp := if s.isIp = none ∧ ¬ isDigit c then some false else s.isIp
      some { s with labelLen := s.labelLen + 1, isIp := isIp }
  | .domainLabel =>
    if s.isIp = some true then
      if c = 46 then
        if s.labelLen = 0 then none else some { s with labelLen := 0, level := s.level + 1 }
      else if ¬ isDigit c then none
      else some { s with labelLen := s.labelLen + 1 }
    else if c = 46 then
      if s.labelLen = 0 then none
      else if right = some 45 then none
      else some { s with labelLen := 0, level := s.level + 1 }
    else if isFirst then
      if ¬ isAlnum c then none else some { s with labelLen := s.labelLen + 1 }
    else if c ≠ 45 ∧ ¬ isAlnum c then none
    else some { s with labelLen := s.labelLen + 1 }

/-- The scan from the right over the reversed host. -/
def hostScan (s : HostScan) (right : Option UInt8) : Bytes → Option HostScan
  | [] => some s
  | c :: rest =>
    match hostScanStep s c right rest.isEmpty with
    | some s' => hostScan s' (some c) rest
    | none => none

/-- The loop over the address in brackets: what follows the closing one. -/
def bracketScan (colonCnt : ℕ) : Bytes → Option Bytes
  | [] => none
  | c :: rest =>
    if c = 93 then some rest
    else if c = 0 then none
    else if c = 58 then if colonCnt + 1 > 7 then none else bracketScan (colonCnt + 1) rest
    else if ¬ isXDigit c ∧ c ≠ 46 then none
    else bracketScan colonCnt rest

/-- `request_check_hostname`: whether it returns zero, and the buffer afterwards. -/
def requestCheckHostname (host : Bytes) : Bool × Bytes :=
  if host.head? = some 91 then
    match bracketScan 0 host.tail with
    | some (58 :: port) => ((cstr port).all isDigit, host)
    | some rest => (rest = [] || rest.head? = some 0, host)
    | none => (false, host)
  else
    let colon := memchr host 58
    let name := match colon with
      | some k => host.take k
      | none => host
    let port := match colon with
      | some k => host.drop k
      | none => []
    if ¬ (cstr port.tail).all isDigit then (false, host)
    else if name = [] then (false, host)
    else
      -- a dot at the end of the name is taken out of the buffer
      let name' := if name.getLast? = some 46 then name.dropLast else name
      let host' := name' ++ port
      if name' = [] then (false, host')
      else
        match hostScan ⟨.topLabel, 0, none, 0⟩ none name'.reverse with
        | none => (false, host')
        | some s => (¬ (s.isIp = some true ∧ s.level ≠ 3) ∧ s.labelLen ≠ 0, host')

/-- The port number in a host: zero when the string is empty. -/
def hostPort (s : Bytes) : Option ℤ :=
  if s.headD 0 = 0 then some 0
  else
    let r := strtol 0 s
    if 0 < r.1 ∧ r.1 ≤ 65535 ∧ (s.drop r.2).headD 0 = 0 then some r.1 else none

/-- `http_request_host_normalize` on a host that is not in brackets: the host and its port. -/
def hostNormalizeName (lib : AddrLib) (b : Bytes) : Option (Bytes × ℤ) :=
  match memchr b 58 with
  | some 0 => none
  | some colon => (hostPort (b.drop (colon + 1))).map fun port => (addr (b.take colon), port)
  | none => some (addr b, 0)
where
  /-- An IPv4 address in any notation becomes dotted. -/
  addr (p : Bytes) : Bytes :=
    if (p.head?.map isDigit).getD false then
      match lib.inetAton (cstr p) with
      | some a => lib.inetNtop4 a
      | none => p
    else p

/-- `http_request_host_normalize` on a host in brackets: the host and its port. -/
def hostNormalizeBracket (lib : AddrLib) (b : Bytes) : Option (Bytes × ℤ) :=
  let percent := (strchr b.tail 37).map (· + 1)
  let bracketPort : Option (ℕ × ℤ) :=
    if b.length ≤ 2 then none
    else if b.getLast? = some 93 then some (b.length - 1, 0)
    else
      match (memchr b.tail 93).map (· + 1) with
      | none => none
      | some bracket =>
        if b[bracket + 1]? ≠ some 58 ∨ bracket = 1 then none
        else (hostPort (b.drop (bracket + 2))).map fun port => (bracket, port)
  match bracketPort with
  | none => none
  | some (bracket, port) =>
    let stop := match percent with
      | some p => min p bracket
      | none => bracket
    match lib.inetPton6 (cstr ((b.take stop).drop 1)) with
    | none => none
    | some a =>
      let buf := lib.inetNtop6 a
      match percent with
      | some p =>
        if p > bracket then none
        else if buf.length + (bracket - p) ≥ 62 then none
        else some (91 :: buf ++ (b.take bracket).drop p ++ [93], port)
      | none => some (91 :: buf ++ [93], port)

/-- `http_request_host_normalize`. -/
def httpRequestHostNormalize (lib : AddrLib) (b : Bytes) (schemePort : ℤ) : Option Bytes :=
  let r := if b.head? ≠ some 91 then hostNormalizeName lib b else hostNormalizeBracket lib b
  r.map fun (host, port) =>
    if port ≠ 0 ∧ port ≠ schemePort then host ++ 58 :: itostr port.toNat else host

/-- `scheme_port`. -/
def schemePort (scheme : Buffer) : ℤ := if scheme = some (str "https") then 443 else 80

/-- `http_request_host_policy`: whether the host is accepted, and the buffer afterwards. -/
def httpRequestHostPolicy (lib : AddrLib) (hostStrict hostNormalize : Bool) (b : Bytes)
    (scheme : Buffer) : Bool × Bytes :=
  let checked := if hostStrict then requestCheckHostname b else (true, b)
  if ¬ checked.1 then checked
  else if hostNormalize then
    match httpRequestHostNormalize lib checked.2 (schemePort scheme) with
    | some b' => (true, b')
    | none => (false, checked.2)
  else checked

example : requestCheckHostname (str "www.example.org.:80") = (true, str "www.example.org:80") := by
  decide

end Lighttpd
