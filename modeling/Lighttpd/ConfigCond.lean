import Mathlib.Data.Fintype.Basic
import Lighttpd.Buffer
import Lighttpd.SockAddr
import Lighttpd.Lib.Strtol

/-!
# Configuration conditions and their cache

A condition block (`data_config`) is nested in a parent block and may be an else branch
of a previous one. `config_check_cond` evaluates a block from its guards and its own
comparison and remembers the result per connection; `config_cond_cache_reset_item` drops
what depends on one comparison key.

Blocks are numbered by `context_ndx`. A `ConfigContext` says that parents and previous
branches come first, which the configuration parser asserts; a `ConfigTree` adds that the
links `next` and `children` are the inverses of `prev` and `parent`.

`cache_lock` is a counter. A thread that locks it while it holds it waits for ever;
`blocked` records that, and the rest says what would be computed without the lock.
-/

namespace Lighttpd

open CString

/-- `comp_key_t`. -/
inductive CompKey
  | unset
  | serverSocket
  | httpUrl
  | httpHost
  | httpReferer
  | httpUserAgent
  | httpLanguage
  | httpCookie
  | httpRemoteIp
  | httpQueryString
  | httpScheme
  | httpRequestMethod
  | httpRequestHeader
  deriving DecidableEq, Repr

/-- `config_cond_t`. -/
inductive ConfigCond
  | unset
  | eq
  | regexMatch
  | ne
  | regexNomatch
  | elseBranch
  deriving DecidableEq, Repr

/-- `cond_result_t`. -/
inductive CondResult
  | unset
  | skip
  | false
  | true
  deriving DecidableEq, Repr

/-- `data_config`, of `n` blocks. -/
structure DataConfig (n : ℕ) where
  comp : CompKey
  compTag : Bytes
  cond : ConfigCond
  string : Buffer
  parent : Option (Fin n)
  prev : Option (Fin n)
  next : Option (Fin n)
  children : List (Fin n)

/-- `srv->config_context`. -/
structure ConfigContext (n : ℕ) where
  data : Fin n → DataConfig n
  parent_lt : ∀ {i p}, (data i).parent = some p → p < i
  prev_lt : ∀ {i q}, (data i).prev = some q → q < i

/-- The block that `dc` is nested in; the global block does not count. -/
def ConfigContext.enclosing {n : ℕ} (t : ConfigContext n) (dc : Fin n) : Option (Fin n) :=
  (t.data dc).parent.filter (·.val ≠ 0)

theorem ConfigContext.enclosing_lt {n : ℕ} {t : ConfigContext n} {dc p : Fin n}
    (h : t.enclosing dc = some p) : p < dc :=
  t.parent_lt (Option.filter_eq_some_iff.mp h).1

/-- Condition blocks whose links agree. Only the global block has no comparison. -/
structure ConfigTree (n : ℕ) extends ConfigContext n where
  next_iff : ∀ {i j}, (data i).next = some j ↔ (data j).prev = some i
  prev_parent : ∀ {i q}, (data i).prev = some q → (data q).parent = (data i).parent
  children_iff : ∀ {i j}, j ∈ (data i).children ↔ (data j).parent = some i
  cond_ne_unset : ∀ {i : Fin n}, i.val ≠ 0 → (data i).cond ≠ .unset

/-! ## What conditions read -/

/-- The attributes of a connection that conditions compare, and `conditional_is_valid`. -/
structure ConAttrs where
  srvToken : Buffer
  serverPort : ℕ
  path : Buffer
  authority : Buffer
  dstAddr : SockAddr
  dstAddrBuf : Buffer
  query : Buffer
  scheme : Buffer
  httpMethod : Bytes
  headers : List (Bytes × Buffer)
  conditionalIsValid : CompKey → Bool

/-- The two connections agree on what is behind the comparison key. -/
def ConAttrs.SameAt (K : CompKey) (a b : ConAttrs) : Prop :=
  a.conditionalIsValid K = b.conditionalIsValid K ∧
    match K with
    | .serverSocket => a.srvToken = b.srvToken
    | .httpUrl => a.path = b.path
    | .httpHost => a.authority = b.authority ∧ a.serverPort = b.serverPort
    | .httpRemoteIp => a.dstAddr = b.dstAddr ∧ a.dstAddrBuf = b.dstAddrBuf
    | .httpQueryString => a.query = b.query
    | .httpScheme => a.scheme = b.scheme
    | .httpRequestMethod => a.httpMethod = b.httpMethod
    | .httpRequestHeader => a.headers = b.headers
    | _ => True

/-- What conditions use besides: `pcre_exec` on a pattern and a subject gives the return
code and the match vector. -/
structure CondEnv extends AddrLib where
  pcreExec : Bytes → Bytes → ℤ × List ℤ

/-- The buffer that `l` or `comp_value` points to. -/
inductive CondBuf
  | authority
  | condCheckBuf
  | emptyString
  | dstAddrBuf
  | scheme
  | path
  | query
  | srvToken
  | header (tag : Bytes)
  | tmpBuf
  deriving DecidableEq, Repr

/-- `cond_cache_t`. -/
structure CondCache where
  result : CondResult
  localResult : CondResult
  patterncount : ℤ
  matchOffsets : List ℤ
  compValue : Option CondBuf
  deriving DecidableEq, Repr

/-- An entry as `config_cond_cache_reset` leaves it. -/
def CondCache.cleared (c : CondCache) : CondCache :=
  { c with result := .unset, localResult := .unset, patterncount := 0, compValue := none }

section Compare

variable (env : CondEnv) (a : ConAttrs)

/-- `config_addrstr_eq_remote_ip_mask`. -/
def configAddrstrEqRemoteIpMask (addrstr : Bytes) (nmBits : ℤ) (rmt : SockAddr) : ℤ :=
  match env.inetAton addrstr, env.inetPton6 addrstr with
  | some addr, _ =>
    if nmBits > 32 then -1
    else if sockAddrIsAddrEqBits (.inet addr 0) rmt nmBits.toNat then 1 else 0
  | none, some addr =>
    if nmBits > 128 then -1
    else if sockAddrIsAddrEqBits (.inet6 addr 0) rmt nmBits.toNat then 1 else 0
  | none, none => -1

/-- `config_addrbuf_eq_remote_ip_mask`; `nmSlash` is the offset of the slash. -/
def configAddrbufEqRemoteIpMask (string : Bytes) (nmSlash : ℕ) (rmt : SockAddr) : ℤ :=
  let bits := strtol 10 (string.drop (nmSlash + 1))
  let nmBits := toInt32 bits.1
  if (string.drop (nmSlash + 1 + bits.2)).headD 0 ≠ 0 then -1
  else if nmBits ≤ 0 then -1
  else if 64 ≤ nmSlash then -1
  else configAddrstrEqRemoteIpMask env (string.take nmSlash) nmBits rmt

/-- What `dc` is compared with: a result that is already decided, or the buffer `l`. -/
inductive CondSubject
  | result (r : CondResult)
  | buffer (ref : CondBuf) (l : Buffer)

/-- The buffer that a host condition is compared with: the authority, with the port of
the server or without its own port when only one of the two sides has one. -/
def hostSubject (cond : ConfigCond) (string : Bytes) : CondSubject :=
  let authority := a.authority.string
  if bufferStringIsEmpty a.authority then .buffer .emptyString (some [])
  else if (cond = .eq ∨ cond = .ne) ∧ a.serverPort ≠ 0 then
    match strchr string 58, strchr authority 58 with
    | some _, none =>
      .buffer .condCheckBuf (some (authority ++ 58 :: itostr a.serverPort))
    | none, some valColon => .buffer .condCheckBuf (some (authority.take valColon))
    | _, _ => .buffer .authority a.authority
  else .buffer .authority a.authority

/-- What a remote address condition is compared with. -/
def remoteIpSubject (cond : ConfigCond) (string : Bytes) : CondSubject :=
  match strchr string 47 with
  | some nmSlash =>
    if cond = .eq ∨ cond = .ne then
      match configAddrbufEqRemoteIpMask env string nmSlash a.dstAddr with
      | 1 => .result (if cond = .eq then .true else .false)
      | 0 => .result (if cond = .eq then .false else .true)
      | _ => .result .false
    else .buffer .dstAddrBuf a.dstAddrBuf
  | none => .buffer .dstAddrBuf a.dstAddrBuf

/-- The switch over `dc->comp`. -/
def condSubject {n : ℕ} (dc : DataConfig n) : CondSubject :=
  match dc.comp with
  | .httpHost => hostSubject a dc.cond dc.string.string
  | .httpRemoteIp => remoteIpSubject env a dc.cond dc.string.string
  | .httpScheme => .buffer .scheme a.scheme
  | .httpUrl => .buffer .path a.path
  | .httpQueryString => .buffer .query a.query
  | .serverSocket => .buffer .srvToken a.srvToken
  | .httpRequestHeader =>
    match a.headers.find? fun h => CaseEq h.1 dc.compTag with
    | some h => .buffer (.header dc.compTag) h.2
    | none => .buffer .emptyString (some [])
  | .httpRequestMethod => .buffer .tmpBuf (some a.httpMethod)
  | _ => .result .false

/-- The switch over `dc->cond` on the buffer `l`, from the result so far. -/
def compareBuffer {n : ℕ} (dc : DataConfig n) (ref : CondBuf) (l : Buffer) (cache : CondCache)
    (result : CondResult) : CondCache × CondResult :=
  match dc.cond with
  | .eq => (cache, if bufferIsEqual l dc.string then .true else .false)
  | .ne => (cache, if bufferIsEqual l dc.string then .false else .true)
  | .regexMatch =>
    let m := env.pcreExec dc.string.string l.string
    let cache := { cache with patterncount := m.1, matchOffsets := m.2 }
    if m.1 > 0 then ({ cache with compValue := some ref }, .true) else (cache, .false)
  | .regexNomatch =>
    let m := env.pcreExec dc.string.string l.string
    let cache := { cache with patterncount := m.1, matchOffsets := m.2 }
    if m.1 > 0 then ({ cache with compValue := some ref }, .false) else (cache, .true)
  | _ => (cache, result)

/-- `config_check_cond_nocache` from the test of `conditional_is_valid` on. -/
def checkOwn {n : ℕ} (dc : DataConfig n) (cache : CondCache) (result : CondResult) :
    CondCache × CondResult :=
  if ¬ a.conditionalIsValid dc.comp then (cache, .unset)
  else if cache.localResult = .true ∨ cache.localResult = .false then (cache, cache.localResult)
  else if dc.cond = .elseBranch then (cache, .true)
  else
    match condSubject env a dc with
    | .result r => (cache, r)
    | .buffer ref l => compareBuffer env dc ref l cache result

end Compare

/-! ## Evaluation through the cache -/

/-- `cache_lock`. -/
structure CacheLock where
  held : ℕ
  blocked : Bool
  deriving DecidableEq, Repr

/-- `con->cond_cache` and the lock. -/
structure CondState (n : ℕ) where
  cache : Fin n → CondCache
  lock : CacheLock

section Check

variable {n : ℕ}

/-- `CONFCACHE_LOCK`. -/
def confcacheLock (s : CondState n) : CondState n :=
  { s with lock := ⟨s.lock.held + 1, s.lock.blocked || s.lock.held ≠ 0⟩ }

/-- `CONFCACHE_UNLOCK`. -/
def confcacheUnlock (s : CondState n) : CondState n :=
  { s with lock := { s.lock with held := s.lock.held - 1 } }

/-- The end of `config_check_cond_nocache`, once the guards are passed. -/
def finishCheck (env : CondEnv) (a : ConAttrs) (t : ConfigContext n) (s : CondState n)
    (dc : Fin n) (result : CondResult) : CondState n × CondResult :=
  let r := checkOwn env a (t.data dc) (s.cache dc) result
  (confcacheUnlock { s with cache := Function.update s.cache dc r.1 }, r.2)

/-- `config_check_cond_cached` stores a result and remembers it for a partial reset. -/
def storeResult (s : CondState n) (dc : Fin n) (result : CondResult) : CondState n :=
  let localResult :=
    if result = .true ∨ result = .false then result else (s.cache dc).localResult
  { s with
    cache := Function.update s.cache dc
      { s.cache dc with result := result, localResult := localResult } }

mutual

/-- `config_check_cond_cached`. -/
def configCheckCondCached (env : CondEnv) (a : ConAttrs) (t : ConfigContext n)
    (s : CondState n) (dc : Fin n) : CondState n × CondResult :=
  if (s.cache dc).result = .unset then
    let r := configCheckCondNocache env a t s dc
    (storeResult r.1 dc r.2, r.2)
  else (s, (s.cache dc).result)
termination_by (dc.val, 2)

/-- `config_check_cond_nocache`: a failed parent only sets `result`. -/
def configCheckCondNocache (env : CondEnv) (a : ConAttrs) (t : ConfigContext n)
    (s : CondState n) (dc : Fin n) : CondState n × CondResult :=
  match h : t.enclosing dc with
  | none => checkPrev env a t (confcacheLock s) dc .false
  | some p =>
    have : p.val < dc.val := ConfigContext.enclosing_lt h
    let r := configCheckCondCached env a t (confcacheLock s) p
    match r.2 with
    | .unset => (confcacheUnlock r.1, .unset)
    | .skip => checkPrev env a t r.1 dc .skip
    | .false => checkPrev env a t r.1 dc .skip
    | .true => checkPrev env a t r.1 dc .false
termination_by (dc.val, 1)

/-- `config_check_cond_nocache` from the test of `dc->prev` on. -/
def checkPrev (env : CondEnv) (a : ConAttrs) (t : ConfigContext n) (s : CondState n)
    (dc : Fin n) (result : CondResult) : CondState n × CondResult :=
  match h : (t.data dc).prev with
  | none => finishCheck env a t s dc result
  | some q =>
    have : q.val < dc.val := t.prev_lt h
    let r := configCheckCondCached env a t s q
    match r.2 with
    | .unset => (confcacheUnlock r.1, .unset)
    | .skip => (confcacheUnlock r.1, .skip)
    | .true => (confcacheUnlock r.1, .skip)
    | .false => finishCheck env a t r.1 dc result
termination_by (dc.val, 0)

end

/-- `config_check_cond`: the state afterwards and whether the condition is true. -/
def configCheckCond (env : CondEnv) (a : ConAttrs) (t : ConfigContext n) (s : CondState n)
    (dc : Fin n) : CondState n × Bool :=
  let r := configCheckCondCached env a t s dc
  (r.1, r.2 = .true)

/-- `config_cond_clear_node`. -/
def configCondClearNode (t : ConfigTree n) (c : Fin n → CondCache) (dc : Fin n) :
    Fin n → CondCache :=
  if (c dc).result ≠ .unset then
    let c := Function.update c dc { c dc with result := .unset }
    let c := (t.data dc).children.attach.foldl
      (fun c (dcChild : { x // x ∈ (t.data dc).children }) =>
        have : dc.val < dcChild.1.val := t.parent_lt (t.children_iff.mp dcChild.2)
        if (t.data dcChild.1).prev = none then configCondClearNode t c dcChild.1 else c) c
    match h : (t.data dc).next with
    | some next =>
      have : dc.val < next.val := t.prev_lt (t.next_iff.mp h)
      configCondClearNode t c next
    | none => c
  else c
termination_by n - dc.val

/-- One turn of the loop of `config_cond_cache_reset_item`. -/
def resetItemAt (t : ConfigTree n) (item : CompKey) (c : Fin n → CondCache) (i : Fin n) :
    Fin n → CondCache :=
  if item = (t.data i).comp then
    configCondClearNode t (Function.update c i { c i with localResult := .unset }) i
  else c

/-- `config_cond_cache_reset_item`. -/
def configCondCacheResetItem (t : ConfigTree n) (s : CondState n) (item : CompKey) :
    CondState n :=
  { s with cache := (List.finRange n).foldl (resetItemAt t item) s.cache }

/-- `config_cond_cache_reset` on the cache; it also makes every key invalid. -/
def configCondCacheReset (s : CondState n) : CondState n :=
  { s with cache := fun i => (s.cache i).cleared }

end Check

end Lighttpd
