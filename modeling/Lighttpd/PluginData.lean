import Lighttpd.Alias
import Lighttpd.Lib.SharedMemory

/-!
# Plugin data on worker threads

`mod_auth`, `mod_simple_vhost` and `mod_userdir` merge the settings of a request into `p->conf`, of
which there is one for all worker threads, and read them back while they handle the request;
`mod_userdir` and `mod_simple_vhost` also build names in buffers of the plugin, and
`mod_simple_vhost` keeps the last host it found in buffers of the configuration. The handlers of a
request are programs over this memory: a call of a `patch_connection` function, a read of a setting
and a read or write of a buffer are one step each.
-/

namespace Lighttpd

open CString SharedMemory

/-! ## The configuration -/

/-- `http_auth_scheme_t` by its name. -/
inductive AuthScheme
  | basic
  | digest
  | external
  deriving DecidableEq, Repr

/-- `data_auth`: the path, and the part of `http_auth_require_t` that the handler reads. -/
structure DataAuth where
  key : Bytes
  scheme : AuthScheme
  realm : Bytes
  validUser : Bool
  user : List Bytes
  deriving DecidableEq, Repr

/-- The settings of a block of the configuration for the three plugins, and the names of those that
the block sets. -/
structure PluginSettings where
  keys : List Bytes
  authBackend : Option Bytes
  authRequire : List DataAuth
  authExternAuthn : Bool
  userdirPath : Buffer
  excludeUser : List Bytes
  includeUser : List Bytes
  basepath : Buffer
  letterhomes : Bool
  active : Bool
  serverRoot : Buffer
  defaultHost : Buffer
  documentRoot : Buffer

/-- `config_storage`: the settings of the global block and of the blocks with a condition. -/
structure PluginConfig where
  globals : PluginSettings
  blocks : List PluginSettings

/-- `config_storage[i]`. -/
def PluginConfig.storage (cfg : PluginConfig) (i : ℕ) : PluginSettings :=
  (cfg.globals :: cfg.blocks).getD i cfg.globals

/-- The block whose value of a setting `patch_connection` takes: the last one of which the condition
matches and which sets it, else the global block. -/
def PluginConfig.patched (cfg : PluginConfig) (matched : ℕ → Bool) (name : Bytes) : ℕ :=
  (List.range cfg.blocks.length).foldl (fun k i =>
    if matched (i + 1) ∧ name ∈ (cfg.storage (i + 1)).keys then i + 1 else k) 0

/-- The length of the longest list of the configuration. -/
def PluginConfig.bound (cfg : PluginConfig) (get : PluginSettings → ℕ) : ℕ :=
  ((cfg.globals :: cfg.blocks).map get).foldr max 0

/-- The fields of `mod_auth`. -/
inductive AuthField
  | authBackend
  | authRequire
  | authExternAuthn
  deriving DecidableEq, Repr

/-- The fields of `mod_userdir`. -/
inductive UserdirField
  | path
  | excludeUser
  | includeUser
  | basepath
  | letterhomes
  | active
  | username
  | tempPath
  deriving DecidableEq, Repr

/-- The fields of `mod_simple_vhost`, and the buffers of the cache of each block. -/
inductive VhostField
  | serverRoot
  | defaultHost
  | documentRoot
  | cacheKey
  | cacheValue
  | cacheServername
  | docRoot
  | keyCell (i : ℕ)
  | valueCell (i : ℕ)
  | servernameCell (i : ℕ)
  deriving DecidableEq, Repr

/-- The fields that the worker threads share. -/
inductive PluginField
  | auth (f : AuthField)
  | userdir (f : UserdirField)
  | vhost (f : VhostField)
  deriving DecidableEq, Repr

/-- What a field holds. A setting is the number of the block that it was taken from, which is where
a pointer points; `auth_require` may be null. -/
@[reducible] def PluginVal : PluginField → Type
  | .auth .authRequire => Option ℕ
  | .auth _ => ℕ
  | .userdir .username => Bytes
  | .userdir .tempPath => Bytes
  | .userdir _ => ℕ
  | .vhost .docRoot => Bytes
  | .vhost (.keyCell _) => Bytes
  | .vhost (.valueCell _) => Bytes
  | .vhost (.servernameCell _) => Bytes
  | .vhost _ => ℕ

/-- What the handlers read of a request: which conditions of the configuration match, the paths, the
host, `force_lowercase_filenames`, `REMOTE_USER`, and which checks of `mod_auth` succeed. -/
structure WorkerRequest where
  matched : ℕ → Bool
  uriPath : Buffer
  relPath : Bytes
  authority : Buffer
  forceLowercase : Bool
  remoteUser : Option Bytes
  checks : DataAuth → Bytes → Bool

/-- The machine: the home directories that `getpwnam` finds, and the directories. -/
structure FileSystem where
  home : Bytes → Option Bytes
  isDir : Bytes → Bool

/-- The decision of `mod_auth_uri_handler`; `undefined` is reading behind an array. -/
inductive AuthDecision
  | goOn
  | check (require : DataAuth) (backend : Option Bytes)
  | undefined
  deriving DecidableEq, Repr

/-- What `mod_simple_vhost_docroot` sets: nothing, or the server name and the document root. -/
inductive VhostOutcome
  | unset
  | found (serverName docRoot : Bytes)
  | aborted
  deriving DecidableEq, Repr

/-- What `mod_userdir_docroot_handler` does: nothing, a redirect, or `physical.basedir` and
`physical.path`. -/
inductive UserdirOutcome
  | goOn
  | redirect
  | path (basedir path : Bytes)
  | undefined
  deriving DecidableEq, Repr

/-- `mod_auth_patch_connection`. -/
def modAuthPatchConnection (cfg : PluginConfig) (req : WorkerRequest) : Update PluginVal
  | .auth .authBackend => some (cfg.patched req.matched (str "auth.backend"))
  | .auth .authRequire => some (some (cfg.patched req.matched (str "auth.require")))
  | .auth .authExternAuthn => some (cfg.patched req.matched (str "auth.extern-authn"))
  | .userdir _ => none
  | .vhost _ => none

/-- `http_auth_match_rules` for a user. -/
def httpAuthMatchRules (require : DataAuth) (user : Bytes) : Bool :=
  require.validUser || require.user.contains (cstr user)

/-- The array behind a pointer to `auth_require`. -/
def PluginConfig.authArray (cfg : PluginConfig) (p : Option ℕ) : List DataAuth :=
  (p.map fun i => (cfg.storage i).authRequire).getD []

/-- The directive applies to the path of the request. -/
def authPrefix (req : WorkerRequest) (d : DataAuth) : Bool :=
  decide (d.key.length ≤ req.uriPath.string.length) &&
    strncmpEq req.forceLowercase req.uriPath.string d.key d.key.length

/-- The part of `mod_auth_uri_handler` behind a match. -/
def authMatched (cfg : PluginConfig) (req : WorkerRequest) (d : DataAuth) :
    Prog PluginVal AuthDecision :=
  .look (.auth .authExternAuthn) (fun i : ℕ => (cfg.storage i).authExternAuthn) fun externAuthn =>
    if externAuthn ∧ req.remoteUser.any (httpAuthMatchRules d) then .done .goOn
    else
      .look (.auth .authBackend) (fun i : ℕ => (cfg.storage i).authBackend) fun backend =>
        .done (.check d backend)

/-- The loop of `mod_auth_uri_handler` over `auth_require` from position `k` on; no array of the
configuration is longer than `k` plus the first argument. -/
def authLoop (cfg : PluginConfig) (req : WorkerRequest) : ℕ → ℕ → Prog PluginVal AuthDecision
  | 0, k =>
    .look (.auth .authRequire) (fun p : Option ℕ => decide (k < (cfg.authArray p).length))
      fun _ => .done .goOn
  | n + 1, k =>
    .look (.auth .authRequire) (fun p : Option ℕ => decide (k < (cfg.authArray p).length))
      fun more =>
        if more then
          .look (.auth .authRequire) (fun p : Option ℕ => (cfg.authArray p)[k]?) fun
            | none => .done .undefined
            | some d => if authPrefix req d then authMatched cfg req d else authLoop cfg req n (k + 1)
        else .done .goOn

/-- `mod_auth_uri_handler`. -/
def modAuthUriHandler (cfg : PluginConfig) (req : WorkerRequest) : Prog PluginVal AuthDecision :=
  .write (modAuthPatchConnection cfg req) <|
    .look (.auth .authRequire) (fun p : Option ℕ => p.isNone) fun null =>
      if null then .done .goOn
      else authLoop cfg req (cfg.bound fun s => s.authRequire.length) 0

/-! ## `mod_simple_vhost` -/

/-- `mod_simple_vhost_patch_connection`. -/
def modSimpleVhostPatchConnection (cfg : PluginConfig) (req : WorkerRequest) : Update PluginVal
  | .vhost .serverRoot => some (cfg.patched req.matched (str "simple-vhost.server-root"))
  | .vhost .cacheKey => some (cfg.patched req.matched (str "simple-vhost.server-root"))
  | .vhost .cacheValue => some (cfg.patched req.matched (str "simple-vhost.server-root"))
  | .vhost .cacheServername => some (cfg.patched req.matched (str "simple-vhost.server-root"))
  | .vhost .defaultHost => some (cfg.patched req.matched (str "simple-vhost.default-host"))
  | .vhost .documentRoot => some (cfg.patched req.matched (str "simple-vhost.document-root"))
  | .vhost .docRoot => none
  | .vhost (.keyCell _) => none
  | .vhost (.valueCell _) => none
  | .vhost (.servernameCell _) => none
  | .auth _ => none
  | .userdir _ => none

/-- The host without the port. -/
def hostWithoutPort (host : Bytes) : Bytes :=
  match strchr host 58 with
  | none => host
  | some i => host.take i

/-- A string is appended to `p->doc_root`. -/
def vhostAppend (s : Bytes) (next : Prog PluginVal VhostOutcome) : Prog PluginVal VhostOutcome :=
  .modify (.vhost .docRoot) (fun out : Bytes => out ++ s) next

/-- A slash is appended to `p->doc_root`. -/
def vhostAppendSlash (next : Prog PluginVal VhostOutcome) : Prog PluginVal VhostOutcome :=
  .modify (.vhost .docRoot) bufferAppendSlash next

/-- A look at `p->conf.document_root`. -/
def lookDocumentRoot {α : Type} (cfg : PluginConfig) (view : Bytes → α)
    (next : α → Prog PluginVal VhostOutcome) : Prog PluginVal VhostOutcome :=
  .look (.vhost .documentRoot) (fun i : ℕ => view (cfg.storage i).documentRoot.string) next

/-- The part of `build_doc_root` that appends `simple-vhost.document-root`. -/
def appendDocumentRoot (cfg : PluginConfig) (next : Prog PluginVal VhostOutcome) :
    Prog PluginVal VhostOutcome :=
  let whole := lookDocumentRoot cfg id fun s => vhostAppend s <| vhostAppendSlash next
  lookDocumentRoot cfg (fun s => decide (1 < s.length)) fun long =>
    if long then
      lookDocumentRoot cfg (fun s => decide (s.head? = some slashChar)) fun slash =>
        if slash then
          lookDocumentRoot cfg (fun s => s.drop 1) fun s =>
            lookDocumentRoot cfg (fun s => s.length - 1) fun len => vhostAppend (s.take len) next
        else whole
    else whole

/-- `build_doc_root` for a host: whether it returns zero. -/
def buildDocRoot (cfg : PluginConfig) (fs : FileSystem) (host : Bytes)
    (next : Bool → Prog PluginVal VhostOutcome) : Prog PluginVal VhostOutcome :=
  .look (.vhost .serverRoot) (fun i : ℕ => bufferStringIsEmpty (cfg.storage i).serverRoot)
    fun none =>
      if none then .done .aborted
      else
        .look (.vhost .serverRoot) (fun i : ℕ => (cfg.storage i).serverRoot.string) fun root =>
          .set (.vhost .docRoot) root <|
            (fun rest => if host = [] then rest
              else vhostAppendSlash <| vhostAppend (hostWithoutPort host) rest) <|
            vhostAppendSlash <| appendDocumentRoot cfg <|
              .look (.vhost .docRoot) (fun out : Bytes => fs.isDir out) next

/-- The part of `mod_simple_vhost_docroot` that falls back to the default host. -/
def vhostDefault (cfg : PluginConfig) (fs : FileSystem) : Prog PluginVal VhostOutcome :=
  .look (.vhost .defaultHost) (fun i : ℕ => (cfg.storage i).defaultHost.string) fun host =>
    buildDocRoot cfg fs host fun ok =>
      if ok then
        .look (.vhost .defaultHost) (fun i : ℕ => (cfg.storage i).defaultHost.string) fun name =>
          .look (.vhost .docRoot) id fun (out : Bytes) => .done (.found name out)
      else .done .unset

/-- The part of `mod_simple_vhost_docroot` that builds the document root. -/
def vhostBuild (cfg : PluginConfig) (fs : FileSystem) (req : WorkerRequest) :
    Prog PluginVal VhostOutcome :=
  let host := req.authority.string
  if bufferStringIsEmpty req.authority then vhostDefault cfg fs
  else
    buildDocRoot cfg fs host fun ok =>
      if ok then
        .look (.vhost .docRoot) id fun (docRoot : Bytes) =>
          .look (.vhost .cacheKey) id fun (i : ℕ) => .set (.vhost (.keyCell i)) host <|
            .look (.vhost .cacheValue) id fun (j : ℕ) =>
              .look (.vhost .docRoot) id fun (out : Bytes) => .set (.vhost (.valueCell j)) out <|
                .look (.vhost .cacheServername) id fun (k : ℕ) =>
                  .set (.vhost (.servernameCell k)) host <| .done (.found host docRoot)
      else vhostDefault cfg fs

/-- The part of `mod_simple_vhost_docroot` that takes the document root of the last host. -/
def vhostCached : Prog PluginVal VhostOutcome :=
  .look (.vhost .cacheServername) id fun (i : ℕ) =>
    .look (.vhost (.servernameCell i)) id fun (name : Bytes) =>
      .look (.vhost .cacheValue) id fun (j : ℕ) =>
        .look (.vhost (.valueCell j)) id fun (docRoot : Bytes) => .done (.found name docRoot)

/-- `mod_simple_vhost_docroot`. -/
def modSimpleVhostDocroot (cfg : PluginConfig) (fs : FileSystem) (req : WorkerRequest) :
    Prog PluginVal VhostOutcome :=
  .write (modSimpleVhostPatchConnection cfg req) <|
    .look (.vhost .serverRoot) (fun i : ℕ => bufferStringIsEmpty (cfg.storage i).serverRoot)
      fun none =>
        if none then .done .unset
        else
          .look (.vhost .cacheKey) id fun (i : ℕ) =>
            .look (.vhost (.keyCell i)) (fun key : Bytes => decide (key = [])) fun unused =>
              if unused ∨ bufferStringIsEmpty req.authority then vhostBuild cfg fs req
              else
                .look (.vhost .cacheKey) id fun (j : ℕ) =>
                  .look (.vhost (.keyCell j)) (fun key : Bytes => decide (key = req.authority.string))
                    fun hit => if hit then vhostCached else vhostBuild cfg fs req

/-! ## `mod_userdir` -/

/-- `mod_userdir_patch_connection`. -/
def modUserdirPatchConnection (cfg : PluginConfig) (req : WorkerRequest) : Update PluginVal
  | .userdir .path => some (cfg.patched req.matched (str "userdir.path"))
  | .userdir .excludeUser => some (cfg.patched req.matched (str "userdir.exclude-user"))
  | .userdir .includeUser => some (cfg.patched req.matched (str "userdir.include-user"))
  | .userdir .basepath => some (cfg.patched req.matched (str "userdir.basepath"))
  | .userdir .letterhomes => some (cfg.patched req.matched (str "userdir.letterhomes"))
  | .userdir .active => some (cfg.patched req.matched (str "userdir.active"))
  | .userdir .username => none
  | .userdir .tempPath => none
  | .auth _ => none
  | .vhost _ => none

/-- The comparison of the user with position `k` of a list: `found` when it is equal, `next` when
it is not. -/
def compareUser (user : Option Bytes) (found next : Prog PluginVal UserdirOutcome) :
    Prog PluginVal UserdirOutcome :=
  match user with
  | none => .done .undefined
  | some user =>
    .look (.userdir .username) (fun name : Bytes => decide (user = name)) fun same =>
      if same then found else next

/-- The loop of `mod_userdir_docroot_handler` over `exclude_user` from position `k` on. -/
def excludeLoop (cfg : PluginConfig) (rest : Prog PluginVal UserdirOutcome) :
    ℕ → ℕ → Prog PluginVal UserdirOutcome
  | 0, k =>
    .look (.userdir .excludeUser) (fun i : ℕ => decide (k < (cfg.storage i).excludeUser.length))
      fun _ => rest
  | n + 1, k =>
    .look (.userdir .excludeUser) (fun i : ℕ => decide (k < (cfg.storage i).excludeUser.length))
      fun more =>
        if more then
          .look (.userdir .excludeUser) (fun i : ℕ => (cfg.storage i).excludeUser[k]?) fun user =>
            compareUser user (.done .goOn) (excludeLoop cfg rest n (k + 1))
        else rest

/-- The loop of `mod_userdir_docroot_handler` over `include_user` from position `k` on. -/
def includeLoop (cfg : PluginConfig) (found : Prog PluginVal UserdirOutcome) :
    ℕ → ℕ → Prog PluginVal UserdirOutcome
  | 0, k =>
    .look (.userdir .includeUser) (fun i : ℕ => decide (k < (cfg.storage i).includeUser.length))
      fun _ => .done .goOn
  | n + 1, k =>
    .look (.userdir .includeUser) (fun i : ℕ => decide (k < (cfg.storage i).includeUser.length))
      fun more =>
        if more then
          .look (.userdir .includeUser) (fun i : ℕ => (cfg.storage i).includeUser[k]?) fun user =>
            compareUser user found (includeLoop cfg found n (k + 1))
        else .done .goOn

/-- The characters of a valid user name. -/
def usernameChar (c : UInt8) : Bool :=
  c = 45 || c = 95 || c = 46 || (97 ≤ c && c ≤ 122) || (65 ≤ c && c ≤ 90) || (48 ≤ c && c ≤ 57)

/-- `temp_path` is changed. -/
def tempPathModify (g : Bytes → Bytes) (next : Prog PluginVal UserdirOutcome) :
    Prog PluginVal UserdirOutcome :=
  .modify (.userdir .tempPath) g next

/-- A look at `p->conf.basepath`. -/
def lookBasepath {α : Type} (cfg : PluginConfig) (view : Buffer → α)
    (next : α → Prog PluginVal UserdirOutcome) : Prog PluginVal UserdirOutcome :=
  .look (.userdir .basepath) (fun i : ℕ => view (cfg.storage i).basepath) next

/-- The part of `mod_userdir_docroot_handler` behind the home directory in `temp_path`. -/
def userdirPaths (cfg : PluginConfig) (fs : FileSystem) (req : WorkerRequest) :
    Prog PluginVal UserdirOutcome :=
  let rest := req.relPath.drop 2
  let paths : Prog PluginVal UserdirOutcome :=
    .look (.userdir .tempPath) id fun (basedir : Bytes) =>
      tempPathModify bufferAppendSlash <|
        (fun next => match strchr rest slashChar with
          | some slash => tempPathModify (· ++ cstr (rest.drop (slash + 1))) next
          | none => next) <|
        .look (.userdir .tempPath) id fun (path : Bytes) =>
          .set (.userdir .tempPath) [] <| .done (.path basedir path)
  tempPathModify bufferAppendSlash <|
    .look (.userdir .path) (fun i : ℕ => (cfg.storage i).userdirPath.string) fun path =>
      tempPathModify (· ++ path) <|
        lookBasepath cfg bufferStringIsEmpty fun none =>
          if none then
            .look (.userdir .tempPath) (fun s : Bytes => fs.isDir s) fun dir =>
              if dir then paths else .done .goOn
          else paths

/-- The part of `mod_userdir_docroot_handler` that puts the home directory into `temp_path`. -/
def userdirHome (cfg : PluginConfig) (fs : FileSystem) (req : WorkerRequest)
    (pwdDir : Option Bytes) : Prog PluginVal UserdirOutcome :=
  let username : Prog PluginVal UserdirOutcome :=
    .look (.userdir .username) id fun (name : Bytes) =>
      tempPathModify (· ++ name) <| userdirPaths cfg fs req
  let build : Prog PluginVal UserdirOutcome :=
    lookBasepath cfg Buffer.string fun base =>
      .set (.userdir .tempPath) base <| tempPathModify bufferAppendSlash <|
        .look (.userdir .letterhomes) (fun i : ℕ => (cfg.storage i).letterhomes) fun letter =>
          if letter then
            .look (.userdir .username) (fun name : Bytes => name.take 1) fun c =>
              tempPathModify (· ++ c) <| tempPathModify bufferAppendSlash username
          else username
  lookBasepath cfg bufferStringIsEmpty fun none =>
    if none then
      match pwdDir with
      | .none => .done .undefined
      | some dir => .set (.userdir .tempPath) dir <| userdirPaths cfg fs req
    else
      .look (.userdir .username) (fun name : Bytes => (cstr name).all usernameChar) fun valid =>
        if valid then
          if req.forceLowercase then .modify (.userdir .username) bufferToLower build else build
        else .done .goOn

/-- The part of `mod_userdir_docroot_handler` that looks the user up in the lists. -/
def userdirLists (cfg : PluginConfig) (fs : FileSystem) (req : WorkerRequest)
    (pwdDir : Option Bytes) : Prog PluginVal UserdirOutcome :=
  excludeLoop cfg
    (.look (.userdir .includeUser) (fun i : ℕ => decide ((cfg.storage i).includeUser = []))
      fun none =>
        if none then userdirHome cfg fs req pwdDir
        else
          includeLoop cfg (userdirHome cfg fs req pwdDir)
            (cfg.bound fun s => s.includeUser.length) 0)
    (cfg.bound fun s => s.excludeUser.length) 0

/-- The part of `mod_userdir_docroot_handler` behind the checks of the settings. -/
def userdirUser (cfg : PluginConfig) (fs : FileSystem) (req : WorkerRequest) :
    Prog PluginVal UserdirOutcome :=
  let path := req.uriPath.string
  if path.head? ≠ some slashChar ∨ path[1]? ≠ some 126 then .done .goOn
  else
    match strchr (path.drop 2) slashChar with
    | none => .done .redirect
    | some 0 => .done .goOn
    | some (n + 1) =>
      .set (.userdir .username) ((path.drop 2).take (n + 1)) <|
        lookBasepath cfg bufferStringIsEmpty fun none =>
          if none then
            .look (.userdir .username) (fun name : Bytes => fs.home (cstr name)) fun
              | .none => .done .goOn
              | some dir => userdirLists cfg fs req (some dir)
          else userdirLists cfg fs req .none

/-- `mod_userdir_docroot_handler`. -/
def modUserdirDocrootHandler (cfg : PluginConfig) (fs : FileSystem) (req : WorkerRequest) :
    Prog PluginVal UserdirOutcome :=
  if req.uriPath.isNone then .done .goOn
  else
    .write (modUserdirPatchConnection cfg req) <|
      .look (.userdir .active) (fun i : ℕ => (cfg.storage i).active) fun active =>
        if active then
          .look (.userdir .path) (fun i : ℕ => (cfg.storage i).userdirPath.isNone) fun none =>
            if none then .done .goOn else userdirUser cfg fs req
        else .done .goOn

/-- What the three plugins do with a request. -/
structure PluginOutcome where
  auth : AuthDecision
  vhost : VhostOutcome
  userdir : UserdirOutcome
  deriving DecidableEq, Repr

/-- `http_response_prepare` goes on behind `mod_auth`. -/
def AuthDecision.passes (req : WorkerRequest) : AuthDecision → Bool
  | goOn => true
  | check require backend => backend.any fun b => req.checks require b
  | undefined => false

/-- The handlers of a request in the order of `http_response_prepare`. -/
def handleRequest (cfg : PluginConfig) (fs : FileSystem) (req : WorkerRequest) :
    Prog PluginVal PluginOutcome :=
  (modAuthUriHandler cfg req).bind fun auth =>
    if auth.passes req then
      (modSimpleVhostDocroot cfg fs req).bind fun vhost =>
        (modUserdirDocrootHandler cfg fs req).bind fun userdir => .done ⟨auth, vhost, userdir⟩
    else .done ⟨auth, .unset, .goOn⟩

section Workers

variable {ι : Type*}

/-- The worker threads at the beginning of their requests. -/
def workers (cfg : PluginConfig) (fs : FileSystem) (reqs : ι → WorkerRequest)
    (mem : Memory PluginVal) : Threads ι PluginVal PluginOutcome :=
  ⟨fun i => handleRequest cfg fs (reqs i), mem⟩

variable [DecidableEq ι]

/-- Every request that is done has come to what it comes to alone. -/
def Alone (cfg : PluginConfig) (fs : FileSystem) (reqs : ι → WorkerRequest)
    (mem : Memory PluginVal) (schedule : List ι) : Prop :=
  ∀ i r, ((workers cfg fs reqs mem).run schedule).progs i = .done r →
    r = (handleRequest cfg fs (reqs i)).eval mem

end Workers

/-- The settings of a block that sets nothing. -/
def noSettings : PluginSettings :=
  ⟨[], none, [], false, none, [], [], none, false, false, none, none, none⟩

/-- All paths need a user, but for the requests of which the condition of the block matches. -/
def openBlockConfig : PluginConfig :=
  { globals := { noSettings with
      authRequire := [⟨str "/", .basic, str "r", true, []⟩]
      authBackend := some (str "plain") }
    blocks := [{ noSettings with keys := [str "auth.require"] }] }

/-- A request for `/a`, of which the condition of the block matches or not. -/
def openBlockRequest (matched : Bool) : WorkerRequest :=
  ⟨fun _ => matched, some (str "/a"), str "/a", some (str "h"), false, none, fun _ _ => false⟩

/-- No directories and no home directories. -/
def noFiles : FileSystem := ⟨fun _ => none, fun _ => false⟩

/-- The memory after the start. -/
def freshMemory : Memory PluginVal
  | .auth .authRequire => (none : Option ℕ)
  | .auth .authBackend => (0 : ℕ)
  | .auth .authExternAuthn => (0 : ℕ)
  | .userdir .username => ([] : Bytes)
  | .userdir .tempPath => ([] : Bytes)
  | .userdir .path => (0 : ℕ)
  | .userdir .excludeUser => (0 : ℕ)
  | .userdir .includeUser => (0 : ℕ)
  | .userdir .basepath => (0 : ℕ)
  | .userdir .letterhomes => (0 : ℕ)
  | .userdir .active => (0 : ℕ)
  | .vhost .docRoot => ([] : Bytes)
  | .vhost (.keyCell _) => ([] : Bytes)
  | .vhost (.valueCell _) => ([] : Bytes)
  | .vhost (.servernameCell _) => ([] : Bytes)
  | .vhost .serverRoot => (0 : ℕ)
  | .vhost .defaultHost => (0 : ℕ)
  | .vhost .documentRoot => (0 : ℕ)
  | .vhost .cacheKey => (0 : ℕ)
  | .vhost .cacheValue => (0 : ℕ)
  | .vhost .cacheServername => (0 : ℕ)

end Lighttpd
