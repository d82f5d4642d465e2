import Lighttpd.CgiBuffers
import Lighttpd.Lib.Strtol
import Lighttpd.Request

/-!
# The environment of a CGI program

`http_cgi_headers` hands the variables of a request to `cgi_env_add` one by one, and
`cgi_create_usock_env` writes them into one string for the command server, each with a blank behind
it. A value may have blanks of its own: where one list of variables has such a blank with a key and
an equals sign behind it, and another list the beginning of a variable, both can give the same
string.
-/

namespace Lighttpd

open CString

/-! ## The variables of a request -/

/-- `http_cgi_opts`. -/
structure CgiOpts where
  authorizer : Bool
  breakScriptfilenameForPhp : Bool
  docroot : Buffer
  stripRequestUri : Buffer

/-- What `http_cgi_headers` reads of a request; `serverAddr` is the text of the address of the
socket, or of the connection when that is a wildcard, and `environment` is as
`srv->request_env` leaves it. Every buffer that is read without a check has been written. -/
structure CgiRequest where
  contentLength : ℤ
  query : Buffer
  origUri : Bytes
  uri : Bytes
  errorHandlerSavedStatus : ℤ
  uriPath : Bytes
  pathinfo : Buffer
  physicalBasedir : Bytes
  physicalPath : Bytes
  httpMethod : HttpMethod
  httpVersion : HttpVersion
  serverTag : Bytes
  scheme : Bytes
  serverPort : ℕ
  serverAddr : Bytes
  serverName : Buffer
  dstAddr : Bytes
  dstPort : ℕ
  headers : DataArray Buffer
  environment : DataArray Buffer

/-- `li_itostrn` of an `off_t`. -/
def offtostr (n : ℤ) : Bytes := if n < 0 then 45 :: itostr n.natAbs else itostr n.natAbs

/-- `get_http_method_name`. -/
def getHttpMethodName (method : HttpMethod) : Option Bytes :=
  (httpMethods.find? fun m => m.1 = method).map Prod.snd

/-- `get_http_version_name`. -/
def getHttpVersionName : HttpVersion → Option Bytes
  | .http11 => some (str "HTTP/1.1")
  | .http10 => some (str "HTTP/1.0")
  | .unset => none

/-- A byte of a name in `buffer_copy_string_encoded_cgi_varnames`. -/
def cgiVarnameByte (c : UInt8) : UInt8 :=
  if 97 ≤ c ||| 32 ∧ c ||| 32 ≤ 122 then c &&& 0xdf else if 48 ≤ c ∧ c ≤ 57 then c else 95

/-- `buffer_copy_string_encoded_cgi_varnames`. -/
def encodedCgiVarname (s : Bytes) (isHttpHeader : Bool) : Bytes :=
  (if isHttpHeader ∧ ¬ strcaseeq s (str "CONTENT-TYPE") then str "HTTP_" else []) ++
    s.map cgiVarnameByte

/-- The value of `REQUEST_URI`. -/
def requestUriVar (opts : CgiOpts) (con : CgiRequest) : Bytes :=
  if bufferStringIsEmpty opts.stripRequestUri then con.origUri
  else
    let strip := opts.stripRequestUri.string
    let len := if strip.getLast? = some 47 then strip.length - 1 else strip.length
    if len ≤ con.origUri.length ∧ con.origUri.take len = strip.take len ∧
        con.origUri[len]? = some 47 then con.origUri.drop len
    else con.origUri

/-- The part of the server name in front of the port. -/
def serverNameVar (con : CgiRequest) : Bytes :=
  if bufferStringIsEmpty con.serverName then con.serverAddr
  else
    let name := con.serverName.string
    if name.head? = some 91 then
      match strstr name (str "]:") with
      | some colon => name.take (colon + 1)
      | none => name
    else
      match strchr name 58 with
      | some colon => name.take colon
      | none => name

/-- The variables of the paths. -/
def pathVars (opts : CgiOpts) (con : CgiRequest) : List (Bytes × Bytes) :=
  (if opts.authorizer then [] else
    (str "SCRIPT_NAME", con.uriPath) ::
      if bufferStringIsEmpty con.pathinfo then [] else
        [(str "PATH_INFO", con.pathinfo.string),
          (str "PATH_TRANSLATED",
            (if bufferStringIsEmpty opts.docroot then con.physicalBasedir
              else opts.docroot.string) ++ con.pathinfo.string)]) ++
  if bufferStringIsEmpty opts.docroot then
    [(str "SCRIPT_FILENAME", if opts.breakScriptfilenameForPhp then
        con.physicalPath ++ con.pathinfo.string else con.physicalPath),
      (str "DOCUMENT_ROOT", con.physicalBasedir)]
  else
    [(str "SCRIPT_FILENAME", opts.docroot.string ++ con.uriPath),
      (str "DOCUMENT_ROOT", opts.docroot.string)]

/-- The variables of the request headers. -/
def headerVars (headers : DataArray Buffer) : List (Bytes × Bytes) :=
  headers.live.filterMap fun ds =>
    if bufferStringIsEmpty ds.value ∨ ds.key.isNone ∨ CaseEq ds.key.string (str "Proxy") then none
    else some (encodedCgiVarname ds.key.string true, ds.value.string)

/-- The variables that modules have set. -/
def environmentVars (environment : DataArray Buffer) : List (Bytes × Bytes) :=
  environment.live.filterMap fun ds =>
    if ds.value.isNone ∨ ds.key.isNone then none
    else some (encodedCgiVarname ds.key.string false, ds.value.string)

/-- `http_cgi_headers`, with the method and the version by their names. -/
def cgiVars (opts : CgiOpts) (con : CgiRequest) (method version : Bytes) : List (Bytes × Bytes) :=
  (if opts.authorizer then [] else [(str "CONTENT_LENGTH", offtostr con.contentLength)]) ++
  [(str "QUERY_STRING", con.query.string), (str "REQUEST_URI", requestUriVar opts con)] ++
  (if con.uri = con.origUri then [] else [(str "REDIRECT_URI", con.uri)]) ++
  (if con.errorHandlerSavedStatus = 0 then [(str "REDIRECT_STATUS", str "200")] else []) ++
  pathVars opts con ++
  [(str "REQUEST_METHOD", method), (str "SERVER_PROTOCOL", version),
    (str "SERVER_SOFTWARE", con.serverTag), (str "GATEWAY_INTERFACE", str "CGI/1.1"),
    (str "REQUEST_SCHEME", con.scheme)] ++
  (if CaseEq con.scheme (str "https") then [(str "HTTPS", str "on")] else []) ++
  [(str "SERVER_PORT", itostr con.serverPort), (str "SERVER_ADDR", con.serverAddr),
    (str "SERVER_NAME", serverNameVar con), (str "REMOTE_ADDR", con.dstAddr),
    (str "REMOTE_PORT", itostr con.dstPort)] ++
  headerVars con.headers ++ environmentVars con.environment

/-- `http_cgi_headers`: what it hands to the callback; `none` when an assertion fails. -/
def httpCgiHeaders (opts : CgiOpts) (con : CgiRequest) : Option (List (Bytes × Bytes)) :=
  match getHttpMethodName con.httpMethod, getHttpVersionName con.httpVersion with
  | some method, some version => some (cgiVars opts con method version)
  | _, _ => none

/-! ## The string -/

/-- `cgi_env_add`. -/
def cgiEnvAdd (env : List Bytes) (key val : Bytes) : List Bytes := env ++ [key ++ 61 :: val]

/-- The list that `cgi_env_add` builds. -/
def cgiEnv (vars : List (Bytes × Bytes)) : List Bytes :=
  vars.foldl (fun env v => cgiEnvAdd env v.1 v.2) []

/-- `snprintf(&mem[start], n, "%s ", s)`, as far as `mem` has the place. -/
def snprintfBlank (mem : Bytes) (start n : ℕ) (s : Bytes) : Bytes :=
  if n = 0 then mem
  else
    let text := (cstr s ++ [SP]).take (n - 1) ++ [0]
    mem.take start ++ text ++ mem.drop (start + text.length)

/-- The loop of `cgi_create_usock_env`. -/
def usockEnvLoop : Bytes → ℕ → List Bytes → Bytes
  | mem, _, [] => mem
  | mem, length, env :: envs =>
    usockEnvLoop (snprintfBlank mem length (sizeSub ENV_STRING length) env)
      ((length + ((cstr env).length + 1)) % 2 ^ 64) envs

/-- The string that `cgi_create_usock_env` leaves in `env_string`, which was set to zero. -/
def cgiCreateUsockEnv (envs : List Bytes) : Bytes :=
  cstr (usockEnvLoop (List.replicate ENV_STRING 0) 0 envs)

/-- A variable that `cgi_env_add` can take: a name without blank and equals sign, and a value
that is a C string. -/
structure EnvEntry where
  key : Bytes
  value : Bytes
  noEquals : (61 : UInt8) ∉ key
  noBlank : SP ∉ key
  noNul : (0 : UInt8) ∉ key ∧ (0 : UInt8) ∉ value

namespace EnvEntry

/-- The variable as an entry when it is one. -/
def ofBytes (key value : Bytes) : EnvEntry :=
  if h : (61 : UInt8) ∉ key ∧ SP ∉ key ∧ (0 : UInt8) ∉ key ∧ (0 : UInt8) ∉ value then
    ⟨key, value, h.1, h.2.1, h.2.2⟩
  else
    ⟨[], [], List.not_mem_nil, List.not_mem_nil, List.not_mem_nil, List.not_mem_nil⟩

/-- What `cgi_env_add` makes of a variable. -/
def text (e : EnvEntry) : Bytes := e.key ++ 61 :: e.value

theorem notMem_text (e : EnvEntry) : (0 : UInt8) ∉ e.text := by
  intro h
  rcases List.mem_append.mp h with h | h
  · exact e.noNul.1 h
  · rcases List.mem_cons.mp h with h | h
    · exact absurd h (by decide)
    · exact e.noNul.2 h

theorem eq_of_key_value {e e' : EnvEntry} (hkey : e.key = e'.key) (hvalue : e.value = e'.value) :
    e = e' := by
  cases e
  cases e'
  cases hkey
  cases hvalue
  rfl

/-- What is handed to `cgi_env_add`. -/
def var (e : EnvEntry) : Bytes × Bytes := (e.key, e.value)

end EnvEntry

/-- The length of the variables in the string. -/
def entriesLength (es : List EnvEntry) : ℕ := (es.map fun e => e.text.length + 1).sum

/-- The variables as they stand in the string. -/
def entriesText (es : List EnvEntry) : Bytes := es.flatMap fun e => e.text ++ [SP]

theorem cgiEnv_eq (es : List EnvEntry) : cgiEnv (es.map EnvEntry.var) = es.map EnvEntry.text := by
  have hfold : ∀ (es : List EnvEntry) (env : List Bytes),
      (es.map EnvEntry.var).foldl (fun env v => cgiEnvAdd env v.1 v.2) env =
        env ++ es.map EnvEntry.text := by
    intro es
    induction es with
    | nil => simp
    | cons e es ih =>
      intro env
      rw [List.map_cons, List.foldl_cons, ih, cgiEnvAdd, List.append_assoc]
      rfl
  exact hfold es []

theorem notMem_entriesText (es : List EnvEntry) : (0 : UInt8) ∉ entriesText es := by
  intro h
  obtain ⟨e, -, he⟩ := List.mem_flatMap.mp h
  rcases List.mem_append.mp he with h | h
  · exact e.notMem_text h
  · exact absurd (List.mem_singleton.mp h) (by decide)

/-- The array has what was written so far, and zeros behind it. -/
theorem snprintfBlank_replicate {pre s : Bytes} {k : ℕ} (hs : (0 : UInt8) ∉ s)
    (hk : s.length + 1 < k) :
    snprintfBlank (pre ++ List.replicate k 0) pre.length k s =
      (pre ++ (s ++ [SP])) ++ List.replicate (k - (s.length + 1)) 0 := by
  have htake : (cstr s ++ [SP]).take (k - 1) = s ++ [SP] := by
    rw [cstr_of_notMem hs]
    exact List.take_of_length_le (by simp; omega)
  have hdrop : (pre ++ List.replicate k (0 : UInt8)).drop (pre.length + (s ++ [SP] ++ [0]).length) =
      List.replicate (k - (s.length + 2)) 0 := by
    rw [← List.drop_drop, List.drop_left, List.drop_replicate]
    simp
  have hzero : List.replicate (k - (s.length + 1)) (0 : UInt8) =
      0 :: List.replicate (k - (s.length + 2)) 0 := by
    rw [← List.replicate_succ]
    congr 1
    omega
  rw [snprintfBlank, if_neg (by omega), htake]
  dsimp only
  rw [List.take_left, hdrop, hzero]
  simp

theorem usockEnvLoop_spec : ∀ (es : List EnvEntry) (pre : Bytes),
    pre.length + entriesLength es < ENV_STRING →
    usockEnvLoop (pre ++ List.replicate (ENV_STRING - pre.length) 0) pre.length
        (es.map EnvEntry.text) =
      (pre ++ entriesText es) ++ List.replicate (ENV_STRING - (pre.length + entriesLength es)) 0
  | [], pre, _ => by simp [usockEnvLoop, entriesText, entriesLength]
  | e :: es, pre, h => by
    have hlen : entriesLength (e :: es) = e.text.length + 1 + entriesLength es := by
      simp [entriesLength]
    have hsize : ENV_STRING < 2 ^ 64 := by decide
    have hpre : (pre ++ (e.text ++ [SP])).length = pre.length + (e.text.length + 1) := by simp
    rw [hlen] at h ⊢
    have ih := usockEnvLoop_spec es (pre ++ (e.text ++ [SP])) (by rw [hpre]; omega)
    rw [hpre] at ih
    rw [List.map_cons, usockEnvLoop, sizeSub_of_le (by omega) hsize,
      snprintfBlank_replicate e.notMem_text (by omega), cstr_of_notMem e.notMem_text,
      Nat.mod_eq_of_lt (by omega), Nat.sub_sub, ih]
    simp [entriesText, Nat.add_assoc]

variable {es : List EnvEntry} {con : CgiRequest} {vars : List (Bytes × Bytes)}

/-- Variables that fit are in the string one behind the other. -/
theorem cgiCreateUsockEnv_eq (h : entriesLength es < ENV_STRING) :
    cgiCreateUsockEnv (cgiEnv (es.map EnvEntry.var)) = entriesText es := by
  have hloop := usockEnvLoop_spec es [] (by simpa using h)
  simp only [List.nil_append, List.length_nil, Nat.sub_zero, Nat.zero_add] at hloop
  rw [cgiCreateUsockEnv, cgiEnv_eq, hloop, cstr_append_of_notMem (notMem_entriesText es)]
  have hzeros : ∀ k, cstr (List.replicate k (0 : UInt8)) = [] := by
    intro k
    cases k <;> simp [cstr, List.replicate_succ]
  rw [hzeros, List.append_nil]

/-! ## The names -/

/-- A name that `cgi_env_add` can take. -/
def VarName (key : Bytes) : Prop := (61 : UInt8) ∉ key ∧ SP ∉ key ∧ (0 : UInt8) ∉ key

instance : DecidablePred VarName := fun _ => inferInstanceAs (Decidable (_ ∧ _))

theorem cgiVarnameByte_ne (c : UInt8) :
    cgiVarnameByte c ≠ 61 ∧ cgiVarnameByte c ≠ SP ∧ cgiVarnameByte c ≠ 0 := by
  have hall : ∀ n < 256, cgiVarnameByte (UInt8.ofNat n) ≠ 61 ∧
      cgiVarnameByte (UInt8.ofNat n) ≠ SP ∧ cgiVarnameByte (UInt8.ofNat n) ≠ 0 := by
    decide +kernel
  have hc := hall c.toNat c.toNat_lt
  rwa [UInt8.ofNat_toNat] at hc

theorem varName_encoded (s : Bytes) (isHttpHeader : Bool) :
    VarName (encodedCgiVarname s isHttpHeader) := by
  have hbytes : ∀ c, c ∈ s.map cgiVarnameByte → c ≠ 61 ∧ c ≠ SP ∧ c ≠ 0 := by
    intro c hc
    obtain ⟨d, -, rfl⟩ := List.mem_map.mp hc
    exact cgiVarnameByte_ne d
  have hhttp : ∀ c ∈ str "HTTP_", c ≠ 61 ∧ c ≠ SP ∧ c ≠ 0 := by decide +kernel
  have hall : ∀ c ∈ encodedCgiVarname s isHttpHeader, c ≠ 61 ∧ c ≠ SP ∧ c ≠ 0 := by
    intro c hc
    unfold encodedCgiVarname at hc
    rcases List.mem_append.mp hc with hc | hc
    · split_ifs at hc
      · exact hhttp c hc
      · exact absurd hc List.not_mem_nil
    · exact hbytes c hc
  exact ⟨fun h => (hall _ h).1 rfl, fun h => (hall _ h).2.1 rfl, fun h => (hall _ h).2.2 rfl⟩

theorem varName_headerVars (headers : DataArray Buffer) :
    ∀ v ∈ headerVars headers, VarName v.1 := by
  intro v hv
  obtain ⟨ds, -, hds⟩ := List.mem_filterMap.mp hv
  split_ifs at hds
  cases hds
  exact varName_encoded _ _

theorem varName_environmentVars (environment : DataArray Buffer) :
    ∀ v ∈ environmentVars environment, VarName v.1 := by
  intro v hv
  obtain ⟨ds, -, hds⟩ := List.mem_filterMap.mp hv
  split_ifs at hds
  cases hds
  exact varName_encoded _ _

theorem varName_pathVars (opts : CgiOpts) (con : CgiRequest) :
    ∀ v ∈ pathVars opts con, VarName v.1 := by
  intro v hv
  have hname : ∀ w ∈ pathVars opts con, w.1 ∈ [str "SCRIPT_NAME", str "PATH_INFO",
      str "PATH_TRANSLATED", str "SCRIPT_FILENAME", str "DOCUMENT_ROOT"] := by
    intro w hw
    unfold pathVars at hw
    split_ifs at hw
    all_goals
      simp only [List.nil_append, List.cons_append, List.mem_cons, List.not_mem_nil, or_false] at hw
      rcases hw with rfl | rfl | rfl | rfl | rfl <;> simp
  have hall : ∀ k ∈ [str "SCRIPT_NAME", str "PATH_INFO", str "PATH_TRANSLATED",
      str "SCRIPT_FILENAME", str "DOCUMENT_ROOT"], VarName k := by
    decide
  exact hall _ (hname v hv)

theorem varName_httpCgiHeaders {opts : CgiOpts} (h : httpCgiHeaders opts con = some vars) :
    ∀ v ∈ vars, VarName v.1 := by
  unfold httpCgiHeaders at h
  split at h
  · cases h
    simp only [cgiVars, List.forall_mem_append]
    refine ⟨⟨⟨⟨⟨⟨⟨⟨⟨?_, ?_⟩, ?_⟩, ?_⟩, varName_pathVars opts con⟩, ?_⟩, ?_⟩, ?_⟩,
      varName_headerVars _⟩, varName_environmentVars _⟩
    all_goals
      try split_ifs
      all_goals
        simp only [List.forall_mem_cons, List.not_mem_nil, IsEmpty.forall_iff, implies_true]
        try decide
  · cases h

/-- The variables of a request whose values are C strings can be taken. -/
theorem exists_entries {opts : CgiOpts} (h : httpCgiHeaders opts con = some vars)
    (hnul : ∀ v ∈ vars, (0 : UInt8) ∉ v.2) : ∃ es : List EnvEntry, es.map EnvEntry.var = vars := by
  have hname := varName_httpCgiHeaders h
  clear h
  induction vars with
  | nil => exact ⟨[], rfl⟩
  | cons v vars ih =>
    obtain ⟨es, hes⟩ := ih (fun w hw => hnul w (List.mem_cons_of_mem v hw))
      fun w hw => hname w (List.mem_cons_of_mem v hw)
    obtain ⟨heq, hblank, hkey⟩ := hname v List.mem_cons_self
    exact ⟨⟨v.1, v.2, heq, hblank, hkey, hnul v List.mem_cons_self⟩ :: es, congrArg (v :: ·) hes⟩

/-! ## Values with blanks -/

/-- A value of `es` has a blank with `key=` of a variable of `es'` behind it, and this variable
begins at the same place of the string. -/
def Hides (es es' : List EnvEntry) : Prop :=
  ∃ a e b a' e' b' x y, es = a ++ e :: b ∧ es' = a' ++ e' :: b' ∧
    e.value = x ++ SP :: (e'.key ++ 61 :: y) ∧
    entriesLength a' = entriesLength a + (e.key.length + 1 + x.length + 1)

theorem entriesLength_append (a b : List EnvEntry) :
    entriesLength (a ++ b) = entriesLength a + entriesLength b := by
  simp [entriesLength]

theorem entriesLength_cons (e : EnvEntry) (es : List EnvEntry) :
    entriesLength (e :: es) = e.key.length + 1 + e.value.length + 1 + entriesLength es := by
  simp [entriesLength, EnvEntry.text]
  omega

theorem Hides.cons {es es' : List EnvEntry} (h : Hides es es') (e : EnvEntry) :
    Hides (e :: es) (e :: es') := by
  obtain ⟨a, f, b, a', f', b', x, y, rfl, rfl, hvalue, hlen⟩ := h
  refine ⟨e :: a, f, b, e :: a', f', b', x, y, rfl, rfl, hvalue, ?_⟩
  rw [entriesLength_cons, entriesLength_cons, hlen]
  omega

theorem not_hides_self (es : List EnvEntry) : ¬ Hides es es := by
  rintro ⟨a, e, b, a', e', b', x, y, rfl, hes, hvalue, hlen⟩
  have hlong := congrArg List.length hvalue
  simp only [List.length_append, List.length_cons] at hlong
  rcases List.append_eq_append_iff.mp hes with ⟨c, rfl, hb⟩ | ⟨c, rfl, hb⟩
  · cases c with
    | nil =>
      rw [List.append_nil] at hlen
      omega
    | cons f c =>
      obtain rfl : e = f := (List.cons.inj hb).1
      rw [entriesLength_append, entriesLength_cons] at hlen
      omega
  · rw [entriesLength_append] at hlen
    omega

theorem notMem_take_eq {c : UInt8} {a b s t : Bytes} (ha : c ∉ a) (hb : c ∉ b)
    (h : a ++ c :: s = b ++ c :: t) : a = b ∧ s = t := by
  rcases List.append_eq_append_iff.mp h with ⟨z, rfl, hz⟩ | ⟨z, rfl, hz⟩
  all_goals
    cases z with
    | nil => simpa [eq_comm] using hz
    | cons d z =>
      obtain ⟨rfl, -⟩ := List.cons.inj hz
      simp at ha hb

/-- The shorter one of two values that begin alike has a variable behind it. -/
theorem hides_of_longer {e e' : EnvEntry} {es' : List EnvEntry} (hkey : e.key = e'.key) {z : Bytes}
    (hvalue : e'.value = e.value ++ SP :: z) (htext : entriesText es = z ++ SP :: entriesText es') :
    Hides (e' :: es') (e :: es) := by
  cases es with
  | nil => simp [entriesText] at htext
  | cons f es =>
    have hf : f.key ++ 61 :: (f.value ++ SP :: entriesText es) = z ++ SP :: entriesText es' := by
      rw [← htext]
      simp [entriesText, EnvEntry.text]
    -- the blank behind `z` is not in the key
    obtain ⟨y, rfl⟩ : ∃ y, z = f.key ++ 61 :: y := by
      rcases List.append_eq_append_iff.mp hf with ⟨w, rfl, hw⟩ | ⟨w, hw, hw'⟩
      · cases w with
        | nil => cases hw
        | cons d w =>
          obtain ⟨rfl, -⟩ := List.cons.inj hw
          exact ⟨w, rfl⟩
      · cases w with
        | nil =>
          exact absurd (List.cons.inj hw').1 (by decide)
        | cons d w =>
          obtain ⟨rfl, -⟩ := List.cons.inj hw'
          exact absurd f.noBlank (by rw [hw]; simp)
    refine ⟨[], e', es', [e], f, es, e.value, y, rfl, rfl, hvalue, ?_⟩
    rw [entriesLength_cons, hkey]
    simp [entriesLength]

theorem eq_or_hides : ∀ (es es' : List EnvEntry), entriesText es = entriesText es' →
    es = es' ∨ Hides es es' ∨ Hides es' es
  | [], [], _ => .inl rfl
  | [], e' :: es', h => by simp [entriesText, EnvEntry.text] at h
  | e :: es, [], h => by simp [entriesText, EnvEntry.text] at h
  | e :: es, e' :: es', h => by
    have hcons : ∀ (f : EnvEntry) (fs : List EnvEntry), entriesText (f :: fs) =
        f.key ++ 61 :: (f.value ++ SP :: entriesText fs) := by
      intro f fs
      simp [entriesText, EnvEntry.text]
    rw [hcons, hcons] at h
    obtain ⟨hkey, hrest⟩ := notMem_take_eq e.noEquals e'.noEquals h
    rcases List.append_eq_append_iff.mp hrest with ⟨z, hvalue, htext⟩ | ⟨z, hvalue, htext⟩
    · cases z with
      | nil =>
        rw [List.append_nil] at hvalue
        rcases eq_or_hides es es' (List.cons.inj htext).2 with rfl | hh | hh
        · exact .inl (by rw [EnvEntry.eq_of_key_value hkey hvalue.symm])
        · exact .inr (.inl (by rw [EnvEntry.eq_of_key_value hkey hvalue.symm]; exact hh.cons e'))
        · exact .inr (.inr (by rw [EnvEntry.eq_of_key_value hkey hvalue.symm]; exact hh.cons e'))
      | cons d z =>
        obtain ⟨rfl, htail⟩ := List.cons.inj htext
        exact .inr (.inr (hides_of_longer hkey hvalue htail))
    · cases z with
      | nil =>
        rw [List.append_nil] at hvalue
        rcases eq_or_hides es es' (List.cons.inj htext).2.symm with rfl | hh | hh
        · exact .inl (by rw [EnvEntry.eq_of_key_value hkey hvalue])
        · exact .inr (.inl (by rw [EnvEntry.eq_of_key_value hkey hvalue]; exact hh.cons e'))
        · exact .inr (.inr (by rw [EnvEntry.eq_of_key_value hkey hvalue]; exact hh.cons e'))
      | cons d z =>
        obtain ⟨rfl, htail⟩ := List.cons.inj htext
        exact .inr (.inl (hides_of_longer hkey.symm hvalue htail))

/-- Two lists of variables that give the same string are the same exactly when no value of one of
them hides a variable of the other. -/
theorem cgiCreateUsockEnv_injective_iff {es es' : List EnvEntry}
    (hfit : entriesLength es < ENV_STRING) (hfit' : entriesLength es' < ENV_STRING)
    (hsame : cgiCreateUsockEnv (cgiEnv (es.map EnvEntry.var)) =
      cgiCreateUsockEnv (cgiEnv (es'.map EnvEntry.var))) :
    es = es' ↔ ¬ Hides es es' ∧ ¬ Hides es' es := by
  rw [cgiCreateUsockEnv_eq hfit, cgiCreateUsockEnv_eq hfit'] at hsame
  constructor
  · rintro rfl
    exact ⟨not_hides_self es, not_hides_self es⟩
  · rintro ⟨h, h'⟩
    rcases eq_or_hides es es' hsame with heq | hh | hh
    · exact heq
    · exact absurd hh h
    · exact absurd hh h'

/-- One variable `A` with the value `1 B=2`. -/
def oneVariable : List EnvEntry := [.ofBytes (str "A") (str "1 B=2")]

/-- Two variables `A` and `B`. -/
def twoVariables : List EnvEntry :=
  [.ofBytes (str "A") (str "1"), .ofBytes (str "B") (str "2")]

theorem hides_oneVariable : oneVariable = twoVariables ↔
    ¬ Hides oneVariable twoVariables ∧ ¬ Hides twoVariables oneVariable :=
  cgiCreateUsockEnv_injective_iff (by decide) (by decide) (by decide +kernel)

/-- A request for a script, with one header and what a module has set. -/
def scriptRequest (userAgent : Bytes) (environment : DataArray Buffer) : CgiRequest where
  contentLength := 0
  query := none
  origUri := str "/a"
  uri := str "/a"
  errorHandlerSavedStatus := 0
  uriPath := str "/a"
  pathinfo := none
  physicalBasedir := str "/srv"
  physicalPath := str "/srv/a"
  httpMethod := .get
  httpVersion := .http11
  serverTag := str "lighttpd"
  scheme := str "http"
  serverPort := 80
  serverAddr := str "10.0.0.1"
  serverName := some (str "a")
  dstAddr := str "10.0.0.2"
  dstPort := 1024
  headers := ⟨[some ⟨.string, some (str "User-Agent"), false, some userAgent⟩], [0], 1, 1⟩
  environment := environment

/-- The user that authentication has found. -/
def remoteUserEnvironment : DataArray Buffer :=
  ⟨[some ⟨.string, some (str "REMOTE_USER"), false, some (str "root")⟩], [0], 1, 1⟩

/-- A `User-Agent` of `x REMOTE_USER=root` looks like the user `root`. -/
theorem not_cgiCreateUsockEnv_injective :
    ¬ ∀ (opts : CgiOpts) (con con' : CgiRequest) (es es' : List EnvEntry),
      httpCgiHeaders opts con = some (es.map EnvEntry.var) →
      httpCgiHeaders opts con' = some (es'.map EnvEntry.var) →
      entriesLength es < ENV_STRING → entriesLength es' < ENV_STRING →
      cgiCreateUsockEnv (cgiEnv (es.map EnvEntry.var)) =
        cgiCreateUsockEnv (cgiEnv (es'.map EnvEntry.var)) → es = es' := by
  intro h
  have hlength : ∀ {vars : List (Bytes × Bytes)} {es : List EnvEntry}, es.map EnvEntry.var = vars →
      entriesLength es = (vars.map fun v => v.1.length + 1 + v.2.length + 1).sum := by
    rintro - es rfl
    induction es with
    | nil => rfl
    | cons e es ih =>
      rw [entriesLength_cons, ih]
      rfl
  let opts : CgiOpts := ⟨false, false, none, none⟩
  let con := scriptRequest (str "x REMOTE_USER=root") ⟨[], [], 0, 0⟩
  let con' := scriptRequest (str "x") remoteUserEnvironment
  have hvars : httpCgiHeaders opts con =
      some (cgiVars opts con (str "GET") (str "HTTP/1.1")) := rfl
  have hvars' : httpCgiHeaders opts con' =
      some (cgiVars opts con' (str "GET") (str "HTTP/1.1")) := rfl
  obtain ⟨es, hes⟩ := exists_entries hvars (by decide +kernel)
  obtain ⟨es', hes'⟩ := exists_entries hvars' (by decide +kernel)
  have hlen := hlength hes
  have hlen' := hlength hes'
  have heq := h opts con con' es es' (by rw [hes, hvars]) (by rw [hes', hvars'])
    (by rw [hlen]; decide +kernel) (by rw [hlen']; decide +kernel)
    (by rw [hes, hes']; decide +kernel)
  rw [heq, hes'] at hes
  exact absurd hes (by decide +kernel)

end Lighttpd
