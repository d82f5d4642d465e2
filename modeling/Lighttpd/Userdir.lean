import Lighttpd.PluginData

/-!
# User directories below a base path

With `userdir.basepath` set, `mod_userdir_docroot_handler` puts the directory of a user together from
the base path, the first letter of the name, the name and `userdir.path`. The name comes from behind
the `~`, so that it is no `..` segment of the URL, and may have the characters `[-_a-zA-Z0-9.]` only.
The directory is below the base path, except for the names `.` and `..`, which the characters allow
(`userdirBelow_iff`).
-/

namespace Lighttpd

open CString SharedMemory PathSegments

/-! ## Requests for a user directory -/

/-- A URL `/~name/rest` without `..` segments. -/
structure UserdirUrl where
  name : Bytes
  rest : Bytes
  slash_notMem : slashChar ∉ name
  nul_notMem : 0 ∉ name ++ rest
  noDotDot : ¬ HasDotDot rest

/-- The path of the URL. -/
def UserdirUrl.path (url : UserdirUrl) : Bytes :=
  slashChar :: 126 :: (url.name ++ slashChar :: url.rest)

/-- What `force_lowercase_filenames` makes of a name. -/
def lowered (forceLowercase : Bool) (s : Bytes) : Bytes :=
  if forceLowercase then bufferToLower s else s

/-- The request with the URL, as `http_response_prepare` hands it on. -/
def userdirRequest (req : WorkerRequest) (url : UserdirUrl) : WorkerRequest :=
  { req with
    uriPath := some url.path
    relPath := lowered req.forceLowercase url.path }

/-- The settings that `mod_userdir_patch_connection` merges. -/
structure UserdirConf where
  path : Buffer
  excludeUser : List Bytes
  includeUser : List Bytes
  basepath : Buffer
  letterhomes : Bool
  active : Bool

/-- The settings of a request. -/
def userdirConf (cfg : PluginConfig) (req : WorkerRequest) : UserdirConf :=
  let setting (name : Bytes) := cfg.storage (cfg.patched req.matched name)
  { path := (setting (str "userdir.path")).userdirPath
    excludeUser := (setting (str "userdir.exclude-user")).excludeUser
    includeUser := (setting (str "userdir.include-user")).includeUser
    basepath := (setting (str "userdir.basepath")).basepath
    letterhomes := (setting (str "userdir.letterhomes")).letterhomes
    active := (setting (str "userdir.active")).active }

/-- The settings give the user a directory below the base path. -/
def UserdirConf.Serves (conf : UserdirConf) (name : Bytes) : Prop :=
  conf.active = true ∧ conf.path.isSome ∧ name ≠ [] ∧ name ∉ conf.excludeUser ∧
    (conf.includeUser = [] ∨ name ∈ conf.includeUser) ∧ name.all usernameChar = true

instance (conf : UserdirConf) : DecidablePred conf.Serves := fun _ =>
  inferInstanceAs (Decidable (_ ∧ _))

/-- The directory of a user. -/
def UserdirConf.directory (conf : UserdirConf) (user : Bytes) : Bytes :=
  bufferAppendSlash conf.basepath.string ++
    ((if conf.letterhomes then user.take 1 ++ [slashChar] else []) ++ user ++ slashChar ::
      conf.path.string)

/-- What is appended to the directory for a `physical.rel_path`. -/
def userdirRest (relPath : Bytes) : Bytes :=
  match strchr (relPath.drop 2) slashChar with
  | some slash => cstr ((relPath.drop 2).drop (slash + 1))
  | none => []

/-- The settings in the memory are those of the request. -/
structure UserdirConf.InMemory (conf : UserdirConf) (cfg : PluginConfig) (m : Memory PluginVal) :
    Prop where
  path : (cfg.storage (m (.userdir .path))).userdirPath = conf.path
  excludeUser : (cfg.storage (m (.userdir .excludeUser))).excludeUser = conf.excludeUser
  includeUser : (cfg.storage (m (.userdir .includeUser))).includeUser = conf.includeUser
  basepath : (cfg.storage (m (.userdir .basepath))).basepath = conf.basepath
  letterhomes : (cfg.storage (m (.userdir .letterhomes))).letterhomes = conf.letterhomes
  active : (cfg.storage (m (.userdir .active))).active = conf.active

theorem inMemory_userdirConf (cfg : PluginConfig) (req : WorkerRequest) (m : Memory PluginVal) :
    (userdirConf cfg req).InMemory cfg (m.apply (modUserdirPatchConnection cfg req)) :=
  ⟨rfl, rfl, rfl, rfl, rfl, rfl⟩

variable {forceLowercase : Bool} {s : Bytes}

section Handler

variable {conf : UserdirConf} {cfg : PluginConfig} {fs : FileSystem} {req : WorkerRequest}
  {m : Memory PluginVal}

theorem UserdirConf.InMemory.update (h : conf.InMemory cfg m) {f : UserdirField}
    (x : PluginVal (.userdir f)) (hf : f = .username ∨ f = .tempPath) :
    conf.InMemory cfg (Function.update m (.userdir f) x) := by
  have hother {g : UserdirField} (hg : g ≠ .username ∧ g ≠ .tempPath) :
      Function.update m (.userdir f) x (.userdir g) = m (.userdir g) :=
    Function.update_of_ne (by rcases hf with rfl | rfl <;> simp [hg]) _ _
  constructor
  · rw [hother (by decide), h.path]
  · rw [hother (by decide), h.excludeUser]
  · rw [hother (by decide), h.includeUser]
  · rw [hother (by decide), h.basepath]
  · rw [hother (by decide), h.letterhomes]
  · rw [hother (by decide), h.active]

variable {name : Bytes}

theorem eval_compareUser (hname : m (.userdir .username) = name) (user : Bytes)
    (found next : Prog PluginVal UserdirOutcome) : (compareUser (some user) found next).eval m =
      if name = user then found.eval m else next.eval m := by
  unfold compareUser
  rw [Prog.eval_look, hname]
  by_cases h : name = user
  · rw [if_pos (by simp [h]), if_pos h]
  · rw [if_neg (by simpa using Ne.symm h), if_neg h]

/-- The loop over `exclude_user` ends at the user. -/
theorem UserdirConf.InMemory.eval_excludeLoop (h : conf.InMemory cfg m)
    (hname : m (.userdir .username) = name) (rest : Prog PluginVal UserdirOutcome) :
    ∀ n k : ℕ, conf.excludeUser.length ≤ n + k → (excludeLoop cfg rest n k).eval m =
      if name ∈ conf.excludeUser.drop k then .goOn else rest.eval m
  | 0, k, hlen => by
    rw [List.drop_of_length_le (by omega), if_neg (by simp)]
    rfl
  | n + 1, k, hlen => by
    unfold excludeLoop
    rw [Prog.eval_look, h.excludeUser]
    by_cases hk : k < conf.excludeUser.length
    · rw [if_pos (by simpa using hk), Prog.eval_look, h.excludeUser, List.getElem?_eq_getElem hk,
        eval_compareUser hname, h.eval_excludeLoop hname rest n (k + 1) (by omega),
        List.drop_eq_getElem_cons hk]
      by_cases hu : name = conf.excludeUser[k]
      · rw [if_pos hu, if_pos (List.mem_cons.mpr (.inl hu)), Prog.eval_done]
      · simp only [hu, if_false, List.mem_cons, false_or]
    · rw [if_neg (by simpa using hk), List.drop_of_length_le (by omega), if_neg (by simp)]

/-- The loop over `include_user` goes on with the user. -/
theorem UserdirConf.InMemory.eval_includeLoop (h : conf.InMemory cfg m)
    (hname : m (.userdir .username) = name) (found : Prog PluginVal UserdirOutcome) :
    ∀ n k : ℕ, conf.includeUser.length ≤ n + k → (includeLoop cfg found n k).eval m =
      if name ∈ conf.includeUser.drop k then found.eval m else .goOn
  | 0, k, hlen => by
    rw [List.drop_of_length_le (by omega), if_neg (by simp)]
    rfl
  | n + 1, k, hlen => by
    unfold includeLoop
    rw [Prog.eval_look, h.includeUser]
    by_cases hk : k < conf.includeUser.length
    · rw [if_pos (by simpa using hk), Prog.eval_look, h.includeUser, List.getElem?_eq_getElem hk,
        eval_compareUser hname, h.eval_includeLoop hname found n (k + 1) (by omega),
        List.drop_eq_getElem_cons hk]
      by_cases hu : name = conf.includeUser[k]
      · rw [if_pos hu, if_pos (List.mem_cons.mpr (.inl hu))]
      · simp only [hu, if_false, List.mem_cons, false_or]
    · rw [if_neg (by simpa using hk), List.drop_of_length_le (by omega), if_neg (by simp)]
      rfl

theorem PluginConfig.le_bound (cfg : PluginConfig) (get : PluginSettings → ℕ) (i : ℕ) :
    get (cfg.storage i) ≤ cfg.bound get := by
  have hmem : cfg.storage i ∈ cfg.globals :: cfg.blocks := by
    unfold PluginConfig.storage
    rw [List.getD_eq_getElem?_getD]
    cases hi : (cfg.globals :: cfg.blocks)[i]? with
    | none => exact List.mem_cons_self
    | some s => exact List.mem_of_getElem? hi
  have hmax : ∀ l : List ℕ, ∀ n ∈ l, n ≤ l.foldr max 0 := by
    intro l
    induction l with
    | nil => simp
    | cons a l ih =>
      intro n hn
      rcases List.mem_cons.mp hn with rfl | hn
      · exact le_max_left _ _
      · exact (ih n hn).trans (le_max_right _ _)
  exact hmax _ _ (List.mem_map_of_mem hmem)

/-- The path behind the home directory in `temp_path`. -/
theorem UserdirConf.InMemory.eval_userdirPaths (h : conf.InMemory cfg m)
    (hbase : conf.basepath.string ≠ []) {home : Bytes} (hhome : m (.userdir .tempPath) = home) :
    (userdirPaths cfg fs req).eval m =
      .path (bufferAppendSlash home ++ conf.path.string)
        (bufferAppendSlash (bufferAppendSlash home ++ conf.path.string) ++
          userdirRest req.relPath) := by
  have hset (x : Bytes) := h.update (f := .tempPath) x (.inr rfl)
  have hempty : bufferStringIsEmpty conf.basepath = false := by simp [bufferStringIsEmpty, hbase]
  unfold userdirPaths userdirRest tempPathModify lookBasepath
  simp only [Prog.eval_modify, Prog.eval_look, hhome, (hset _).path, (hset _).basepath, hempty,
    Bool.false_eq_true, if_false, Function.update_self, Function.update_idem]
  cases strchr (req.relPath.drop 2) slashChar with
  | none =>
    simp
  | some slash =>
    simp

theorem lowered_ne_nil (h : s ≠ []) : lowered forceLowercase s ≠ [] := by
  unfold lowered bufferToLower
  split_ifs
  · simpa using h
  · exact h

theorem slash_mem_lowered_iff : slashChar ∈ lowered forceLowercase s ↔ slashChar ∈ s := by
  unfold lowered bufferToLower
  split_ifs
  · simp only [List.mem_map, (toLower_eq_iff _).1, exists_eq_right]
  · rfl

theorem bufferAppendSlash_of_notMem (hs : s ≠ []) (h : slashChar ∉ s) :
    bufferAppendSlash s = s ++ [slashChar] := by
  rw [bufferAppendSlash_of_ne_nil hs, if_neg fun hlast => h (List.mem_of_getLast? hlast)]

theorem UserdirConf.directory_eq (conf : UserdirConf) (hbase : conf.basepath.string ≠ [])
    {user : Bytes} (huser : user ≠ []) (hslash : slashChar ∉ user) : conf.directory user =
      bufferAppendSlash ((if conf.letterhomes then
        bufferAppendSlash (bufferAppendSlash conf.basepath.string ++ user.take 1)
        else bufferAppendSlash conf.basepath.string) ++ user) ++ conf.path.string := by
  have hlast := getLast?_bufferAppendSlash hbase
  have hletter : bufferAppendSlash (bufferAppendSlash conf.basepath.string ++ user.take 1) =
      bufferAppendSlash conf.basepath.string ++ (user.take 1 ++ [slashChar]) := by
    rw [bufferAppendSlash_append hlast, bufferAppendSlash_of_notMem (by simpa using huser)
      fun hmem => hslash (List.mem_of_mem_take hmem)]
  have hbehind {v : Bytes} (hv : v.getLast? = some slashChar) :
      bufferAppendSlash (v ++ user) = v ++ (user ++ [slashChar]) := by
    rw [bufferAppendSlash_append hv, bufferAppendSlash_of_notMem huser hslash]
  unfold directory
  cases conf.letterhomes with
  | false => simp [hbehind hlast]
  | true =>
    simp only [if_true, hletter]
    rw [hbehind (by simp)]
    simp

/-- The part of `mod_userdir_docroot_handler` that puts the directory together. -/
def userdirBuild (cfg : PluginConfig) (fs : FileSystem) (req : WorkerRequest) :
    Prog PluginVal UserdirOutcome :=
  let username : Prog PluginVal UserdirOutcome :=
    .look (.userdir .username) id fun (name : Bytes) =>
      tempPathModify (· ++ name) <| userdirPaths cfg fs req
  lookBasepath cfg Buffer.string fun base =>
    .set (.userdir .tempPath) base <| tempPathModify bufferAppendSlash <|
      .look (.userdir .letterhomes) (fun i : ℕ => (cfg.storage i).letterhomes) fun letter =>
        if letter then
          .look (.userdir .username) (fun name : Bytes => name.take 1) fun c =>
            tempPathModify (· ++ c) <| tempPathModify bufferAppendSlash username
        else username

theorem UserdirConf.InMemory.eval_userdirBuild (h : conf.InMemory cfg m)
    (hbase : conf.basepath.string ≠ []) {user : Bytes} (huser : m (.userdir .username) = user)
    (hnil : user ≠ []) (hslash : slashChar ∉ user) : (userdirBuild cfg fs req).eval m =
      .path (conf.directory user)
        (bufferAppendSlash (conf.directory user) ++ userdirRest req.relPath) := by
  have hset (x : Bytes) := h.update (f := .tempPath) x (.inr rfl)
  have hname (x : Bytes) : Function.update m (.userdir .tempPath) x (.userdir .username) = user :=
    (Function.update_of_ne (by simp) _ _).trans huser
  rw [conf.directory_eq hbase hnil hslash]
  unfold userdirBuild lookBasepath tempPathModify
  rw [Prog.eval_look, h.basepath, Prog.eval_set, Prog.eval_modify, Function.update_self,
    Function.update_idem, Prog.eval_look, (hset _).letterhomes]
  cases conf.letterhomes with
  | false =>
    simp only [Bool.false_eq_true, if_false]
    rw [Prog.eval_look, hname, Prog.eval_modify, Function.update_self, Function.update_idem,
      (hset _).eval_userdirPaths hbase (Function.update_self _ _ _), id]
  | true =>
    simp only [if_true]
    rw [Prog.eval_look, hname, Prog.eval_modify, Function.update_self, Function.update_idem,
      Prog.eval_modify, Function.update_self, Function.update_idem, Prog.eval_look, hname,
      Prog.eval_modify, Function.update_self, Function.update_idem,
      (hset _).eval_userdirPaths hbase (Function.update_self _ _ _), id]

/-- The home directory, for a user name in `username`. -/
theorem UserdirConf.InMemory.eval_userdirHome (h : conf.InMemory cfg m)
    (hbase : conf.basepath.string ≠ []) (hname : m (.userdir .username) = name) (hnil : name ≠ [])
    (hslash : slashChar ∉ name) (pwdDir : Option Bytes) :
    (userdirHome cfg fs req pwdDir).eval m =
      if (cstr name).all usernameChar then
        .path (conf.directory (lowered req.forceLowercase name))
          (bufferAppendSlash (conf.directory (lowered req.forceLowercase name)) ++
            userdirRest req.relPath)
      else .goOn := by
  have hempty : bufferStringIsEmpty conf.basepath = false := by simp [bufferStringIsEmpty, hbase]
  have hset := h.update (f := .username) (bufferToLower name) (.inl rfl)
  change (lookBasepath cfg bufferStringIsEmpty fun none =>
    if none then _ else .look (.userdir .username)
      (fun name : Bytes => (cstr name).all usernameChar) fun valid =>
        if valid then
          if req.forceLowercase then
            .modify (.userdir .username) bufferToLower (userdirBuild cfg fs req)
          else userdirBuild cfg fs req
        else .done .goOn).eval m = _
  unfold lookBasepath
  rw [Prog.eval_look, h.basepath, hempty, if_neg (by simp), Prog.eval_look, hname]
  split_ifs with hvalid hforce
  · have hlower : lowered true name ≠ [] := lowered_ne_nil hnil
    have hlowerSlash : slashChar ∉ lowered true name := mt slash_mem_lowered_iff.mp hslash
    rw [Prog.eval_modify, hname, hset.eval_userdirBuild hbase (Function.update_self _ _ _) hlower
      hlowerSlash, hforce]
    rfl
  · rw [h.eval_userdirBuild hbase hname hnil hslash, Bool.eq_false_iff.mpr hforce]
    rfl
  · rfl

theorem UserdirConf.InMemory.eval_userdirLists (h : conf.InMemory cfg m)
    (hname : m (.userdir .username) = name) (pwdDir : Option Bytes) :
    (userdirLists cfg fs req pwdDir).eval m =
      if name ∉ conf.excludeUser ∧ (conf.includeUser = [] ∨ name ∈ conf.includeUser) then
        (userdirHome cfg fs req pwdDir).eval m
      else .goOn := by
  have hexclude : conf.excludeUser.length ≤ (cfg.bound fun s => s.excludeUser.length) + 0 := by
    rw [← h.excludeUser]
    exact cfg.le_bound (fun s => s.excludeUser.length) _
  have hinclude : conf.includeUser.length ≤ (cfg.bound fun s => s.includeUser.length) + 0 := by
    rw [← h.includeUser]
    exact cfg.le_bound (fun s => s.includeUser.length) _
  unfold userdirLists
  rw [h.eval_excludeLoop hname _ _ _ hexclude, List.drop_zero]
  by_cases hex : name ∈ conf.excludeUser
  · rw [if_pos hex, if_neg fun hserve => hserve.1 hex]
  · rw [if_neg hex, Prog.eval_look, h.includeUser]
    by_cases hnil : conf.includeUser = []
    · rw [if_pos (by simpa using hnil), if_pos ⟨hex, .inl hnil⟩]
    · rw [if_neg (by simpa using hnil), h.eval_includeLoop hname _ _ _ hinclude, List.drop_zero]
      by_cases hin : name ∈ conf.includeUser
      · rw [if_pos hin, if_pos ⟨hex, .inr hin⟩]
      · rw [if_neg hin, if_neg fun hserve => hserve.2.elim hnil hin]

end Handler

theorem lowered_path (forceLowercase : Bool) (url : UserdirUrl) : lowered forceLowercase url.path =
    slashChar :: 126 :: (lowered forceLowercase url.name ++
      slashChar :: lowered forceLowercase url.rest) := by
  unfold lowered bufferToLower UserdirUrl.path
  split_ifs
  · simp only [List.map_cons, List.map_append]
    rfl
  · rfl

theorem nul_mem_lowered_iff : (0 : UInt8) ∈ lowered forceLowercase s ↔ (0 : UInt8) ∈ s := by
  unfold lowered bufferToLower
  split_ifs
  · simp only [List.mem_map, toLower_eq_zero_iff, exists_eq_right]
  · rfl

section Prepared

variable {conf : UserdirConf} {cfg : PluginConfig} {fs : FileSystem} {req : WorkerRequest}
  {m : Memory PluginVal}

theorem userdirRest_userdirRequest (req : WorkerRequest) (url : UserdirUrl) :
    userdirRest (userdirRequest req url).relPath = lowered req.forceLowercase url.rest := by
  have hnul : (0 : UInt8) ∉ lowered req.forceLowercase url.name := fun h0 =>
    url.nul_notMem (List.mem_append_left _ (nul_mem_lowered_iff.mp h0))
  have hnulrest : (0 : UInt8) ∉ lowered req.forceLowercase url.rest := fun h0 =>
    url.nul_notMem (List.mem_append_right _ (nul_mem_lowered_iff.mp h0))
  have hrel : (userdirRequest req url).relPath.drop 2 = lowered req.forceLowercase url.name ++
      slashChar :: lowered req.forceLowercase url.rest :=
    congrArg (List.drop 2) (lowered_path req.forceLowercase url)
  unfold userdirRest
  rw [hrel, strchr_append_cons (mt slash_mem_lowered_iff.mp url.slash_notMem) hnul (by decide)]
  simp only [List.drop_append, Nat.add_sub_cancel_left, List.drop_succ_cons, List.drop_zero,
    List.drop_of_length_le (Nat.le_succ _), List.nil_append]
  exact cstr_of_notMem hnulrest

theorem UserdirConf.InMemory.eval_userdirUser (h : conf.InMemory cfg m) (url : UserdirUrl)
    (hbase : conf.basepath.string ≠ []) (hname : url.name ≠ []) :
    (userdirUser cfg fs (userdirRequest req url)).eval m =
      if (url.name ∉ conf.excludeUser ∧ (conf.includeUser = [] ∨ url.name ∈ conf.includeUser)) ∧
          url.name.all usernameChar = true then
        .path (conf.directory (lowered req.forceLowercase url.name))
          (bufferAppendSlash (conf.directory (lowered req.forceLowercase url.name)) ++
            lowered req.forceLowercase url.rest)
      else .goOn := by
  have hnul : (0 : UInt8) ∉ url.name := fun h0 => url.nul_notMem (List.mem_append_left _ h0)
  have hempty : bufferStringIsEmpty conf.basepath = false := by simp [bufferStringIsEmpty, hbase]
  have hset := h.update (f := .username) url.name (.inl rfl)
  have huser : Function.update m (.userdir .username) url.name (.userdir .username) = url.name :=
    Function.update_self _ _ _
  obtain ⟨n, hn⟩ := Nat.exists_eq_succ_of_ne_zero (mt List.length_eq_zero_iff.mp hname)
  have hslash : strchr (url.path.drop 2) slashChar = some (n + 1) := by
    rw [← Nat.succ_eq_add_one, ← hn]
    exact strchr_append_cons url.slash_notMem hnul (by decide) _
  have htake : (url.path.drop 2).take (n + 1) = url.name := by
    rw [← Nat.succ_eq_add_one, ← hn]
    exact List.take_left
  have hpath : (userdirRequest req url).uriPath.string = url.path := rfl
  have hhead : ¬ (url.path.head? ≠ some slashChar ∨ url.path[1]? ≠ some 126) := by
    simp [UserdirUrl.path]
  unfold userdirUser lookBasepath
  simp only [hpath, if_neg hhead, hslash, htake]
  rw [Prog.eval_set, Prog.eval_look, hset.basepath, hempty, if_neg (by simp),
    hset.eval_userdirLists huser, hset.eval_userdirHome hbase huser hname url.slash_notMem,
    userdirRest_userdirRequest, cstr_of_notMem hnul]
  split_ifs with h1 h2 h3 h3 h3
  · rfl
  · exact absurd ⟨h1, h2⟩ h3
  · exact absurd h3.2 h2
  · rfl
  · exact absurd h3.1 h1
  · rfl

/-- `/~/` is an empty user name. -/
theorem eval_userdirUser_of_nil {url : UserdirUrl} (hname : url.name = []) :
    (userdirUser cfg fs (userdirRequest req url)).eval m = .goOn := by
  have hslash : strchr (url.path.drop 2) slashChar = some 0 := by
    have h := strchr_append_cons (u := []) (c := slashChar) (by simp) (by simp) (by decide) url.rest
    simpa [UserdirUrl.path, hname] using h
  have hpath : (userdirRequest req url).uriPath.string = url.path := rfl
  have hhead : ¬ (url.path.head? ≠ some slashChar ∨ url.path[1]? ≠ some 126) := by
    simp [UserdirUrl.path]
  unfold userdirUser
  simp only [hpath, if_neg hhead, hslash, Prog.eval_done]

theorem eval_modUserdirDocrootHandler (cfg : PluginConfig) (fs : FileSystem) (req : WorkerRequest)
    (url : UserdirUrl) (hbase : (userdirConf cfg req).basepath.string ≠ []) (m : Memory PluginVal) :
    (modUserdirDocrootHandler cfg fs (userdirRequest req url)).eval m =
      if (userdirConf cfg req).Serves url.name then
        .path ((userdirConf cfg req).directory (lowered req.forceLowercase url.name))
          (bufferAppendSlash
            ((userdirConf cfg req).directory (lowered req.forceLowercase url.name)) ++
              lowered req.forceLowercase url.rest)
      else .goOn := by
  have hmem := inMemory_userdirConf cfg (userdirRequest req url) m
  have hconf : userdirConf cfg (userdirRequest req url) = userdirConf cfg req := rfl
  rw [hconf] at hmem
  generalize userdirConf cfg req = conf at *
  unfold modUserdirDocrootHandler
  rw [if_neg (by simp [userdirRequest]), Prog.eval_write]
  generalize m.apply (modUserdirPatchConnection cfg (userdirRequest req url)) = m at *
  rw [Prog.eval_look, hmem.active]
  by_cases hactive : conf.active = true
  · rw [if_pos hactive, Prog.eval_look, hmem.path]
    by_cases hpath : conf.path.isNone = true
    · rw [if_pos hpath, if_neg fun h => Option.isSome_iff_ne_none.mp h.2.1
        (Option.isNone_iff_eq_none.mp hpath)]
      rfl
    · rw [if_neg hpath]
      have hsome : conf.path.isSome = true := Option.isSome_iff_ne_none.mpr fun h =>
        hpath (Option.isNone_iff_eq_none.mpr h)
      by_cases hname : url.name = []
      · rw [eval_userdirUser_of_nil hname, if_neg fun h => h.2.2.1 hname]
      · rw [hmem.eval_userdirUser url hbase hname]
        unfold UserdirConf.Serves
        simp only [hactive, hsome, ne_eq, hname, not_false_eq_true, true_and, and_assoc]
  · rw [if_neg hactive, if_neg fun h => hactive h.1]
    rfl

end Prepared

/-! ## Below the base path -/

/-- The path is that of the base path and a slash, with segments behind it of which those of
`userdir.path` alone may be `..`, and the one of the user is neither `.` nor `..`. -/
def UserdirBelow (conf : UserdirConf) (path : Bytes) : Prop :=
  ∃ below, path = bufferAppendSlash conf.basepath.string ++ below ∧
    (below.splitOn slashChar).count (str "..") ≤
      (conf.path.string.splitOn slashChar).count (str "..") ∧
    ∃ user, (below.splitOn slashChar)[if conf.letterhomes then 1 else 0]? = some user ∧
      user ≠ str "." ∧ user ≠ str ".."

/-- The segments of the path of a user. -/
def UserdirConf.segments (conf : UserdirConf) (user rest : Bytes) : List Bytes :=
  (if conf.letterhomes then [user.take 1] else []) ++
    user :: (bufferAppendSlash conf.path.string ++ rest).splitOn slashChar

section Segments

variable {conf : UserdirConf} {user rest : Bytes}

/-- The path of a user behind the base path. -/
def UserdirConf.below (conf : UserdirConf) (user rest : Bytes) : Bytes :=
  (if conf.letterhomes then user.take 1 ++ [slashChar] else []) ++
    (user ++ slashChar :: (bufferAppendSlash conf.path.string ++ rest))

theorem UserdirConf.append_below (conf : UserdirConf) (user rest : Bytes) :
    bufferAppendSlash (conf.directory user) ++ rest =
      bufferAppendSlash conf.basepath.string ++ conf.below user rest := by
  have hdir : conf.directory user = bufferAppendSlash conf.basepath.string ++
      (if conf.letterhomes then user.take 1 ++ [slashChar] else []) ++ user ++ [slashChar] ++
        conf.path.string := by
    simp [directory]
  rw [hdir, bufferAppendSlash_append (by simp), below]
  simp

theorem UserdirConf.splitOn_below (h : slashChar ∉ user) :
    (conf.below user rest).splitOn slashChar = conf.segments user rest := by
  have htake : slashChar ∉ user.take 1 := fun hmem => h (List.mem_of_mem_take hmem)
  unfold below segments
  cases conf.letterhomes with
  | false => simp [List.splitOn_append_cons_self_of_not_mem h]
  | true =>
    simp only [if_true, List.append_assoc, List.cons_append, List.nil_append]
    rw [List.splitOn_append_cons_self_of_not_mem htake,
      List.splitOn_append_cons_self_of_not_mem h]

theorem UserdirConf.segments_user (conf : UserdirConf) (user rest : Bytes) :
    (conf.segments user rest)[if conf.letterhomes then 1 else 0]? = some user := by
  unfold segments
  cases conf.letterhomes <;> simp

/-- Behind `userdir.path` and a slash the segments of the rest begin. -/
theorem count_splitOn_bufferAppendSlash (path : Bytes) (hrest : ¬ HasDotDot rest) :
    ((bufferAppendSlash path ++ rest).splitOn slashChar).count (str "..") =
      (path.splitOn slashChar).count (str "..") := by
  have hzero : (rest.splitOn slashChar).count (str "..") = 0 := List.count_eq_zero.mpr hrest
  have hnil : ([([] : Bytes)] : List Bytes).count (str "..") = 0 := by decide
  by_cases hpath : path = []
  · rw [hpath, List.splitOn_nil]
    exact hzero.trans hnil.symm
  · rw [bufferAppendSlash_of_ne_nil hpath]
    split_ifs with hlast
    · obtain ⟨a, rfl⟩ := List.getLast?_eq_some_iff.mp hlast
      simp [List.splitOn_append_cons_self, hzero, hnil]
    · simp [List.splitOn_append_cons_self, hzero]

theorem UserdirConf.count_segments_le (hrest : ¬ HasDotDot rest) (huser : user ≠ str "..") :
    (conf.segments user rest).count (str "..") ≤
      (conf.path.string.splitOn slashChar).count (str "..") := by
  have htake : user.take 1 ≠ str ".." := fun h => by
    have hlen := congrArg List.length h
    simp [str] at hlen
    omega
  unfold segments
  rw [List.count_append, List.count_cons_of_ne huser, count_splitOn_bufferAppendSlash _ hrest]
  split_ifs
  · rw [List.count_cons_of_ne htake]
    simp
  · simp

end Segments

theorem lowered_eq_replicate_iff (n : ℕ) :
    lowered forceLowercase s = List.replicate n dotChar ↔ s = List.replicate n dotChar := by
  unfold lowered bufferToLower
  split_ifs
  · simp [List.eq_replicate_iff, (toLower_eq_iff _).2]
  · rfl

theorem lowered_eq_dot_iff :
    lowered forceLowercase s = str "." ↔ s = str "." := lowered_eq_replicate_iff 1

theorem lowered_eq_dots_iff :
    lowered forceLowercase s = str ".." ↔ s = str ".." := lowered_eq_replicate_iff 2

theorem not_hasDotDot_lowered (h : ¬ HasDotDot s) : ¬ HasDotDot (lowered forceLowercase s) := by
  unfold lowered
  split_ifs
  · exact not_hasDotDot_bufferToLower h
  · exact h

/-- With a base path, a path that the handler sets is that of a directory below it, exactly when the
user name is neither `.` nor `..`, or the settings give such a user no directory. -/
theorem userdirBelow_iff (cfg : PluginConfig) (fs : FileSystem) (req : WorkerRequest)
    (url : UserdirUrl) (m : Memory PluginVal)
    (hbase : (userdirConf cfg req).basepath.string ≠ []) :
    (∀ basedir path, (modUserdirDocrootHandler cfg fs (userdirRequest req url)).eval m =
      .path basedir path → UserdirBelow (userdirConf cfg req) path) ↔
        ¬ ((userdirConf cfg req).Serves url.name ∧ (url.name = str "." ∨ url.name = str "..")) := by
  rw [eval_modUserdirDocrootHandler cfg fs req url hbase]
  generalize userdirConf cfg req = conf
  have hslash : slashChar ∉ lowered req.forceLowercase url.name :=
    mt slash_mem_lowered_iff.mp url.slash_notMem
  constructor
  · rintro h ⟨hserves, hdots⟩
    obtain ⟨below, hbelow, -, user, huser, hdot, hdotdot⟩ := h _ _ (if_pos hserves)
    rw [conf.append_below, List.append_cancel_left_eq] at hbelow
    rw [← hbelow, conf.splitOn_below hslash, conf.segments_user, Option.some_inj] at huser
    rcases hdots with hname | hname
    · exact hdot (huser.symm.trans (lowered_eq_dot_iff.mpr hname))
    · exact hdotdot (huser.symm.trans (lowered_eq_dots_iff.mpr hname))
  · intro h basedir path hpath
    split_ifs at hpath with hserves
    have hname : url.name ≠ str "." ∧ url.name ≠ str ".." := by
      constructor
      · exact fun hdot => h ⟨hserves, Or.inl hdot⟩
      · exact fun hdots => h ⟨hserves, Or.inr hdots⟩
    have huser : lowered req.forceLowercase url.name ≠ str ".." :=
      mt lowered_eq_dots_iff.mp hname.2
    obtain ⟨-, rfl⟩ := UserdirOutcome.path.inj hpath
    rw [conf.append_below]
    refine ⟨_, rfl, ?_, _, ?_, mt lowered_eq_dot_iff.mp hname.1, huser⟩
    · rw [conf.splitOn_below hslash]
      exact conf.count_segments_le (not_hasDotDot_lowered url.noDotDot) huser
    · rw [conf.splitOn_below hslash, conf.segments_user]

/-- All users have a directory `public_html` below `/home`. -/
def homeConfig : PluginConfig :=
  { globals := { noSettings with
      active := true
      basepath := some (str "/home")
      userdirPath := some (str "public_html") }
    blocks := [] }

/-- The URL `/~bob/x`. -/
def bobUrl : UserdirUrl := ⟨str "bob", str "x", by decide, by decide, by decide⟩

/-- The URL `/~../x`. -/
def dotsUrl : UserdirUrl := ⟨str "..", str "x", by decide, by decide, by decide⟩

theorem userdirBelow_iff_bob :
    (userdirConf homeConfig (openBlockRequest false)).basepath.string ≠ [] ∧
    ((∀ basedir path, (modUserdirDocrootHandler homeConfig noFiles
        (userdirRequest (openBlockRequest false) bobUrl)).eval freshMemory = .path basedir path →
          UserdirBelow (userdirConf homeConfig (openBlockRequest false)) path) ↔
      ¬ ((userdirConf homeConfig (openBlockRequest false)).Serves bobUrl.name ∧
        (bobUrl.name = str "." ∨ bobUrl.name = str ".."))) := by
  have hbase : (userdirConf homeConfig (openBlockRequest false)).basepath.string ≠ [] := by decide
  exact ⟨hbase, userdirBelow_iff homeConfig noFiles (openBlockRequest false) bobUrl freshMemory hbase⟩

/-- `/~../x` is `/home/../public_html/x`. -/
theorem not_userdirBelow_dots :
    ¬ ∀ (cfg : PluginConfig) (fs : FileSystem) (req : WorkerRequest) (url : UserdirUrl)
      (m : Memory PluginVal), (userdirConf cfg req).basepath.string ≠ [] →
      ∀ basedir path, (modUserdirDocrootHandler cfg fs (userdirRequest req url)).eval m =
        .path basedir path → UserdirBelow (userdirConf cfg req) path := by
  intro h
  have hpath : (modUserdirDocrootHandler homeConfig noFiles
      (userdirRequest (openBlockRequest false) dotsUrl)).eval freshMemory =
      .path (str "/home/../public_html") (str "/home/../public_html/x") := by rfl
  obtain ⟨below, hbelow, hcount, -⟩ := h homeConfig noFiles (openBlockRequest false) dotsUrl
    freshMemory (by decide) _ _ hpath
  have hcut : str "/home/" ++ str "../public_html/x" = str "/home/" ++ below := hbelow
  rw [← List.append_cancel_left hcut] at hcount
  exact absurd hcount (by decide)

end Lighttpd
