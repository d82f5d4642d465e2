import Lighttpd.PluginData

/-!
# The cache of the last host

`mod_simple_vhost_docroot` keeps, for each block that sets `simple-vhost.server-root`, the last host
that it found with its document root. The key is the authority alone, but the document root also
ends in `simple-vhost.document-root`, which another block may set. The cache is not seen exactly when
no request takes from it what was found under another `simple-vhost.document-root`
(`docrootTransparent_iff`).
-/

namespace Lighttpd

open CString SharedMemory

/-- What `build_doc_root` appends for `simple-vhost.document-root`. -/
def documentRootPart (documentRoot : Bytes) : Bytes :=
  if 1 < documentRoot.length ∧ documentRoot.head? = some slashChar then documentRoot.drop 1
  else bufferAppendSlash documentRoot

/-- What `build_doc_root` puts before it. -/
def hostRoot (serverRoot host : Bytes) : Bytes :=
  bufferAppendSlash
    (if host = [] then serverRoot else bufferAppendSlash serverRoot ++ hostWithoutPort host)

/-- The path that `build_doc_root` builds. -/
def docRootPath (serverRoot host documentRoot : Bytes) : Bytes :=
  hostRoot serverRoot host ++ documentRootPart documentRoot

/-- The path that `build_doc_root` builds with the settings that are in the memory. -/
def settingsDocRoot (cfg : PluginConfig) (m : Memory PluginVal) (host : Bytes) : Bytes :=
  docRootPath (cfg.storage (m (.vhost .serverRoot))).serverRoot.string host
    (cfg.storage (m (.vhost .documentRoot))).documentRoot.string

theorem getLast?_hostRoot {serverRoot : Bytes} (h : serverRoot ≠ []) (host : Bytes) :
    (hostRoot serverRoot host).getLast? = some slashChar := by
  unfold hostRoot
  refine getLast?_bufferAppendSlash ?_
  split_ifs
  · exact h
  · simp [bufferAppendSlash_ne_nil h]

variable {m : Memory PluginVal}

theorem final_appendDocumentRoot (cfg : PluginConfig) (next : Prog PluginVal VhostOutcome)
    {out : Bytes} (hm : m (.vhost .docRoot) = out) (hout : out.getLast? = some slashChar) :
    (appendDocumentRoot cfg next).final m = next.final (Function.update m (.vhost .docRoot)
      (out ++ documentRootPart (cfg.storage (m (.vhost .documentRoot))).documentRoot.string :
        Bytes)) := by
  have hdoc (x : Bytes) : Function.update m (.vhost .docRoot) x (.vhost .documentRoot) =
      m (.vhost .documentRoot) := Function.update_of_ne (by decide) _ _
  generalize hs : (cfg.storage (m (.vhost .documentRoot))).documentRoot.string = s
  have hwhole : (vhostAppend s (vhostAppendSlash next)).final m =
      next.final (Function.update m (.vhost .docRoot) (out ++ bufferAppendSlash s : Bytes)) := by
    simp only [vhostAppend, vhostAppendSlash, Prog.final_modify, Function.update_self,
      Function.update_idem, hm]
    rw [bufferAppendSlash_append hout]
  unfold appendDocumentRoot
  by_cases hlong : 1 < s.length
  · by_cases hslash : s.head? = some slashChar
    · simp only [lookDocumentRoot, vhostAppend, Prog.final_look, Prog.final_modify, hs, hm, hlong,
        hslash, decide_true, if_true, documentRootPart, and_self]
      rw [List.take_of_length_le (by simp)]
    · simp only [lookDocumentRoot, Prog.final_look, hs, hlong, hslash, decide_true, decide_false,
        if_true, Bool.false_eq_true, if_false, documentRootPart, and_false]
      exact hwhole
  · simp only [lookDocumentRoot, Prog.final_look, hs, hlong, decide_false, Bool.false_eq_true,
      if_false, documentRootPart, false_and]
    exact hwhole

/-- `build_doc_root` leaves the path in `p->doc_root`. -/
theorem final_buildDocRoot (cfg : PluginConfig) (fs : FileSystem) (host : Bytes)
    (next : Bool → Prog PluginVal VhostOutcome)
    (h : (cfg.storage (m (.vhost .serverRoot))).serverRoot.string ≠ []) :
    (buildDocRoot cfg fs host next).final m =
      (next (fs.isDir (settingsDocRoot cfg m host))).final
        (Function.update m (.vhost .docRoot) (settingsDocRoot cfg m host : Bytes)) := by
  have hdoc (x : Bytes) : Function.update m (.vhost .docRoot) x (.vhost .documentRoot) =
      m (.vhost .documentRoot) := Function.update_of_ne (by decide) _ _
  have hroot := getLast?_hostRoot h host
  unfold settingsDocRoot docRootPath
  generalize hs : (cfg.storage (m (.vhost .serverRoot))).serverRoot.string = root at *
  have hempty : bufferStringIsEmpty (cfg.storage (m (.vhost .serverRoot))).serverRoot = false := by
    simp [bufferStringIsEmpty, hs, h]
  have hhost : (buildDocRoot cfg fs host next).final m =
      (appendDocumentRoot cfg (.look (.vhost .docRoot) (fun out : Bytes => fs.isDir out) next)).final
        (Function.update m (.vhost .docRoot) (hostRoot root host : Bytes)) := by
    unfold buildDocRoot hostRoot
    by_cases hnil : host = []
    · simp only [Prog.final_look, hempty, Bool.false_eq_true, if_false, Prog.final_set, hs, hnil,
        if_true, vhostAppendSlash, Prog.final_modify, Function.update_self, Function.update_idem]
    · simp only [Prog.final_look, hempty, Bool.false_eq_true, if_false, Prog.final_set, hs, hnil,
        vhostAppendSlash, vhostAppend, Prog.final_modify, Function.update_self,
        Function.update_idem]
  rw [hhost, final_appendDocumentRoot cfg _ (Function.update_self _ _ _) hroot]
  simp only [Prog.final_look, Function.update_self, Function.update_idem, hdoc]

/-! ## The cache -/

/-- The memory behind `mod_simple_vhost_patch_connection`. -/
def vhostPatched (cfg : PluginConfig) (req : WorkerRequest) (m : Memory PluginVal) :
    Memory PluginVal :=
  m.apply (modSimpleVhostPatchConnection cfg req)

/-- The block of which the cache and `simple-vhost.server-root` are taken. -/
def vhostBlock (cfg : PluginConfig) (req : WorkerRequest) : ℕ :=
  cfg.patched req.matched (str "simple-vhost.server-root")

/-- The setting `simple-vhost.server-root` of a request. -/
def vhostServerRoot (cfg : PluginConfig) (req : WorkerRequest) : Bytes :=
  (cfg.storage (vhostBlock cfg req)).serverRoot.string

/-- The setting `simple-vhost.document-root` of a request. -/
def vhostDocumentRoot (cfg : PluginConfig) (req : WorkerRequest) : Bytes :=
  (cfg.storage (cfg.patched req.matched (str "simple-vhost.document-root"))).documentRoot.string

/-- The path that the settings of a request give for a host. -/
def vhostPath (cfg : PluginConfig) (req : WorkerRequest) (host : Bytes) : Bytes :=
  docRootPath (vhostServerRoot cfg req) host (vhostDocumentRoot cfg req)

/-- The request finds its host: it is put into the cache. -/
def FindsHost (cfg : PluginConfig) (fs : FileSystem) (req : WorkerRequest) : Prop :=
  vhostServerRoot cfg req ≠ [] ∧ req.authority.string ≠ [] ∧
    fs.isDir (vhostPath cfg req req.authority.string) = true

instance (cfg : PluginConfig) (fs : FileSystem) : DecidablePred (FindsHost cfg fs) := fun _ =>
  inferInstanceAs (Decidable (_ ∧ _))

/-- The setting `simple-vhost.default-host` of a request. -/
def vhostDefaultHost (cfg : PluginConfig) (req : WorkerRequest) : Bytes :=
  (cfg.storage (cfg.patched req.matched (str "simple-vhost.default-host"))).defaultHost.string

/-- What the default host gives. -/
def vhostFallback (cfg : PluginConfig) (fs : FileSystem) (req : WorkerRequest) : VhostOutcome :=
  if fs.isDir (vhostPath cfg req (vhostDefaultHost cfg req)) then
    .found (vhostDefaultHost cfg req) (vhostPath cfg req (vhostDefaultHost cfg req))
  else .unset

/-- What the handler comes to when it finds nothing in the cache. -/
def vhostUncached (cfg : PluginConfig) (fs : FileSystem) (req : WorkerRequest) : VhostOutcome :=
  if vhostServerRoot cfg req = [] then .unset
  else if FindsHost cfg fs req then
    .found req.authority.string (vhostPath cfg req req.authority.string)
  else vhostFallback cfg fs req

/-- The host of the request is in the cache. -/
def CacheHit (cfg : PluginConfig) (req : WorkerRequest) (m : Memory PluginVal) : Prop :=
  vhostServerRoot cfg req ≠ [] ∧ req.authority.string ≠ [] ∧
    m (.vhost (.keyCell (vhostBlock cfg req))) = req.authority.string

instance (cfg : PluginConfig) (req : WorkerRequest) (m : Memory PluginVal) :
    Decidable (CacheHit cfg req m) :=
  inferInstanceAs (Decidable (_ ∧ _ ∧ @Eq Bytes _ _))

/-- The settings in the memory are those of the request. -/
structure SettingsOf (cfg : PluginConfig) (req : WorkerRequest) (m : Memory PluginVal) : Prop where
  serverRoot : m (.vhost .serverRoot) = vhostBlock cfg req
  cacheKey : m (.vhost .cacheKey) = vhostBlock cfg req
  cacheValue : m (.vhost .cacheValue) = vhostBlock cfg req
  cacheServername : m (.vhost .cacheServername) = vhostBlock cfg req
  defaultHost : m (.vhost .defaultHost) =
    cfg.patched req.matched (str "simple-vhost.default-host")
  documentRoot : m (.vhost .documentRoot) =
    cfg.patched req.matched (str "simple-vhost.document-root")

theorem settingsOf_vhostPatched (cfg : PluginConfig) (req : WorkerRequest) (m : Memory PluginVal) :
    SettingsOf cfg req (vhostPatched cfg req m) := ⟨rfl, rfl, rfl, rfl, rfl, rfl⟩

section Handler

variable {cfg : PluginConfig} {fs : FileSystem} {req : WorkerRequest} {m : Memory PluginVal}

theorem SettingsOf.update (h : SettingsOf cfg req m) {f : VhostField} (x : PluginVal (.vhost f))
    (hf : f ∉ [.serverRoot, .cacheKey, .cacheValue, .cacheServername, .defaultHost,
      .documentRoot]) : SettingsOf cfg req (Function.update m (.vhost f) x) := by
  simp only [List.mem_cons, List.not_mem_nil, or_false, not_or] at hf
  obtain ⟨h1, h2, h3, h4, h5, h6⟩ := hf
  constructor
  · rw [Function.update_of_ne (by simpa using Ne.symm h1), h.serverRoot]
  · rw [Function.update_of_ne (by simpa using Ne.symm h2), h.cacheKey]
  · rw [Function.update_of_ne (by simpa using Ne.symm h3), h.cacheValue]
  · rw [Function.update_of_ne (by simpa using Ne.symm h4), h.cacheServername]
  · rw [Function.update_of_ne (by simpa using Ne.symm h5), h.defaultHost]
  · rw [Function.update_of_ne (by simpa using Ne.symm h6), h.documentRoot]

theorem SettingsOf.docRoot (h : SettingsOf cfg req m) (out : Bytes) :
    SettingsOf cfg req (Function.update m (.vhost .docRoot) out) := h.update (f := .docRoot) out (by decide)

theorem SettingsOf.settingsDocRoot (h : SettingsOf cfg req m) (host : Bytes) :
    settingsDocRoot cfg m host = vhostPath cfg req host := by
  rw [Lighttpd.settingsDocRoot, h.serverRoot, h.documentRoot]
  rfl

theorem SettingsOf.final_buildDocRoot (h : SettingsOf cfg req m)
    (hroot : vhostServerRoot cfg req ≠ []) (host : Bytes)
    (next : Bool → Prog PluginVal VhostOutcome) :
    (buildDocRoot cfg fs host next).final m = (next (fs.isDir (vhostPath cfg req host))).final
      (Function.update m (.vhost .docRoot) (vhostPath cfg req host)) := by
  rw [Lighttpd.final_buildDocRoot cfg fs host next (by rwa [h.serverRoot]), h.settingsDocRoot]

theorem SettingsOf.final_vhostDefault (h : SettingsOf cfg req m)
    (hroot : vhostServerRoot cfg req ≠ []) :
    ∃ out : Bytes, (vhostDefault cfg fs).final m =
      (vhostFallback cfg fs req, Function.update m (.vhost .docRoot) out) := by
  refine ⟨vhostPath cfg req (vhostDefaultHost cfg req), ?_⟩
  have hhost {m' : Memory PluginVal} (h' : SettingsOf cfg req m') :
      (cfg.storage (m' (.vhost .defaultHost))).defaultHost.string = vhostDefaultHost cfg req := by
    rw [h'.defaultHost]
    rfl
  unfold vhostDefault vhostFallback
  rw [Prog.final_look, hhost h, h.final_buildDocRoot hroot]
  split_ifs with hdir
  · simp only [Prog.final_look, hhost (h.docRoot _), Function.update_self, id, Prog.final_done]
  · rfl

/-- The memory behind a request that finds its host. -/
def cacheStored (cfg : PluginConfig) (req : WorkerRequest) (m : Memory PluginVal) :
    Memory PluginVal :=
  let path := vhostPath cfg req req.authority.string
  let block := vhostBlock cfg req
  Function.update (Function.update (Function.update (Function.update m (.vhost .docRoot) path)
    (.vhost (.keyCell block)) req.authority.string) (.vhost (.valueCell block)) path)
    (.vhost (.servernameCell block)) req.authority.string

theorem SettingsOf.final_vhostBuild_of_finds (h : SettingsOf cfg req m)
    (hfinds : FindsHost cfg fs req) : (vhostBuild cfg fs req).final m =
      (.found req.authority.string (vhostPath cfg req req.authority.string),
        cacheStored cfg req m) := by
  obtain ⟨hroot, hauth, hdir⟩ := hfinds
  have hempty : bufferStringIsEmpty req.authority = false := by
    simp [bufferStringIsEmpty, hauth]
  unfold vhostBuild
  simp only [hempty, Bool.false_eq_true, if_false, h.final_buildDocRoot hroot, hdir, if_true]
  have hm := h.docRoot (vhostPath cfg req req.authority.string)
  have hout : Function.update m (.vhost .docRoot) (vhostPath cfg req req.authority.string)
      (.vhost .docRoot) = vhostPath cfg req req.authority.string := Function.update_self _ _ _
  dsimp only [cacheStored]
  generalize Function.update m (.vhost .docRoot) (vhostPath cfg req req.authority.string) = m' at *
  have hkey := hm.update (f := .keyCell (vhostBlock cfg req)) req.authority.string (by simp)
  have hval := hkey.update (f := .valueCell (vhostBlock cfg req))
    (vhostPath cfg req req.authority.string) (by simp)
  rw [Prog.final_look, hout, Prog.final_look, id, hm.cacheKey, Prog.final_set, Prog.final_look, id,
    hkey.cacheValue, Prog.final_look, Function.update_of_ne (by simp), id, hout, Prog.final_set,
    Prog.final_look, id, hval.cacheServername, Prog.final_set, Prog.final_done]
  rfl

theorem SettingsOf.final_vhostBuild_of_not_finds (h : SettingsOf cfg req m)
    (hroot : vhostServerRoot cfg req ≠ []) (hfinds : ¬ FindsHost cfg fs req) :
    ∃ out : Bytes, (vhostBuild cfg fs req).final m =
      (vhostFallback cfg fs req, Function.update m (.vhost .docRoot) out) := by
  unfold vhostBuild
  by_cases hauth : req.authority.string = []
  · have hempty : bufferStringIsEmpty req.authority = true := by simp [bufferStringIsEmpty, hauth]
    simp only [hempty, if_true]
    exact h.final_vhostDefault hroot
  · have hempty : bufferStringIsEmpty req.authority = false := by
      simp [bufferStringIsEmpty, hauth]
    have hdir : fs.isDir (vhostPath cfg req req.authority.string) = false :=
      Bool.eq_false_iff.mpr fun hdir => hfinds ⟨hroot, hauth, hdir⟩
    simp only [hempty, Bool.false_eq_true, if_false, h.final_buildDocRoot hroot, hdir]
    have hdefault : ∃ out : Bytes, (vhostDefault cfg fs).final _ = _ :=
      (h.docRoot (vhostPath cfg req req.authority.string)).final_vhostDefault hroot
    obtain ⟨out, hout⟩ := hdefault
    exact ⟨out, by rw [hout, Function.update_idem]⟩

/-- The handler behind `mod_simple_vhost_patch_connection`. -/
theorem final_modSimpleVhostDocroot (cfg : PluginConfig) (fs : FileSystem) (req : WorkerRequest)
    (m : Memory PluginVal) : (modSimpleVhostDocroot cfg fs req).final m =
      (if vhostServerRoot cfg req = [] then .done .unset
        else if CacheHit cfg req m then vhostCached
        else vhostBuild cfg fs req : Prog PluginVal VhostOutcome).final (vhostPatched cfg req m) := by
  have h := settingsOf_vhostPatched cfg req m
  have hkey : vhostPatched cfg req m (.vhost (.keyCell (vhostBlock cfg req))) =
      m (.vhost (.keyCell (vhostBlock cfg req))) := rfl
  have hempty : bufferStringIsEmpty (cfg.storage (vhostBlock cfg req)).serverRoot =
      decide (vhostServerRoot cfg req = []) := by
    rw [bufferStringIsEmpty, vhostServerRoot, Bool.eq_iff_iff, List.isEmpty_iff, decide_eq_true_iff]
  unfold modSimpleVhostDocroot
  rw [Prog.final_write, ← vhostPatched, Prog.final_look, h.serverRoot, hempty]
  by_cases hroot : vhostServerRoot cfg req = []
  · simp only [hroot, decide_true, if_true]
  · simp only [hroot, decide_false, Bool.false_eq_true, if_false]
    rw [Prog.final_look, id, h.cacheKey, Prog.final_look, hkey]
    by_cases hmiss : m (.vhost (.keyCell (vhostBlock cfg req))) = ([] : Bytes) ∨
        bufferStringIsEmpty req.authority = true
    · have hhit : ¬ CacheHit cfg req m := by
        rintro ⟨-, hauth, heq⟩
        rcases hmiss with hnil | hnil
        · exact hauth (heq.symm.trans hnil)
        · exact hauth (by simpa [bufferStringIsEmpty] using hnil)
      rw [if_pos (by simpa using hmiss), if_neg hhit]
    · rw [if_neg (by simpa using hmiss), Prog.final_look, id, h.cacheKey, Prog.final_look, hkey]
      have hauth : req.authority.string ≠ [] := fun hnil =>
        hmiss (.inr (by simp [bufferStringIsEmpty, hnil]))
      by_cases hhit : m (.vhost (.keyCell (vhostBlock cfg req))) = req.authority.string
      · rw [if_pos (by simpa using hhit), if_pos ⟨hroot, hauth, hhit⟩]
      · rw [if_neg (by simpa using hhit), if_neg fun h => hhit h.2.2]

theorem SettingsOf.final_vhostCached (h : SettingsOf cfg req m) :
    vhostCached.final m = (.found (m (.vhost (.servernameCell (vhostBlock cfg req))))
      (m (.vhost (.valueCell (vhostBlock cfg req)))), m) := by
  unfold vhostCached
  rw [Prog.final_look, id, h.cacheServername, Prog.final_look, id, Prog.final_look, id,
    h.cacheValue, Prog.final_look, id, Prog.final_done]

end Handler

/-! ## Runs of requests -/

/-- The memory behind requests one after the other. -/
def vhostMemory (cfg : PluginConfig) (fs : FileSystem) (reqs : List WorkerRequest)
    (m : Memory PluginVal) : Memory PluginVal :=
  reqs.foldl (fun m req => (modSimpleVhostDocroot cfg fs req).after m) m

/-- Every request of a run sets what it sets when the cache is empty. -/
def CacheTransparent (cfg : PluginConfig) (fs : FileSystem) (reqs : List WorkerRequest) : Prop :=
  ∀ earlier req later, reqs = earlier ++ req :: later →
    (modSimpleVhostDocroot cfg fs req).eval (vhostMemory cfg fs earlier freshMemory) =
      (modSimpleVhostDocroot cfg fs req).eval freshMemory

/-- The last request that found its host with the cache of a block. -/
def lastHost (cfg : PluginConfig) (fs : FileSystem) (reqs : List WorkerRequest) (block : ℕ) :
    Option WorkerRequest :=
  (reqs.filter fun req => vhostBlock cfg req = block ∧ FindsHost cfg fs req).getLast?

/-- Where the last host of the block is that of the request, both have the same
`simple-vhost.document-root`, but for slashes. -/
def SameDocumentRoot (cfg : PluginConfig) (fs : FileSystem) (earlier : List WorkerRequest)
    (req : WorkerRequest) : Prop :=
  ∀ last ∈ lastHost cfg fs earlier (vhostBlock cfg req),
    last.authority.string = req.authority.string →
      documentRootPart (vhostDocumentRoot cfg last) = documentRootPart (vhostDocumentRoot cfg req)

/-- The cache of a block: the key, the document root and the server name. -/
def cacheCells (m : Memory PluginVal) (block : ℕ) : Bytes × Bytes × Bytes :=
  (m (.vhost (.keyCell block)), m (.vhost (.valueCell block)), m (.vhost (.servernameCell block)))

/-- The cache of each block is that of the last request that found its host with it. -/
structure CacheHolds (cfg : PluginConfig) (fs : FileSystem) (reqs : List WorkerRequest)
    (m : Memory PluginVal) : Prop where
  empty : ∀ block, lastHost cfg fs reqs block = none → (cacheCells m block).1 = []
  stored : ∀ block, ∀ last ∈ lastHost cfg fs reqs block, cacheCells m block =
    (last.authority.string, vhostPath cfg last last.authority.string, last.authority.string)

section Run

variable {cfg : PluginConfig} {fs : FileSystem} {earlier : List WorkerRequest}
  {req last : WorkerRequest} {m m' : Memory PluginVal}

theorem lastHost_append (cfg : PluginConfig) (fs : FileSystem) (earlier : List WorkerRequest)
    (req : WorkerRequest) (block : ℕ) : lastHost cfg fs (earlier ++ [req]) block =
      if vhostBlock cfg req = block ∧ FindsHost cfg fs req then some req
      else lastHost cfg fs earlier block := by
  unfold lastHost
  rw [List.filter_append]
  split_ifs with h
  · rw [List.filter_cons_of_pos (by simpa using h)]
    simp
  · rw [List.filter_cons_of_neg (by simpa using h)]
    simp

theorem mem_lastHost {block : ℕ} (h : last ∈ lastHost cfg fs earlier block) :
    vhostBlock cfg last = block ∧ FindsHost cfg fs last := by
  have hmem := List.mem_of_mem_getLast? h
  simpa using (List.mem_filter.mp hmem).2

theorem vhostServerRoot_eq (h : vhostBlock cfg last = vhostBlock cfg req) :
    vhostServerRoot cfg last = vhostServerRoot cfg req := by
  rw [vhostServerRoot, h, vhostServerRoot]

/-- The path of a host that both requests name differs in the part of the document root only. -/
theorem vhostPath_eq_iff (h : vhostBlock cfg last = vhostBlock cfg req) (host : Bytes) :
    vhostPath cfg last host = vhostPath cfg req host ↔
      documentRootPart (vhostDocumentRoot cfg last) =
        documentRootPart (vhostDocumentRoot cfg req) := by
  rw [vhostPath, vhostPath, docRootPath, docRootPath, vhostServerRoot_eq h, List.append_cancel_left_eq]

/-- In the cache is the host of the last request that found one. -/
theorem CacheHolds.cacheHit_iff (h : CacheHolds cfg fs earlier m) : CacheHit cfg req m ↔
    ∃ last ∈ lastHost cfg fs earlier (vhostBlock cfg req),
      last.authority.string = req.authority.string := by
  constructor
  · rintro ⟨-, hauth, hkey⟩
    cases hlast : lastHost cfg fs earlier (vhostBlock cfg req) with
    | none => exact absurd (hkey.symm.trans (h.empty _ hlast)) hauth
    | some last => exact ⟨last, rfl, (congrArg Prod.fst (h.stored _ last hlast)).symm.trans hkey⟩
  · rintro ⟨last, hlast, hsame⟩
    obtain ⟨hblock, hroot, hauth, -⟩ := mem_lastHost hlast
    refine ⟨vhostServerRoot_eq hblock ▸ hroot, hsame ▸ hauth, ?_⟩
    exact (congrArg Prod.fst (h.stored _ last hlast)).trans hsame

/-- What the handler comes to when the host is not in the cache. -/
theorem eval_of_not_cacheHit (h : ¬ CacheHit cfg req m) :
    (modSimpleVhostDocroot cfg fs req).eval m = vhostUncached cfg fs req := by
  have hfinal := congrArg Prod.fst (final_modSimpleVhostDocroot cfg fs req m)
  have hset := settingsOf_vhostPatched cfg req m
  refine hfinal.trans ?_
  unfold vhostUncached
  split_ifs with hroot hfinds
  · rfl
  · rw [hset.final_vhostBuild_of_finds hfinds]
  · obtain ⟨out, hout⟩ := hset.final_vhostBuild_of_not_finds hroot hfinds
    rw [hout]

theorem CacheHolds.eval_of_mem (h : CacheHolds cfg fs earlier m)
    (hlast : last ∈ lastHost cfg fs earlier (vhostBlock cfg req))
    (hsame : last.authority.string = req.authority.string) :
    (modSimpleVhostDocroot cfg fs req).eval m =
      .found req.authority.string (vhostPath cfg last req.authority.string) := by
  have hhit := h.cacheHit_iff.mpr ⟨last, hlast, hsame⟩
  have hfinal := congrArg Prod.fst (final_modSimpleVhostDocroot cfg fs req m)
  rw [if_neg hhit.1, if_pos hhit, (settingsOf_vhostPatched cfg req m).final_vhostCached] at hfinal
  refine hfinal.trans ?_
  change VhostOutcome.found (cacheCells m (vhostBlock cfg req)).2.2
    (cacheCells m (vhostBlock cfg req)).2.1 = _
  rw [h.stored _ last hlast, hsame]

/-- The default host gives no directory that the host of the request does not give. -/
theorem vhostUncached_eq_found_iff (hroot : vhostServerRoot cfg req ≠ [])
    (hauth : req.authority.string ≠ []) {path : Bytes} :
    vhostUncached cfg fs req = .found req.authority.string path ↔
      FindsHost cfg fs req ∧ vhostPath cfg req req.authority.string = path := by
  unfold vhostUncached
  rw [if_neg hroot]
  split_ifs with hfinds
  · simp [hfinds]
  · refine iff_of_false ?_ fun h => hfinds h.1
    unfold vhostFallback
    split_ifs with hdir
    · intro h
      have hname : vhostDefaultHost cfg req = req.authority.string := (VhostOutcome.found.inj h).1
      exact hfinds ⟨hroot, hauth, hname ▸ hdir⟩
    · simp

/-- Under the same document root, a request finds the host that an earlier one found. -/
theorem findsHost_of_mem (hlast : last ∈ lastHost cfg fs earlier (vhostBlock cfg req))
    (hsame : last.authority.string = req.authority.string)
    (hdoc : SameDocumentRoot cfg fs earlier req) :
    FindsHost cfg fs req ∧
      vhostPath cfg req req.authority.string = vhostPath cfg last req.authority.string := by
  obtain ⟨hblock, hroot, hauth, hdir⟩ := mem_lastHost hlast
  have heq := (vhostPath_eq_iff hblock req.authority.string).mpr (hdoc last hlast hsame)
  refine ⟨⟨vhostServerRoot_eq hblock ▸ hroot, hsame ▸ hauth, ?_⟩, heq.symm⟩
  rw [← heq, ← hsame]
  exact hdir

/-- A request sets what it sets without a cache exactly when it takes no host from the cache that
was found under another document root. -/
theorem CacheHolds.eval_eq_iff (h : CacheHolds cfg fs earlier m) :
    (modSimpleVhostDocroot cfg fs req).eval m = vhostUncached cfg fs req ↔
      SameDocumentRoot cfg fs earlier req := by
  by_cases hhit : CacheHit cfg req m
  · obtain ⟨last, hlast, hsame⟩ := h.cacheHit_iff.mp hhit
    have hpath := vhostPath_eq_iff (mem_lastHost hlast).1 req.authority.string
    rw [h.eval_of_mem hlast hsame, eq_comm, vhostUncached_eq_found_iff hhit.1 hhit.2.1]
    constructor
    · rintro ⟨-, heq⟩ last' hlast' -
      obtain rfl : last = last' := Option.mem_unique hlast hlast'
      exact hpath.mp heq.symm
    · exact findsHost_of_mem hlast hsame
  · refine iff_of_true (eval_of_not_cacheHit hhit) fun last hlast hsame => ?_
    exact absurd (h.cacheHit_iff.mpr ⟨last, hlast, hsame⟩) hhit

theorem lastHost_append_of_not_finds (h : ¬ FindsHost cfg fs req) (block : ℕ) :
    lastHost cfg fs (earlier ++ [req]) block = lastHost cfg fs earlier block := by
  rw [lastHost_append, if_neg fun hreq => h hreq.2]

theorem CacheHolds.append_of_not_finds (h : CacheHolds cfg fs earlier m)
    (hfinds : ¬ FindsHost cfg fs req) (hcells : ∀ block, cacheCells m' block = cacheCells m block) :
    CacheHolds cfg fs (earlier ++ [req]) m' where
  empty block hnone := by
    rw [hcells, h.empty block (by rwa [← lastHost_append_of_not_finds hfinds])]
  stored block last hlast := by
    rw [hcells, h.stored block last (by rwa [← lastHost_append_of_not_finds hfinds])]

/-- A request that finds its host leaves it in the cache of its block. -/
theorem CacheHolds.append_of_finds (h : CacheHolds cfg fs earlier m) (hfinds : FindsHost cfg fs req)
    (hown : cacheCells m' (vhostBlock cfg req) = (req.authority.string,
      vhostPath cfg req req.authority.string, req.authority.string))
    (hcells : ∀ block, block ≠ vhostBlock cfg req → cacheCells m' block = cacheCells m block) :
    CacheHolds cfg fs (earlier ++ [req]) m' := by
  have hlast (block : ℕ) := lastHost_append cfg fs earlier req block
  constructor
  · intro block hnone
    rw [hlast] at hnone
    split_ifs at hnone with hblock
    rw [hcells block fun heq => hblock ⟨heq.symm, hfinds⟩, h.empty block hnone]
  · intro block last hmem
    rw [hlast] at hmem
    split_ifs at hmem with hblock
    · obtain rfl := Option.mem_some_iff.mp hmem
      rw [← hblock.1, hown]
    · rw [hcells block fun heq => hblock ⟨heq.symm, hfinds⟩, h.stored block last hmem]

theorem cacheCells_cacheStored (cfg : PluginConfig) (req : WorkerRequest) (m : Memory PluginVal)
    (block : ℕ) : cacheCells (cacheStored cfg req m) block =
      if block = vhostBlock cfg req then
        (req.authority.string, vhostPath cfg req req.authority.string, req.authority.string)
      else cacheCells m block := by
  unfold cacheCells cacheStored
  by_cases hblock : block = vhostBlock cfg req
  · subst hblock
    simp [Function.update_of_ne]
  · simp [Function.update_of_ne, hblock]

/-- A request keeps the cache, if it takes no host from it that was found under another document
root. -/
theorem CacheHolds.after (h : CacheHolds cfg fs earlier m)
    (hdoc : SameDocumentRoot cfg fs earlier req) :
    CacheHolds cfg fs (earlier ++ [req]) ((modSimpleVhostDocroot cfg fs req).after m) := by
  have hfinal := final_modSimpleVhostDocroot cfg fs req m
  have hset := settingsOf_vhostPatched cfg req m
  have hcells (block : ℕ) : cacheCells (vhostPatched cfg req m) block = cacheCells m block := rfl
  rw [show (modSimpleVhostDocroot cfg fs req).after m = _ from congrArg Prod.snd hfinal]
  split_ifs with hroot hhit
  · exact h.append_of_not_finds (fun hfinds => hfinds.1 hroot) hcells
  · rw [hset.final_vhostCached]
    obtain ⟨last, hlast, hsame⟩ := h.cacheHit_iff.mp hhit
    obtain ⟨hfinds, hpath⟩ := findsHost_of_mem hlast hsame hdoc
    refine h.append_of_finds hfinds ?_ fun block _ => hcells block
    rw [hcells, h.stored _ last hlast, hsame, hpath]
  · by_cases hfinds : FindsHost cfg fs req
    · rw [hset.final_vhostBuild_of_finds hfinds]
      refine h.append_of_finds hfinds ?_ fun block hblock => ?_
      · rw [cacheCells_cacheStored, if_pos rfl]
      · rw [cacheCells_cacheStored, if_neg hblock, hcells]
    · obtain ⟨out, hout⟩ := hset.final_vhostBuild_of_not_finds hroot hfinds
      rw [hout]
      exact h.append_of_not_finds hfinds fun block => rfl

theorem cacheHolds_freshMemory (cfg : PluginConfig) (fs : FileSystem) :
    CacheHolds cfg fs [] freshMemory := ⟨fun _ _ => rfl, by simp [lastHost]⟩

theorem vhostMemory_append (cfg : PluginConfig) (fs : FileSystem) (earlier : List WorkerRequest)
    (req : WorkerRequest) (m : Memory PluginVal) : vhostMemory cfg fs (earlier ++ [req]) m =
      (modSimpleVhostDocroot cfg fs req).after (vhostMemory cfg fs earlier m) := by
  simp [vhostMemory]

/-- As long as no request takes from the cache what was found under another document root, the
cache is that of the last hosts. -/
theorem cacheHolds_vhostMemory (cfg : PluginConfig) (fs : FileSystem) (reqs : List WorkerRequest)
    (h : ∀ earlier req later, reqs = earlier ++ req :: later →
      SameDocumentRoot cfg fs earlier req) :
    CacheHolds cfg fs reqs (vhostMemory cfg fs reqs freshMemory) := by
  induction reqs using List.reverseRecOn with
  | nil => exact cacheHolds_freshMemory cfg fs
  | append_singleton earlier req ih =>
    rw [vhostMemory_append]
    refine (ih fun pre r post heq => ?_).after (h earlier req [] rfl)
    exact h pre r (post ++ [req]) (by rw [heq]; simp)

end Run

/-- Every request of a run sets the server name and the document root that it sets when the cache is
empty, exactly when no request takes the host of the last one that found it with another
`simple-vhost.document-root`. -/
theorem cacheTransparent_iff (cfg : PluginConfig) (fs : FileSystem) (reqs : List WorkerRequest) :
    CacheTransparent cfg fs reqs ↔ ∀ earlier req later, reqs = earlier ++ req :: later →
      SameDocumentRoot cfg fs earlier req := by
  have hfresh (req : WorkerRequest) :
      (modSimpleVhostDocroot cfg fs req).eval freshMemory = vhostUncached cfg fs req := by
    refine eval_of_not_cacheHit fun hhit => ?_
    obtain ⟨last, hlast, -⟩ := (cacheHolds_freshMemory cfg fs).cacheHit_iff.mp hhit
    simp [lastHost] at hlast
  constructor
  · intro h earlier
    -- by induction on the number of requests before, which keep the cache
    induction hn : earlier.length using Nat.strong_induction_on generalizing earlier with
    | _ n ih =>
      intro req later heq
      have hcache := cacheHolds_vhostMemory cfg fs earlier fun pre r post hpre => by
        refine ih pre.length ?_ pre rfl r (post ++ req :: later) (by rw [heq, hpre]; simp)
        rw [← hn, hpre]
        simp
      exact hcache.eval_eq_iff.mp ((h earlier req later heq).trans (hfresh req))
  · intro h earlier req later heq
    rw [hfresh]
    refine (cacheHolds_vhostMemory cfg fs earlier fun pre r post hpre => ?_).eval_eq_iff.mpr
      (h earlier req later heq)
    exact h pre r (post ++ req :: later) (by rw [heq, hpre]; simp)

/-- The document root of `$HTTP["url"] =~ "^/x"` is another one. -/
def twoDocumentRoots : PluginConfig :=
  { globals := { noSettings with
      serverRoot := some (str "/srv")
      documentRoot := some (str "a") }
    blocks := [{ noSettings with
      keys := [str "simple-vhost.document-root"]
      documentRoot := some (str "b") }] }

/-- All directories are there. -/
def allDirectories : FileSystem := ⟨fun _ => none, fun _ => true⟩

/-- The second request is given the document root of the first one. -/
theorem not_cacheTransparent :
    ¬ ∀ (cfg : PluginConfig) (fs : FileSystem) (reqs : List WorkerRequest),
      CacheTransparent cfg fs reqs := by
  intro h
  have hsecond := h twoDocumentRoots allDirectories [openBlockRequest false, openBlockRequest true]
    [openBlockRequest false] (openBlockRequest true) [] rfl
  have hcached : (modSimpleVhostDocroot twoDocumentRoots allDirectories (openBlockRequest true)).eval
      (vhostMemory twoDocumentRoots allDirectories [openBlockRequest false] freshMemory) =
      .found (str "h") (str "/srv/h/a/") := by rfl
  have halone : (modSimpleVhostDocroot twoDocumentRoots allDirectories
      (openBlockRequest true)).eval freshMemory = .found (str "h") (str "/srv/h/b/") := by rfl
  rw [hcached, halone] at hsecond
  exact absurd hsecond (by decide)

end Lighttpd
