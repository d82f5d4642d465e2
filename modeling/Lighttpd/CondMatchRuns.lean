import Lighttpd.CondMatchKept

/-!
# Matches over a request

An entry of the condition cache points to the buffer that its condition was compared with, and
captured text is read from that buffer later on. `mod_extforward` resets the conditions behind a
buffer that it changes; the scratch buffer that the request method is compared in, the path of the
URI and the request headers are written to with no reset. `capturesValid_of_stepsOk` says that
captured text stays as it was in every run in which no such write meets a match.
-/

namespace Lighttpd

open CString

variable {n : ℕ}

/-- A connection with `con->tmp_buf`, what is in memory behind the end of `con->uri.path`, and what
each block captured when its condition was evaluated, until it is reset. -/
structure MatchCon (n : ℕ) where
  attrs : ConAttrs
  tmpBuf : Bytes
  pathRest : Bytes
  cond : CondState n
  captured : Fin n → Option RegexMatch

namespace MatchCon

/-- The memory from `comp_value->ptr` on. -/
def mem (s : MatchCon n) : CondBuf → Bytes
  | .path => s.attrs.path.string ++ 0 :: s.pathRest
  | .tmpBuf => s.tmpBuf
  | ref => s.attrs.condBuf ref

/-- The connection just after `config_cond_cache_reset`. -/
def start (a : ConAttrs) (tmpBuf : Bytes) (s : CondState n) : MatchCon n :=
  ⟨a, tmpBuf, [], configCondCacheReset s, fun _ => none⟩

/-- The cache becomes `c`: a block that becomes decided captures, and one that is not decided any
more was reset. -/
def record (env : CondEnv) (t : ConfigTree n) (s : MatchCon n) (c : CondState n) : MatchCon n :=
  { s with
    cond := c
    captured := fun i =>
      if ¬ (c.cache i).Decided then none
      else if (s.cond.cache i).Decided then s.captured i
      else condMatch env s.attrs (t.data i) }

end MatchCon

/-- A comparison with the request method, which is copied to `con->tmp_buf` for it, gave a result.
-/
def MethodCompared (t : ConfigTree n) (c c' : Fin n → CondCache) : Prop :=
  ∃ i, (t.data i).comp = .httpRequestMethod ∧ (t.data i).cond ≠ .elseBranch ∧
    ¬ (c i).Decided ∧ (c' i).Decided

instance (t : ConfigTree n) (c c' : Fin n → CondCache) : Decidable (MethodCompared t c c') :=
  inferInstanceAs (Decidable (∃ _, _))

/-! ## The headers -/

/-- The value of the header `tag` is changed by `f`, or `v` is inserted. -/
def changeHeader (f : Buffer → Buffer) (tag v : Bytes) (headers : List (Bytes × Buffer)) :
    List (Bytes × Buffer) :=
  if headers.any fun h => CaseEq h.1 tag then
    headers.map fun h => if CaseEq h.1 tag then (h.1, f h.2) else h
  else headers ++ [(tag, some v)]

/-- `array_set_key_value` -/
def setHeader (tag v : Bytes) : List (Bytes × Buffer) → List (Bytes × Buffer) :=
  changeHeader (fun _ => some v) tag v

/-- `data_string_insert_dup` -/
def insertDup (v : Bytes) (b : Buffer) : Buffer :=
  some (match b with
    | none => v
    | some old => old ++ str ", " ++ v)

/-- `array_insert_unique` -/
def insertHeader (tag v : Bytes) : List (Bytes × Buffer) → List (Bytes × Buffer) :=
  changeHeader (insertDup v) tag v

section Headers

variable {f : Buffer → Buffer} {tag tag' v : Bytes} {headers : List (Bytes × Buffer)}

theorem find?_changeHeader (f : Buffer → Buffer) (tag tag' v : Bytes)
    (headers : List (Bytes × Buffer)) (hany : headers.any fun h => CaseEq h.1 tag) :
    (changeHeader f tag v headers).find? (fun h => CaseEq h.1 tag') =
      (headers.find? fun h => CaseEq h.1 tag').map fun h =>
        if CaseEq h.1 tag then (h.1, f h.2) else h := by
  rw [changeHeader, if_pos hany, List.find?_map]
  congr 2
  funext h
  dsimp only [Function.comp]
  split_ifs <;> rfl

theorem find?_changeHeader_of_ne (h : ¬ CaseEq tag tag') :
    (changeHeader f tag v headers).find? (fun h => CaseEq h.1 tag') =
      headers.find? fun h => CaseEq h.1 tag' := by
  by_cases hany : headers.any fun h => CaseEq h.1 tag
  · rw [find?_changeHeader f tag tag' v headers hany]
    cases hfind : headers.find? fun h => CaseEq h.1 tag' with
    | none => rfl
    | some header =>
      have htag : CaseEq header.1 tag' := by simpa using List.find?_some hfind
      have hne : ¬ CaseEq header.1 tag := fun htag' => h (htag'.symm.trans htag)
      rw [Option.map_some, if_neg hne]
  · have hnew : [(tag, (some v : Buffer))].find? (fun h => CaseEq h.1 tag') = none := by simp [h]
    rw [changeHeader, if_neg hany, List.find?_append, hnew, Option.or_none]

/-- A header with more behind its value, or one that was not there. -/
theorem exists_insertHeader (tag tag' v : Bytes) (headers : List (Bytes × Buffer)) :
    ∃ rest, (((insertHeader tag v headers).find? fun h => CaseEq h.1 tag').map fun h =>
        h.2.string).getD [] =
      ((headers.find? fun h => CaseEq h.1 tag').map fun h => h.2.string).getD [] ++ rest := by
  by_cases htag : CaseEq tag tag'
  · by_cases hany : headers.any fun h => CaseEq h.1 tag
    · rw [insertHeader, find?_changeHeader _ tag tag' v headers hany]
      cases hfind : headers.find? fun h => CaseEq h.1 tag' with
      | none => exact ⟨[], rfl⟩
      | some header =>
        have hheader : CaseEq header.1 tag' := by simpa using List.find?_some hfind
        rw [Option.map_some, if_pos (hheader.trans htag.symm)]
        cases hvalue : header.2 with
        | none => exact ⟨v, by simp [insertDup, hvalue, Buffer.string]⟩
        | some old => exact ⟨str ", " ++ v, by simp [insertDup, hvalue, Buffer.string]⟩
    · have hnone : headers.find? (fun h => CaseEq h.1 tag') = none := by
        rw [List.find?_eq_none]
        intro header hmem hheader
        refine hany (List.any_eq_true.mpr ⟨header, hmem, ?_⟩)
        simp only [decide_eq_true_eq] at hheader ⊢
        exact hheader.trans htag.symm
      rw [hnone]
      exact ⟨_, rfl⟩
  · rw [insertHeader, find?_changeHeader_of_ne htag]
    exact ⟨[], (List.append_nil _).symm⟩

end Headers

/-- What happens to the buffers and to the cache of a connection. -/
inductive ConStep (n : ℕ)
  /-- `config_check_cond` -/
  | check (dc : Fin n)
  /-- `config_cond_cache_reset_item` -/
  | resetItem (item : CompKey)
  /-- `http_response_prepare`, which resets the cache and builds the attributes anew -/
  | prepare (a : ConAttrs) (tmpBuf : Bytes)
  /-- `buffer_copy_string_len`: to `con->tmp_buf` in `mod_alias`, `mod_secdownload`, `mod_auth`, the
  splitting of path info and `http_cgi_headers`, to `con->uri.path` in `mod_indexfile` and
  `mod_cml`, to a header in `mod_setenv`, to any buffer in `mod_magnet` -/
  | write (ref : CondBuf) (b : Bytes)
  /-- `mod_indexfile` appends the name of the index file to `con->uri.path` -/
  | appendPath (b : Bytes)
  /-- `con->uri.path` is cut in front of the path info -/
  | cutPath (len : ℕ)
  /-- `array_insert_unique` on the request headers, in `mod_setenv` and `mod_proxy` -/
  | insertHeader (tag v : Bytes)
  /-- `mod_extforward_set_addr`, and the restoring of the address -/
  | setAddr (addr : SockAddr) (buf : Bytes)
  /-- `mod_extforward_set_proto` -/
  | setScheme (scheme : Bytes)

namespace MatchCon

/-- `b` is copied to a buffer. The other buffers are never copied to while there is a request. -/
def copyTo (s : MatchCon n) (b : Bytes) : CondBuf → MatchCon n
  | .authority => { s with attrs := { s.attrs with authority := some b } }
  | .dstAddrBuf => { s with attrs := { s.attrs with dstAddrBuf := some b } }
  | .scheme => { s with attrs := { s.attrs with scheme := some b } }
  | .path => { s with attrs := { s.attrs with path := some b }, pathRest := [] }
  | .query => { s with attrs := { s.attrs with query := some b } }
  | .header tag => { s with attrs := { s.attrs with headers := setHeader tag b s.attrs.headers } }
  | .tmpBuf => { s with tmpBuf := b }
  | _ => s

/-- `buffer_string_set_length` on `con->uri.path`: a NUL is written and the rest stays in memory. -/
def cutPath (s : MatchCon n) (len : ℕ) : MatchCon n :=
  let path := s.attrs.path.string
  if len < path.length then
    { s with
      attrs := { s.attrs with path := some (path.take len) }
      pathRest := path.drop (len + 1) ++ 0 :: s.pathRest }
  else s

/-- A step of the request. -/
def step (env : CondEnv) (t : ConfigTree n) (s : MatchCon n) : ConStep n → MatchCon n
  | .check dc =>
    let c := (configCheckCond env s.attrs t.toConfigContext s.cond dc).1
    let tmpBuf := if MethodCompared t s.cond.cache c.cache then s.attrs.httpMethod ++ [0]
      else s.tmpBuf
    { s.record env t c with tmpBuf := tmpBuf }
  | .resetItem item => s.record env t (configCondCacheResetItem t s.cond item)
  | .prepare a tmpBuf => start a tmpBuf s.cond
  | .write ref b => s.copyTo b ref
  | .appendPath b =>
    { s with attrs := { s.attrs with path := some (s.attrs.path.string ++ b) }, pathRest := [] }
  | .cutPath len => s.cutPath len
  | .insertHeader tag v =>
    { s with attrs := { s.attrs with headers := Lighttpd.insertHeader tag v s.attrs.headers } }
  | .setAddr addr buf =>
    let s := { s with attrs := { s.attrs with dstAddr := addr, dstAddrBuf := some buf } }
    s.record env t (configCondCacheResetItem t s.cond .httpRemoteIp)
  | .setScheme scheme =>
    let s := { s with attrs := { s.attrs with scheme := some scheme } }
    s.record env t (configCondCacheResetItem t s.cond .httpScheme)

/-- A run. -/
def run (env : CondEnv) (t : ConfigTree n) (s : MatchCon n) (steps : List (ConStep n)) :
    MatchCon n :=
  steps.foldl (step env t) s

/-- Text that is read through an entry of the cache is what the condition captured. -/
def CapturesValid (s : MatchCon n) : Prop :=
  ∀ i m, s.captured i = some m → ∀ ref, (s.cond.cache i).compValue = some ref →
    0 < (s.cond.cache i).patterncount → ∀ k : ℕ, (k : ℤ) < (s.cond.cache i).patterncount →
    condCapture (s.cond.cache i) s.mem k = some (m.capture k)

/-- The block has a match in the buffer, and was not reset. -/
def Live (s : MatchCon n) (i : Fin n) (ref : CondBuf) : Prop :=
  (s.cond.cache i).Decided ∧ (s.cond.cache i).compValue = some ref ∧
    0 < (s.cond.cache i).patterncount

/-- The block has a match in `con->uri.path` with captured text from `i` to `j`. -/
def LiveSpan (s : MatchCon n) (dc : Fin n) (i j : ℤ) : Prop :=
  s.Live dc .path ∧ ∃ k : ℕ, (k : ℤ) < (s.cond.cache dc).patterncount ∧
    (s.cond.cache dc).matchOffsets[2 * k]? = some i ∧
    (s.cond.cache dc).matchOffsets[2 * k + 1]? = some j

end MatchCon

/-- Both are the same buffer. -/
def CondBuf.SameBuf : CondBuf → CondBuf → Prop
  | .header tag, .header tag' => CaseEq tag tag'
  | ref, ref' => ref = ref'

/-- The step does not write to text that is captured: nothing is copied to a buffer with a match,
the path is not cut in captured text and not appended to in front of its end. -/
def StepOk (s : MatchCon n) : ConStep n → Prop
  | .write ref _ => ∀ i ref', s.Live i ref' → ¬ ref.SameBuf ref'
  | .cutPath len => len < s.attrs.path.string.length →
    ∀ dc i j, s.LiveSpan dc i j → ¬ (i ≤ len ∧ len < j)
  | .appendPath _ => ∀ dc i j, s.LiveSpan dc i j → j ≤ s.attrs.path.string.length
  | _ => True

/-- The offsets of a match are within its subject. -/
def RegexMatch.Documented (m : RegexMatch) : Prop :=
  ∀ k : ℕ, (k : ℤ) < m.count → ∃ i j, m.offsets[2 * k]? = some i ∧
    m.offsets[2 * k + 1]? = some j ∧ (i = -1 ∧ j = -1 ∨ 0 ≤ i ∧ i ≤ j ∧ j ≤ m.subject.length)

variable {s u x : Bytes} {i j : ℤ} {k : ℕ} {ref : CondBuf} {dc : DataConfig n}

theorem bytesBetween_append (h : bytesBetween s i j = some x) :
    bytesBetween (s ++ u) i j = some x := by
  unfold bytesBetween at h ⊢
  split_ifs at h with hempty hspan
  · rw [if_pos hempty]
    exact h
  · have hlen : (s ++ u).length = s.length + u.length := List.length_append
    rw [if_neg hempty, if_pos ⟨hspan.1, hspan.2.1, by omega⟩, ← h,
      List.drop_append_of_le_length (by omega), List.take_append_of_le_length]
    rw [List.length_drop]
    omega

theorem bytesBetween_of_append (h : bytesBetween (s ++ u) i j = some x) (hj : j ≤ s.length) :
    bytesBetween s i j = some x := by
  unfold bytesBetween at h ⊢
  split_ifs at h with hempty hspan
  · rw [if_pos hempty]
    exact h
  · rw [if_neg hempty, if_pos ⟨hspan.1, hspan.2.1, hj⟩, ← h,
      List.drop_append_of_le_length (by omega), List.take_append_of_le_length]
    rw [List.length_drop]
    omega

theorem bytesBetween_behind {c : UInt8} (h : bytesBetween (s ++ c :: u) i j = some x)
    (hi : s.length < i) (d : UInt8) : bytesBetween (s ++ d :: u) i j = some x := by
  have hdrop (e : UInt8) : (s ++ e :: u).drop i.toNat = u.drop (i.toNat - s.length - 1) := by
    rw [List.drop_append, List.drop_eq_nil_of_le (by omega), List.nil_append,
      show i.toNat - s.length = (i.toNat - s.length - 1) + 1 by omega, List.drop_succ_cons]
    rfl
  have hlen : (s ++ d :: u).length = (s ++ c :: u).length := by simp
  unfold bytesBetween at h ⊢
  rw [hdrop] at h ⊢
  rw [hlen]
  exact h

theorem RegexMatch.Documented.capture {m : RegexMatch} (h : m.Documented) (hk : (k : ℤ) < m.count) :
    ∃ i j, m.offsets[2 * k]? = some i ∧
      m.offsets[2 * k + 1]? = some j ∧ bytesBetween m.subject i j = some (m.capture k) := by
  obtain ⟨i, j, hi, hj, hij⟩ := h k hk
  refine ⟨i, j, hi, hj, ?_⟩
  obtain ⟨x, hx⟩ := Option.isSome_iff_exists.mp (bytesBetween_isSome hij)
  rw [RegexMatch.capture, if_pos hk, hi, Option.bind_some, hj, Option.bind_some, hx]
  rfl

theorem condCapture_of_compValue {e : CondCache} (h : e.compValue = some ref)
    (bufs : CondBuf → Bytes) (hi : e.matchOffsets[2 * k]? = some i)
    (hj : e.matchOffsets[2 * k + 1]? = some j) :
    condCapture e bufs k = bytesBetween (bufs ref) i j := by
  simp [condCapture, h, hi, hj]

/-- The key that has a condition compared with the buffer. -/
def CondBuf.comp : CondBuf → Option CompKey
  | .authority => some .httpHost
  | .condCheckBuf => some .httpHost
  | .emptyString => none
  | .dstAddrBuf => some .httpRemoteIp
  | .scheme => some .httpScheme
  | .path => some .httpUrl
  | .query => some .httpQueryString
  | .srvToken => some .serverSocket
  | .header _ => some .httpRequestHeader
  | .tmpBuf => some .httpRequestMethod

theorem comp_of_condSubject {env : CondEnv} {a : ConAttrs} {l : Buffer} (hregex : dc.isRegex)
    (h : condSubject env a dc = .buffer ref l) : ∀ K, ref.comp = some K → dc.comp = K := by
  have hcond : ¬ (dc.cond = .eq ∨ dc.cond = .ne) := by
    simp only [DataConfig.isRegex, decide_eq_true_eq] at hregex
    rcases hregex with h | h <;> simp [h]
  unfold condSubject at h
  cases hc : dc.comp with
  | httpHost =>
    rw [hc] at h
    dsimp only [hostSubject] at h
    split_ifs at h with hempty hport
    · cases h
      simp [CondBuf.comp]
    · exact absurd hport.1 hcond
    · cases h
      simp [CondBuf.comp]
  | httpRemoteIp =>
    rw [hc] at h
    dsimp only [remoteIpSubject] at h
    cases hslash : strchr dc.string.string 47 with
    | none =>
      rw [hslash] at h
      cases h
      simp [CondBuf.comp]
    | some nmSlash =>
      rw [hslash] at h
      dsimp only at h
      rw [if_neg hcond] at h
      cases h
      simp [CondBuf.comp]
  | httpRequestHeader =>
    rw [hc] at h
    dsimp only at h
    cases hfind : a.headers.find? fun h => CaseEq h.1 dc.compTag with
    | none =>
      rw [hfind] at h
      cases h
      simp [CondBuf.comp]
    | some header =>
      rw [hfind] at h
      cases h
      simp [CondBuf.comp]
  | httpScheme => rw [hc] at h; cases h; simp [CondBuf.comp]
  | httpUrl => rw [hc] at h; cases h; simp [CondBuf.comp]
  | httpQueryString => rw [hc] at h; cases h; simp [CondBuf.comp]
  | serverSocket => rw [hc] at h; cases h; simp [CondBuf.comp]
  | httpRequestMethod => rw [hc] at h; cases h; simp [CondBuf.comp]
  | _ => simp [hc] at h

/-! ## The invariant -/

/-- An entry whose block captured `m`: it has the count and the offsets, points to the buffer of its
key, and the captured text is there. What is in `con->tmp_buf` is the request method. -/
structure EntryInv (t : ConfigTree n) (s : MatchCon n) (i : Fin n) (m : RegexMatch) : Prop where
  decided : (s.cond.cache i).Decided
  count : (s.cond.cache i).patterncount = m.count
  offsets : (s.cond.cache i).matchOffsets = m.offsets
  documented : m.Documented
  ref : 0 < m.count → ∃ ref, (s.cond.cache i).compValue = some ref ∧
    (∀ K, ref.comp = some K → (t.data i).comp = K) ∧
    (ref = .tmpBuf → m.subject = s.attrs.httpMethod)
  reads : ∀ k : ℕ, (k : ℤ) < m.count →
    condCapture (s.cond.cache i) s.mem k = some (m.capture k)

/-- What every block captured is there. -/
def MatchInv (t : ConfigTree n) (s : MatchCon n) : Prop :=
  ∀ i m, s.captured i = some m → EntryInv t s i m

section Inv

variable {env : CondEnv} {t : ConfigTree n} {s s' : MatchCon n} {i : Fin n} {m : RegexMatch}

theorem MatchInv.capturesValid (h : MatchInv t s) : s.CapturesValid := by
  intro i m hm ref _ _ k hk
  have hi := h i m hm
  rw [hi.count] at hk
  exact hi.reads k hk

theorem EntryInv.live (h : EntryInv t s i m) (hpos : 0 < m.count) : ∃ ref, s.Live i ref := by
  obtain ⟨ref, href, -⟩ := h.ref hpos
  exact ⟨ref, h.decided, href, by rwa [h.count]⟩

theorem EntryInv.spans (h : EntryInv t s i m) (hk : (k : ℤ) < m.count) :
    ∃ ref j₁ j₂, s.Live i ref ∧ (s.cond.cache i).matchOffsets[2 * k]? = some j₁ ∧
      (s.cond.cache i).matchOffsets[2 * k + 1]? = some j₂ ∧
      bytesBetween (s.mem ref) j₁ j₂ = some (m.capture k) := by
  obtain ⟨ref, hlive⟩ := h.live (by omega)
  obtain ⟨j₁, j₂, h₁, h₂, -⟩ := h.documented k hk
  rw [← h.offsets] at h₁ h₂
  refine ⟨ref, j₁, j₂, hlive, h₁, h₂, ?_⟩
  rw [← condCapture_of_compValue hlive.2.1 s.mem h₁ h₂]
  exact h.reads k hk

/-- The entry stays good when the entry, the request method and the captured text stay. -/
theorem EntryInv.of_spans (h : EntryInv t s i m)
    (hslots : SameSlots (s.cond.cache i) (s'.cond.cache i))
    (hmethod : s'.attrs.httpMethod = s.attrs.httpMethod)
    (hspans : ∀ ref (k : ℕ) j₁ j₂, s.Live i ref → (k : ℤ) < m.count →
      (s.cond.cache i).matchOffsets[2 * k]? = some j₁ →
      (s.cond.cache i).matchOffsets[2 * k + 1]? = some j₂ →
      bytesBetween (s.mem ref) j₁ j₂ = some (m.capture k) →
      bytesBetween (s'.mem ref) j₁ j₂ = some (m.capture k)) : EntryInv t s' i m where
  decided := hslots.decided_iff.mpr h.decided
  count := hslots.1.trans h.count
  offsets := hslots.2.1.trans h.offsets
  documented := h.documented
  ref hpos := by
    rw [hslots.2.2.1, hmethod]
    exact h.ref hpos
  reads k hk := by
    obtain ⟨ref, j₁, j₂, hlive, h₁, h₂, hread⟩ := h.spans hk
    have hspan := hspans ref k j₁ j₂ hlive hk h₁ h₂ hread
    rw [← hslots.2.1] at h₁ h₂
    have href := hlive.2.1
    rw [← hslots.2.2.1] at href
    rw [condCapture_of_compValue href _ h₁ h₂, hspan]

/-- A buffer that starts with the subject of the match has all of the captured text. -/
theorem RegexMatch.Documented.reads (h : m.Documented) {e : CondCache}
    (ho : e.matchOffsets = m.offsets) (href : e.compValue = some ref) {bufs : CondBuf → Bytes}
    {rest : Bytes} (hbuf : bufs ref = m.subject ++ rest) (hk : (k : ℤ) < m.count) :
    condCapture e bufs k = some (m.capture k) := by
  obtain ⟨j₁, j₂, h₁, h₂, hread⟩ := h.capture hk
  rw [← ho] at h₁ h₂
  rw [condCapture_of_compValue href _ h₁ h₂, hbuf]
  exact bytesBetween_append hread

theorem MatchInv.resetItem (h : MatchInv t s) (s' : MatchCon n) (item : CompKey)
    (hmem : ∀ ref, ref.comp ≠ some item → s'.mem ref = s.mem ref)
    (hcond : s'.cond = s.cond) (hcaptured : s'.captured = s.captured)
    (hmethod : s'.attrs.httpMethod = s.attrs.httpMethod) :
    MatchInv t (s'.record env t (configCondCacheResetItem t s'.cond item)) := by
  intro i m hm
  obtain ⟨hother, hsame⟩ := configCondCacheResetItem_kept (t := t) s'.cond item i
  simp only [MatchCon.record] at hm
  split_ifs at hm with hnew hold
  · have hne : (t.data i).comp ≠ item := fun heq => hsame heq (by simpa using hnew)
    have hslots := hother hne
    rw [hcond] at hslots
    have hi := h i m (by rw [← hcaptured]; exact hm)
    refine hi.of_spans (by rw [hcond] at *; exact hslots) hmethod
      fun ref k j₁ j₂ hlive hk h₁ h₂ hread => ?_
    have href : ref.comp ≠ some item := by
      intro hcomp
      obtain ⟨ref', href', hkey, -⟩ := hi.ref (by omega)
      obtain rfl := Option.some.inj (hlive.2.1.symm.trans href')
      exact hne (hkey item hcomp)
    change bytesBetween (s'.mem ref) j₁ j₂ = some (m.capture k)
    rw [hmem ref href]
    exact hread
  · have hne : (t.data i).comp ≠ item := fun heq => hsame heq (by simpa using hnew)
    exact absurd ((hother hne).decided_iff.mp (by simpa using hnew)) hold

theorem condMatch_eq_some {a : ConAttrs} (h : condMatch env a dc = some m) :
    dc.isRegex ∧ ∃ ref l, condSubject env a dc = .buffer ref l ∧ m.subject = l.string ∧
      a.condBuf ref = l.string ∧ (m.count, m.offsets) = env.pcreExec dc.string.string l.string := by
  unfold condMatch at h
  cases hsub : condSubject env a dc with
  | result r =>
    rw [hsub] at h
    cases h
  | buffer ref l =>
    rw [hsub] at h
    dsimp only at h
    split_ifs at h with hregex
    cases h
    have hbuf := condSubject_of_isRegex env a hregex
    split_ifs at hbuf with hkey
    · obtain ⟨ref', l', hsub', hcontent⟩ := hbuf
      rw [hsub] at hsub'
      cases hsub'
      exact ⟨hregex, ref, l, rfl, rfl, hcontent, rfl⟩
    · rw [hsub] at hbuf
      cases hbuf

theorem cond_ne_else_of_isRegex (h : dc.isRegex) : dc.cond ≠ .elseBranch := by
  rintro helse
  simp [DataConfig.isRegex, helse] at h

theorem MatchInv.check (hpcre : PcreDocumented env.pcreExec) (h : MatchInv t s) (dc : Fin n) :
    MatchInv t (s.step env t (.check dc)) := by
  intro i m hm
  have hkept := configCheckCondCached_kept env s.attrs t.toConfigContext dc s.cond i
  simp only [MatchCon.step, MatchCon.record] at hm
  split_ifs at hm with hnew hold
  · -- decided before: what is copied to `con->tmp_buf` is the method it has matched
    have hi := h i m hm
    refine hi.of_spans (hkept.same hold) rfl fun ref k j₁ j₂ hlive hk h₁ h₂ hread => ?_
    by_cases htmp : ref = .tmpBuf
    · subst htmp
      have hsubject : m.subject = s.attrs.httpMethod := by
        obtain ⟨ref', href', -, hmethod⟩ := hi.ref (by omega)
        exact hmethod (Option.some.inj (href'.symm.trans hlive.2.1))
      simp only [MatchCon.step, MatchCon.mem]
      split_ifs with hcompared
      · rw [← hsubject]
        obtain ⟨i₁, i₂, g₁, g₂, hcapture⟩ := hi.documented.capture hk
        rw [← hi.offsets, h₁] at g₁
        rw [← hi.offsets, h₂] at g₂
        cases g₁
        cases g₂
        exact bytesBetween_append hcapture
      · exact hread
    · have hmem : (s.step env t (.check dc)).mem ref = s.mem ref := by
        cases ref <;> first | rfl | exact absurd rfl htmp
      rw [hmem]
      exact hread
  · -- decided by this check
    obtain ⟨hregex, ref, l, hsub, hsubject, hcontent, hexec⟩ := condMatch_eq_some hm
    obtain ⟨hslots, href⟩ := hkept.matched hold hnew hregex ref l hsub
    rw [← hexec] at hslots
    obtain ⟨hcount, hoffsets⟩ := Prod.mk.inj hslots
    obtain ⟨hcount', hoffsets'⟩ := Prod.mk.inj hexec
    have hdocumented : m.Documented := fun k hk => by
      rw [hsubject, hoffsets']
      exact hpcre.offsets _ _ k (hcount' ▸ hk)
    have hkey := comp_of_condSubject hregex hsub
    have hbuf : ∃ rest, (s.step env t (.check dc)).mem ref = m.subject ++ rest := by
      rw [hsubject, ← hcontent]
      cases ref with
      | path => exact ⟨0 :: s.pathRest, rfl⟩
      | tmpBuf =>
        have hcompared : MethodCompared t s.cond.cache
            (configCheckCond env s.attrs t.toConfigContext s.cond dc).1.cache :=
          ⟨i, hkey _ rfl, cond_ne_else_of_isRegex hregex, hold, hnew⟩
        refine ⟨[0], ?_⟩
        simp only [MatchCon.step, MatchCon.mem]
        rw [if_pos hcompared]
        rfl
      | _ => exact ⟨[], (List.append_nil _).symm⟩
    obtain ⟨rest, hbuf⟩ := hbuf
    refine ⟨hnew, hcount, hoffsets, hdocumented, fun hpos => ⟨ref, href (hcount ▸ hpos), hkey, ?_⟩,
      fun k hk => hdocumented.reads hoffsets (href (by rw [hcount]; omega)) hbuf hk⟩
    rintro rfl
    rw [hsubject, ← hcontent]
    rfl

/-! ## Writes -/

theorem mem_copyTo {ref' : CondBuf} (b : Bytes) (h : ¬ ref.SameBuf ref') :
    (s.copyTo b ref).mem ref' = s.mem ref' := by
  cases ref with
  | header tag =>
    cases ref' with
    | header tag' =>
      simp only [MatchCon.copyTo, MatchCon.mem, ConAttrs.condBuf, setHeader]
      rw [find?_changeHeader_of_ne h]
    | _ => rfl
  | _ => cases ref' <;> first | rfl | exact absurd rfl h

theorem MatchInv.write (h : MatchInv t s) {b : Bytes} (hok : StepOk s (.write ref b)) :
    MatchInv t (s.step env t (.write ref b)) := by
  intro i m hm
  have hsame : (s.copyTo b ref).cond = s.cond ∧ (s.copyTo b ref).captured = s.captured ∧
      (s.copyTo b ref).attrs.httpMethod = s.attrs.httpMethod := by
    cases ref <;> exact ⟨rfl, rfl, rfl⟩
  have hi := h i m (hsame.2.1 ▸ hm)
  change EntryInv t (s.copyTo b ref) i m
  refine hi.of_spans (by rw [hsame.1]; exact .refl _) hsame.2.2
    fun ref' k j₁ j₂ hlive hk h₁ h₂ hread => ?_
  rw [mem_copyTo b (hok i ref' hlive)]
  exact hread

theorem EntryInv.of_append (h : EntryInv t s i m) (hcond : s'.cond = s.cond)
    (hmethod : s'.attrs.httpMethod = s.attrs.httpMethod)
    (hmem : ∀ ref, ∃ rest, s'.mem ref = s.mem ref ++ rest) : EntryInv t s' i m := by
  refine h.of_spans (by rw [hcond]; exact .refl _) hmethod fun ref k j₁ j₂ _ _ _ _ hread => ?_
  obtain ⟨rest, hrest⟩ := hmem ref
  rw [hrest]
  exact bytesBetween_append hread

theorem MatchInv.insertHeader (h : MatchInv t s) (tag v : Bytes) :
    MatchInv t (s.step env t (.insertHeader tag v)) := by
  intro i m hm
  refine (h i m hm).of_append rfl rfl fun ref => ?_
  cases ref with
  | header tag' =>
    simp only [MatchCon.step, MatchCon.mem, ConAttrs.condBuf]
    exact exists_insertHeader tag tag' v s.attrs.headers
  | _ => exact ⟨[], (List.append_nil _).symm⟩

/-- A match in the path ends in front of the end of the path. -/
theorem MatchInv.appendPath (h : MatchInv t s) {b : Bytes} (hok : StepOk s (.appendPath b)) :
    MatchInv t (s.step env t (.appendPath b)) := by
  intro i m hm
  refine (h i m hm).of_spans (.refl _) rfl fun ref k j₁ j₂ hlive hk h₁ h₂ hread => ?_
  cases ref with
  | path =>
    have hend := hok i j₁ j₂ ⟨hlive, k, by rw [(h i m hm).count]; exact hk, h₁, h₂⟩
    have hpath := bytesBetween_of_append hread hend
    exact bytesBetween_append (bytesBetween_append hpath)
  | _ => exact hread

theorem MatchInv.cutPath (h : MatchInv t s) {len : ℕ} (hok : StepOk s (.cutPath len)) :
    MatchInv t (s.step env t (.cutPath len)) := by
  by_cases hlen : len < s.attrs.path.string.length
  · have hcut : s.step env t (.cutPath len) =
        { s with
          attrs := { s.attrs with path := some (s.attrs.path.string.take len) }
          pathRest := s.attrs.path.string.drop (len + 1) ++ 0 :: s.pathRest } := if_pos hlen
    have hold : s.mem .path = s.attrs.path.string.take len ++
        s.attrs.path.string[len] :: (s.attrs.path.string.drop (len + 1) ++ 0 :: s.pathRest) := by
      rw [← List.cons_append, ← List.drop_eq_getElem_cons, ← List.append_assoc,
        List.take_append_drop]
      rfl
    have htake : (s.attrs.path.string.take len).length = len := by
      rw [List.length_take]
      omega
    rw [hcut]
    intro i m hm
    refine (h i m hm).of_spans (.refl _) rfl fun ref k j₁ j₂ hlive hk h₁ h₂ hread => ?_
    cases ref with
    | path =>
      have houtside := hok hlen i j₁ j₂ ⟨hlive, k, by rw [(h i m hm).count]; exact hk, h₁, h₂⟩
      rw [hold] at hread
      change bytesBetween (s.attrs.path.string.take len ++
        0 :: (s.attrs.path.string.drop (len + 1) ++ 0 :: s.pathRest)) j₁ j₂ = some (m.capture k)
      by_cases hend : j₂ ≤ len
      · exact bytesBetween_append (bytesBetween_of_append hread (by rw [htake]; exact hend))
      · exact bytesBetween_behind hread (by rw [htake]; omega) 0
    | _ => exact hread
  · have hsame : s.step env t (.cutPath len) = s := if_neg hlen
    rw [hsame]
    exact h

/-- A step that does not write to captured text keeps the invariant. -/
theorem MatchInv.step (hpcre : PcreDocumented env.pcreExec) (h : MatchInv t s) {c : ConStep n}
    (hok : StepOk s c) : MatchInv t (s.step env t c) := by
  cases c with
  | check dc => exact h.check hpcre dc
  | resetItem item => exact h.resetItem s item (fun _ _ => rfl) rfl rfl rfl
  | prepare a tmpBuf => exact fun i m hm => by cases hm
  | write ref b => exact h.write hok
  | appendPath b => exact h.appendPath hok
  | cutPath len => exact h.cutPath hok
  | insertHeader tag v => exact h.insertHeader tag v
  | setAddr addr buf =>
    refine h.resetItem
      { s with attrs := { s.attrs with dstAddr := addr, dstAddrBuf := some buf } }
      .httpRemoteIp ?_ rfl rfl rfl
    intro ref href
    cases ref <;> first | rfl | exact absurd rfl href
  | setScheme scheme =>
    refine h.resetItem { s with attrs := { s.attrs with scheme := some scheme } }
      .httpScheme ?_ rfl rfl rfl
    intro ref href
    cases ref <;> first | rfl | exact absurd rfl href

theorem matchInv_start (a : ConAttrs) (tmpBuf : Bytes) (c : CondState n) :
    MatchInv t (.start a tmpBuf c) := fun i m hm => by cases hm

theorem matchInv_run (hpcre : PcreDocumented env.pcreExec) (h : MatchInv t s)
    (steps : List (ConStep n))
    (hok : ∀ pre c post, steps = pre ++ c :: post → StepOk (s.run env t pre) c) :
    MatchInv t (s.run env t steps) := by
  induction steps using List.reverseRecOn with
  | nil => exact h
  | append_singleton steps c ih =>
    have hsteps := ih fun pre c' post heq => hok pre c' (post ++ [c]) (by rw [heq]; simp)
    rw [MatchCon.run, List.foldl_append]
    exact hsteps.step hpcre (hok steps c [] rfl)

end Inv

/-- In a run that does not write to captured text, captured text stays as it was in every state. -/
theorem capturesValid_of_stepsOk {env : CondEnv} (hpcre : PcreDocumented env.pcreExec)
    (t : ConfigTree n) (a : ConAttrs) (tmpBuf : Bytes) (c : CondState n)
    (steps : List (ConStep n))
    (hok : ∀ pre step post, steps = pre ++ step :: post →
      StepOk ((MatchCon.start a tmpBuf c).run env t pre) step) :
    ∀ pre post, steps = pre ++ post →
      ((MatchCon.start a tmpBuf c).run env t pre).CapturesValid := by
  intro pre post hsteps
  refine MatchInv.capturesValid
    (matchInv_run hpcre (matchInv_start a tmpBuf c) pre fun pre' step post' heq => ?_)
  exact hok pre' step (post' ++ post) (by rw [hsteps, heq]; simp)

/-- A block on the methods `GET` and `HEAD`. -/
def methodTree : ConfigTree 2 where
  data i :=
    if i.val = 0 then ⟨.unset, [], .unset, none, none, none, none, [⟨1, Nat.one_lt_two⟩]⟩
    else ⟨.httpRequestMethod, [], .regexMatch, some (str "^(GET|HEAD)$"),
      some ⟨0, Nat.two_pos⟩, none, none, []⟩
  parent_lt {i p} := by revert i p; decide
  prev_lt {i q} := by revert i q; decide
  next_iff {i j} := by revert i j; decide
  prev_parent {i q} := by revert i q; decide
  children_iff {i j} := by revert i j; decide
  cond_ne_unset {i} := by revert i; decide

/-- What the expression of `methodTree` gives on `GET`, and on what it does not match. -/
def methodEnv : CondEnv where
  toAddrLib := .noAddress
  pcreExec _ s :=
    if s = str "GET" then (2, [0, 3, 0, 3] ++ List.replicate 26 (-1))
    else (-1, List.replicate 30 (-1))

theorem methodEnv_documented : PcreDocumented methodEnv.pcreExec where
  count re s := by
    simp only [methodEnv]
    split_ifs <;> simp
  offsets re s k hk := by
    simp only [methodEnv] at hk ⊢
    split_ifs at hk ⊢ with hs
    · subst hs
      have hk : k = 0 ∨ k = 1 := by
        simp only at hk
        omega
      rcases hk with rfl | rfl
      · exact ⟨0, 3, rfl, rfl, by decide⟩
      · exact ⟨0, 3, rfl, rfl, by decide⟩
    · simp only at hk
      omega

/-- The connection of a request for `/x/nofile`. -/
def methodStart : MatchCon 2 :=
  .start (requestAttrs (str "example") (str "/x/nofile") [.httpRequestMethod]) [] (emptyState 2)

theorem methodStart_check :
    ((methodStart.step methodEnv methodTree (.check 1)).cond.cache 1) =
      ⟨.true, .true, 2, [0, 3, 0, 3] ++ List.replicate 26 (-1), some .tmpBuf⟩ := by
  have henc : methodTree.enclosing 1 = none := rfl
  have hprev : (methodTree.data 1).prev = none := rfl
  simp only [MatchCon.step, MatchCon.record, configCheckCond]
  rw [configCheckCondCached_of_unset rfl, configCheckCondNocache_of_none henc,
    checkPrev_of_none hprev]
  rfl

/-- `con->tmp_buf` is written to before the condition is evaluated. -/
theorem capturesValid_of_stepsOk_method :
    (methodStart.run methodEnv methodTree
      [.write .tmpBuf (str "/srv"), .check 1]).CapturesValid := by
  refine capturesValid_of_stepsOk methodEnv_documented methodTree _ _ _ _ ?_ _ []
    (List.append_nil _).symm
  intro pre step post hsteps
  rcases pre with _ | ⟨c, pre⟩
  · cases hsteps
    rintro i ref ⟨hdecided, -⟩
    exact absurd hdecided (by simp [CondCache.Decided, MatchCon.run, MatchCon.start,
      configCondCacheReset, CondCache.cleared])
  · have hmem : step ∈ [ConStep.check (n := 2) 1] := by
      rw [(List.cons.inj hsteps).2]
      simp
    rw [List.mem_singleton.mp hmem]
    trivial

/-- `mod_alias` writes the path of the file to `con->tmp_buf`. -/
theorem not_capturesValid :
    ¬ ∀ (n : ℕ) (env : CondEnv) (t : ConfigTree n) (a : ConAttrs) (tmpBuf : Bytes)
      (c : CondState n) (steps : List (ConStep n)), PcreDocumented env.pcreExec →
        ((MatchCon.start a tmpBuf c).run env t steps).CapturesValid := by
  intro h
  have hvalid := h 2 methodEnv methodTree
    (requestAttrs (str "example") (str "/x/nofile") [.httpRequestMethod]) [] (emptyState 2)
    [.check 1, .write .tmpBuf (str "/srv/x/nofile")] methodEnv_documented
  have hcache := methodStart_check
  have hcaptured : (methodStart.step methodEnv methodTree (.check 1)).captured 1 =
      some ⟨str "GET", 2, [0, 3, 0, 3] ++ List.replicate 26 (-1)⟩ := by
    have hdecided : ((methodStart.step methodEnv methodTree (.check 1)).cond.cache 1).Decided := by
      rw [hcache]
      exact Or.inl rfl
    simp only [MatchCon.step, MatchCon.record] at hdecided ⊢
    rw [if_neg (not_not.mpr hdecided)]
    rfl
  have hread := hvalid 1 _ hcaptured .tmpBuf (congrArg CondCache.compValue hcache)
    (by exact lt_of_lt_of_eq (by decide) (congrArg CondCache.patterncount hcache).symm) 0
    (by exact lt_of_lt_of_eq (by decide) (congrArg CondCache.patterncount hcache).symm)
  have hcond : ((methodStart.run methodEnv methodTree
      [.check 1, .write .tmpBuf (str "/srv/x/nofile")]).cond.cache 1) =
        ⟨.true, .true, 2, [0, 3, 0, 3] ++ List.replicate 26 (-1), some .tmpBuf⟩ := hcache
  rw [← methodStart, hcond] at hread
  exact absurd hread (by decide)

end Lighttpd
