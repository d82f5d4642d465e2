import Lighttpd.ConfigCache
import Lighttpd.RegexSubst

/-!
# What the cache knows of a match

A condition on an expression leaves the return code and the vector of `pcre_exec` in its entry of
the cache, and a pointer to the subject when something matched. Once the condition is decided these
are what `pcre_exec` gives now (`Reachable.matched`), so the back-references of a rule in the block
read captured text, with one exception : a `!~` that is true because nothing matched leaves a
negative count behind (`pcreKeyvalueBufferSubst_iff`).
-/

namespace Lighttpd

open CString

variable {n : ℕ}

/-! ## The match of a block -/

/-- What `pcre_exec` gave on a subject. -/
structure RegexMatch where
  subject : Bytes
  count : ℤ
  offsets : List ℤ

/-- The `k`-th substring; empty when the group took no part in the match. -/
def RegexMatch.capture (m : RegexMatch) (k : ℕ) : Bytes :=
  if (k : ℤ) < m.count then
    ((m.offsets[2 * k]?).bind fun i => (m.offsets[2 * k + 1]?).bind fun j =>
      bytesBetween m.subject i j).getD []
  else []

/-- The condition is on an expression. -/
def DataConfig.isRegex (dc : DataConfig n) : Bool :=
  dc.cond = .regexMatch ∨ dc.cond = .regexNomatch

/-- The match of the block's expression with what it is compared with now. -/
def condMatch (env : CondEnv) (a : ConAttrs) (dc : DataConfig n) : Option RegexMatch :=
  match condSubject env a dc with
  | .buffer _ l =>
    let m := env.pcreExec dc.string.string l.string
    if dc.isRegex then some ⟨l.string, m.1, m.2⟩ else none
  | .result _ => none

/-- What is in the buffers that a condition may be compared with. -/
def ConAttrs.condBuf (a : ConAttrs) : CondBuf → Bytes
  | .authority => a.authority.string
  | .condCheckBuf => []
  | .emptyString => []
  | .dstAddrBuf => a.dstAddrBuf.string
  | .scheme => a.scheme.string
  | .path => a.path.string
  | .query => a.query.string
  | .srvToken => a.srvToken.string
  | .header tag => ((a.headers.find? fun h => CaseEq h.1 tag).map fun h => h.2.string).getD []
  | .tmpBuf => a.httpMethod

/-- The comparison reads a buffer and not a result. -/
def CompKey.hasBuffer : CompKey → Bool
  | .serverSocket => true
  | .httpUrl => true
  | .httpHost => true
  | .httpRemoteIp => true
  | .httpQueryString => true
  | .httpScheme => true
  | .httpRequestMethod => true
  | .httpRequestHeader => true
  | _ => false

variable {dc : DataConfig n} {env : CondEnv} {a : ConAttrs} {e : CondCache}

theorem condSubject_of_isRegex (env : CondEnv) (a : ConAttrs) (h : dc.isRegex) :
    if dc.comp.hasBuffer then
      ∃ ref l, condSubject env a dc = .buffer ref l ∧ a.condBuf ref = l.string
    else condSubject env a dc = .result .false := by
  have hcond : ¬ (dc.cond = .eq ∨ dc.cond = .ne) := by
    simp only [DataConfig.isRegex, decide_eq_true_eq] at h
    rcases h with h | h <;> simp [h]
  unfold condSubject
  cases dc.comp with
  | httpHost =>
    simp only [CompKey.hasBuffer, if_true, hostSubject]
    split_ifs with hempty hport
    · exact ⟨_, _, rfl, rfl⟩
    · exact absurd hport.1 hcond
    · exact ⟨_, _, rfl, rfl⟩
  | httpRemoteIp =>
    simp only [CompKey.hasBuffer, if_true, remoteIpSubject]
    cases strchr dc.string.string 47 with
    | none => exact ⟨_, _, rfl, rfl⟩
    | some nmSlash =>
      dsimp only
      rw [if_neg hcond]
      exact ⟨_, _, rfl, rfl⟩
  | httpRequestHeader =>
    simp only [CompKey.hasBuffer, if_true]
    cases hfind : a.headers.find? fun h => CaseEq h.1 dc.compTag with
    | none => exact ⟨_, _, rfl, rfl⟩
    | some h =>
      refine ⟨_, _, rfl, ?_⟩
      simp only [ConAttrs.condBuf, hfind]
      rfl
  | httpScheme => exact ⟨_, _, rfl, rfl⟩
  | httpUrl => exact ⟨_, _, rfl, rfl⟩
  | httpQueryString => exact ⟨_, _, rfl, rfl⟩
  | serverSocket => exact ⟨_, _, rfl, rfl⟩
  | httpRequestMethod => exact ⟨_, _, rfl, rfl⟩
  | _ => rfl

/-- The entry has the match of the block as it is now. -/
def Matched (env : CondEnv) (a : ConAttrs) (dc : DataConfig n) (e : CondCache) : Prop :=
  dc.isRegex → ∀ ref l, condSubject env a dc = .buffer ref l →
    (e.patterncount, e.matchOffsets) = env.pcreExec dc.string.string l.string ∧
      (0 < e.patterncount → e.compValue = some ref)

/-- A block that never calls `pcre_exec` has no count, and one that is decided the match as it is
now. -/
structure SlotsOk (env : CondEnv) (a : ConAttrs) (dc : DataConfig n) (e : CondCache) : Prop where
  idle : ¬ (dc.isRegex ∧ dc.comp.hasBuffer) → e.patterncount = 0
  known : e.result = .true ∨ e.result = .false → e.localResult ≠ .unset
  decided : e.localResult ≠ .unset → Matched env a dc e

theorem compareBuffer_matched {ref : CondBuf} {l : Buffer}
    (hsub : condSubject env a dc = .buffer ref l) (e : CondCache) (result : CondResult) :
    Matched env a dc (compareBuffer env dc ref l e result).1 := by
  intro hregex ref' l' hsub'
  rw [hsub] at hsub'
  obtain ⟨rfl, rfl⟩ := CondSubject.buffer.inj hsub'
  simp only [DataConfig.isRegex, decide_eq_true_eq] at hregex
  unfold compareBuffer
  rcases hregex with hc | hc
  · simp only [hc]
    split_ifs with hpos
    · exact ⟨rfl, fun _ => rfl⟩
    · exact ⟨rfl, fun h => absurd h hpos⟩
  · simp only [hc]
    split_ifs with hpos
    · exact ⟨rfl, fun _ => rfl⟩
    · exact ⟨rfl, fun h => absurd h hpos⟩

theorem compareBuffer_idle (h : ¬ dc.isRegex) (ref : CondBuf) (l : Buffer) (e : CondCache)
    (result : CondResult) : (compareBuffer env dc ref l e result).1 = e := by
  unfold compareBuffer
  simp only [DataConfig.isRegex, decide_eq_true_eq, not_or] at h
  cases hc : dc.cond with
  | regexMatch => exact absurd hc h.1
  | regexNomatch => exact absurd hc h.2
  | _ => rfl

/-- The own comparison keeps the entry good, and leaves the match when it decides. -/
theorem checkOwn_slots (h : SlotsOk env a dc e) (result : CondResult) :
    SlotsOk env a dc (checkOwn env a dc e result).1 ∧
      ((checkOwn env a dc e result).2 = .true ∨ (checkOwn env a dc e result).2 = .false →
        Matched env a dc (checkOwn env a dc e result).1) := by
  unfold checkOwn
  by_cases hvalid : a.conditionalIsValid dc.comp
  · rw [if_neg (not_not.mpr hvalid)]
    by_cases hlocal : e.localResult = .true ∨ e.localResult = .false
    · rw [if_pos hlocal]
      exact ⟨h, fun _ => h.decided (by rcases hlocal with hl | hl <;> simp [hl])⟩
    rw [if_neg hlocal]
    by_cases helse : dc.cond = .elseBranch
    · rw [if_pos helse]
      exact ⟨h, fun _ hregex => by simp [DataConfig.isRegex, helse] at hregex⟩
    rw [if_neg helse]
    cases hsub : condSubject env a dc with
    | result r => exact ⟨h, fun _ _ ref l hsub' => by simp [hsub] at hsub'⟩
    | buffer ref l =>
      have hm := compareBuffer_matched hsub e result
      obtain ⟨hresult, hlocal'⟩ := compareBuffer_fst env dc ref l e result
      refine ⟨⟨fun hidle => ?_, ?_, fun _ => hm⟩, fun _ => hm⟩
      swap
      · dsimp only
        rw [hresult, hlocal']
        exact h.known
      by_cases hregex : dc.isRegex
      · have hbuf := condSubject_of_isRegex env a hregex
        rw [if_neg (by simpa [hregex] using hidle), hsub] at hbuf
        cases hbuf
      · dsimp only
        rw [compareBuffer_idle hregex]
        exact h.idle hidle
  · rw [if_pos hvalid]
    exact ⟨h, by simp⟩

/-- Every entry is good. -/
def AllSlots (env : CondEnv) (a : ConAttrs) (t : ConfigContext n) (c : Fin n → CondCache) : Prop :=
  ∀ i, SlotsOk env a (t.data i) (c i)

/-- After a check of `dc` with the result `r` every entry is good, and the one of `dc` has the match
when `r` decides. -/
structure SlotsSpec (env : CondEnv) (a : ConAttrs) (t : ConfigContext n) (dc : Fin n)
    (r : CondState n × CondResult) : Prop where
  all : AllSlots env a t r.1.cache
  matched : r.2 = .true ∨ r.2 = .false → Matched env a (t.data dc) (r.1.cache dc)

section

variable {env : CondEnv} {a : ConAttrs} {t : ConfigContext n} {s : CondState n} {dc : Fin n}

theorem AllSlots.update {c : Fin n → CondCache} (h : AllSlots env a t c)
    (he : SlotsOk env a (t.data dc) e) : AllSlots env a t (Function.update c dc e) := fun i => by
  by_cases hi : i = dc
  · subst hi
    rwa [Function.update_self]
  · rw [Function.update_of_ne hi]
    exact h i

theorem finishCheck_slots (h : AllSlots env a t s.cache) (result : CondResult) :
    SlotsSpec env a t dc (finishCheck env a t s dc result) := by
  obtain ⟨hok, hm⟩ := checkOwn_slots (h dc) result
  refine ⟨h.update hok, fun hr => ?_⟩
  simp only [finishCheck, cache_confcacheUnlock, Function.update_self]
  exact hm hr

theorem checkPrev_slots (h : AllSlots env a t s.cache) (result : CondResult)
    (ih : ∀ q < dc, AllSlots env a t (configCheckCondCached env a t s q).1.cache) :
    SlotsSpec env a t dc (checkPrev env a t s dc result) := by
  cases hprev : (t.data dc).prev with
  | none =>
    rw [checkPrev_of_none hprev]
    exact finishCheck_slots h result
  | some q =>
    have hq := ih q (t.prev_lt hprev)
    rw [checkPrev_of_some hprev]
    cases (configCheckCondCached env a t s q).2 with
    | false => exact finishCheck_slots hq result
    | _ => exact ⟨hq, by simp⟩

theorem configCheckCondNocache_slots (h : AllSlots env a t s.cache)
    (ih : ∀ g < dc, ∀ s, AllSlots env a t s.cache →
      AllSlots env a t (configCheckCondCached env a t s g).1.cache) :
    SlotsSpec env a t dc (configCheckCondNocache env a t s dc) := by
  have hlock : AllSlots env a t (confcacheLock s).cache := h
  cases henc : t.enclosing dc with
  | none =>
    rw [configCheckCondNocache_of_none henc]
    exact checkPrev_slots hlock _ fun q hq => ih q hq _ hlock
  | some p =>
    have hp := ih p (ConfigContext.enclosing_lt henc) _ hlock
    rw [configCheckCondNocache_of_some henc]
    cases (configCheckCondCached env a t (confcacheLock s) p).2 with
    | unset => exact ⟨hp, by simp⟩
    | _ => exact checkPrev_slots hp _ fun q hq => ih q hq _ hp

theorem storeResult_slots {result : CondResult} (h : AllSlots env a t s.cache)
    (hm : result = .true ∨ result = .false → Matched env a (t.data dc) (s.cache dc)) :
    AllSlots env a t (storeResult s dc result).cache := by
  refine h.update ⟨(h dc).idle, fun hr => ?_, fun hlocal => ?_⟩
  · dsimp only at hr ⊢
    rw [if_pos hr]
    rcases hr with rfl | rfl <;> simp
  · dsimp only at hlocal
    split_ifs at hlocal with hr
    · exact hm hr
    · exact (h dc).decided hlocal

end

theorem configCheckCondCached_slots {t : ConfigContext n} (dc : Fin n) (s : CondState n)
    (h : AllSlots env a t s.cache) :
    AllSlots env a t (configCheckCondCached env a t s dc).1.cache := by
  by_cases hunset : (s.cache dc).result = .unset
  · have hspec : SlotsSpec env a t dc (configCheckCondNocache env a t s dc) :=
      configCheckCondNocache_slots h fun g _ s' h' => configCheckCondCached_slots g s' h'
    rw [configCheckCondCached_of_unset hunset]
    exact storeResult_slots hspec.all hspec.matched
  · rw [configCheckCondCached_of_ne hunset]
    exact h
termination_by dc.val

/-! ## Resetting an item -/

/-- What `pcre_exec` left in an entry, and the result of the own comparison, are the same in both. -/
def SameSlots (e e' : CondCache) : Prop :=
  e'.patterncount = e.patterncount ∧ e'.matchOffsets = e.matchOffsets ∧
    e'.compValue = e.compValue ∧ e'.localResult = e.localResult

theorem SameSlots.refl (e : CondCache) : SameSlots e e := ⟨rfl, rfl, rfl, rfl⟩

theorem SameSlots.trans {e e' e'' : CondCache} (h : SameSlots e e') (h' : SameSlots e' e'') :
    SameSlots e e'' :=
  ⟨h'.1.trans h.1, h'.2.1.trans h.2.1, h'.2.2.1.trans h.2.2.1, h'.2.2.2.trans h.2.2.2⟩

theorem update_sameSlots {c : Fin n → CondCache} {dc : Fin n} (h : SameSlots (c dc) e) (i : Fin n) :
    SameSlots (c i) (Function.update c dc e i) := by
  by_cases hi : i = dc
  · subst hi
    rwa [Function.update_self]
  · rw [Function.update_of_ne hi]
    exact .refl _

section

variable {t : ConfigTree n}

theorem clearChildren_sameSlots :
    ∀ (l : List (Fin n)) (c : Fin n → CondCache),
      (∀ i ∈ l, ∀ c j, SameSlots (c j) (configCondClearNode t c i j)) →
      ∀ j, SameSlots (c j) (clearChildren t c l j)
  | [], c, _, j => .refl _
  | i :: l, c, h, j => by
    have hrest := clearChildren_sameSlots l
    by_cases hprev : (t.data i).prev = none
    · have heq : clearChildren t c (i :: l) = clearChildren t (configCondClearNode t c i) l := by
        simp [clearChildren, hprev]
      rw [heq]
      exact (h i List.mem_cons_self c j).trans
        (hrest _ (fun k hk => h k (List.mem_cons_of_mem i hk)) j)
    · have heq : clearChildren t c (i :: l) = clearChildren t c l := by
        simp [clearChildren, hprev]
      rw [heq]
      exact hrest c (fun k hk => h k (List.mem_cons_of_mem i hk)) j

theorem configCondClearNode_sameSlots (dc : Fin n) (c : Fin n → CondCache) (j : Fin n) :
    SameSlots (c j) (configCondClearNode t c dc j) := by
  by_cases hunset : (c dc).result = .unset
  · rw [configCondClearNode_of_unset hunset]
    exact .refl _
  have hself : ∀ j, SameSlots (c j) (Function.update c dc { c dc with result := .unset } j) :=
    update_sameSlots (.refl (c dc))
  have hchildren : ∀ j, SameSlots (c j) (clearChildren t
      (Function.update c dc { c dc with result := .unset }) (t.data dc).children j) := fun j =>
    (hself j).trans (clearChildren_sameSlots _ _ (fun i hi c j =>
      have : dc.val < i.val := t.parent_lt (t.children_iff.mp hi)
      configCondClearNode_sameSlots i c j) j)
  rw [configCondClearNode_of_ne hunset]
  cases hnext : (t.data dc).next with
  | none => exact hchildren j
  | some next =>
    have : dc.val < next.val := t.prev_lt (t.next_iff.mp hnext)
    exact (hchildren j).trans (configCondClearNode_sameSlots next _ j)
termination_by n - dc.val

theorem resetItemAt_slots (item : CompKey) (c : Fin n → CondCache) (i j : Fin n) :
    (resetItemAt t item c i j).patterncount = (c j).patterncount ∧
      ((t.data j).comp ≠ item → SameSlots (c j) (resetItemAt t item c i j)) := by
  unfold resetItemAt
  by_cases hitem : item = (t.data i).comp
  · rw [if_pos hitem]
    have hclear := configCondClearNode_sameSlots (t := t) i
      (Function.update c i { c i with localResult := .unset }) j
    by_cases hj : j = i
    · subst hj
      refine ⟨hclear.1.trans ?_, fun hne => absurd hitem.symm hne⟩
      rw [Function.update_self]
    · rw [Function.update_of_ne hj] at hclear
      exact ⟨hclear.1, fun _ => hclear⟩
  · rw [if_neg hitem]
    exact ⟨rfl, fun _ => .refl _⟩

theorem configCondCacheResetItem_slots (s : CondState n) (item : CompKey) (j : Fin n) :
    ((configCondCacheResetItem t s item).cache j).patterncount = (s.cache j).patterncount ∧
      ((t.data j).comp ≠ item →
        SameSlots (s.cache j) ((configCondCacheResetItem t s item).cache j)) := by
  have hloop : ∀ (l : List (Fin n)) (c : Fin n → CondCache),
      (l.foldl (resetItemAt t item) c j).patterncount = (c j).patterncount ∧
        ((t.data j).comp ≠ item → SameSlots (c j) (l.foldl (resetItemAt t item) c j)) := fun l => by
    induction l with
    | nil => exact fun c => ⟨rfl, fun _ => .refl _⟩
    | cons i l ih =>
      intro c
      obtain ⟨hcount, hsame⟩ := resetItemAt_slots (t := t) item c i j
      obtain ⟨hcount', hsame'⟩ := ih (resetItemAt t item c i)
      exact ⟨hcount'.trans hcount, fun hne => (hsame hne).trans (hsame' hne)⟩
  exact hloop _ _

end

section

variable {env : CondEnv} {t : ConfigTree n} {a : ConAttrs} {s : CondState n}
  {stale : Finset CompKey} {fresh : Bool}

theorem Matched.congr {b : ConAttrs} {e' : CondCache} (h : Matched env a dc e)
    (hsame : ConAttrs.SameAt dc.comp a b) (hslots : SameSlots e e') : Matched env b dc e' := by
  intro hregex ref l hsub
  rw [← condSubject_congr hsame] at hsub
  rw [hslots.1, hslots.2.1, hslots.2.2.1]
  exact h hregex ref l hsub

/-- In every run the entry of a block is good, but for the match when the block is stale. -/
theorem Reachable.slots (h : Reachable env t a s stale fresh) (i : Fin n) :
    ∃ b, SlotsOk env b (t.data i) (s.cache i) ∧
      ((t.data i).comp ∉ stale → ConAttrs.SameAt (t.data i).comp b a) := by
  induction h generalizing i with
  | start a s =>
    exact ⟨_, ⟨fun _ => rfl, by simp [configCondCacheReset, CondCache.cleared],
      fun h => absurd rfl h⟩, fun _ => .refl _ _⟩
  | reset _ _ =>
    exact ⟨_, ⟨fun _ => rfl, by simp [configCondCacheReset, CondCache.cleared],
      fun h => absurd rfl h⟩, fun _ => .refl _ _⟩
  | check h dc ih =>
    refine ⟨_, configCheckCondCached_slots dc _ (fun i => ?_) i, fun _ => .refl _ _⟩
    obtain ⟨b, hb, hsame⟩ := ih i
    exact ⟨hb.idle, hb.known, fun hlocal =>
      (hb.decided hlocal).congr (hsame (Finset.notMem_empty _)) (.refl _)⟩
  | @change a s stale fresh h K b' hb' ih =>
    obtain ⟨b, hb, hsame⟩ := ih i
    cases fresh with
    | true =>
      refine ⟨b', ⟨hb.idle, hb.known, fun hlocal => ?_⟩, fun _ => .refl _ _⟩
      exact absurd ((h.cacheInv.2 rfl).2 i).2 hlocal
    | false =>
      refine ⟨b, hb, fun hstale => ?_⟩
      simp only [Bool.false_eq_true, if_false, Finset.mem_insert, not_or] at hstale
      exact (hsame hstale.2).trans (hb' _ hstale.1)
  | @resetItem a s stale fresh h K ih =>
    obtain ⟨hcount, hslots⟩ := configCondCacheResetItem_slots (t := t) s K i
    obtain ⟨a', hc, -⟩ := h.cacheInv.1
    obtain ⟨-, hdrops, hdropped⟩ := resetItem_spec (t := t) K (List.finRange n) s.cache
      fun g i hg hi => .inl (hc.closed g i hg hi)
    obtain ⟨b, hb, hsame⟩ := ih i
    by_cases hK : (t.data i).comp = K
    · obtain ⟨hres, hlocal⟩ := hdropped i (List.mem_finRange i) hK
      exact ⟨a, ⟨fun hidle => hcount.trans (hb.idle hidle), fun hr => by simp_all [configCondCacheResetItem],
        fun h => absurd hlocal h⟩, fun _ => .refl _ _⟩
    · have hslots := hslots hK
      refine ⟨b, ⟨fun hidle => hcount.trans (hb.idle hidle), fun hr => ?_, fun hlocal => ?_⟩,
        fun hstale => hsame fun hmem => hstale (Finset.mem_erase.mpr ⟨hK, hmem⟩)⟩
      · rw [hslots.2.2.2]
        rcases (hdrops i).1 with hres | hres
        · exact hb.known (hres ▸ hr)
        · exact absurd hr (by simp [configCondCacheResetItem, hres])
      · exact (hb.decided (hslots.2.2.2 ▸ hlocal)).congr (.refl _ _) hslots

/-- A block that `config_check_cond` found true is decided. -/
theorem Reachable.decided (h : Reachable env t a s ∅ fresh) {dc : Fin n}
    (htrue : (configCheckCond env a t.toConfigContext s dc).2) :
    ((configCheckCond env a t.toConfigContext s dc).1.cache dc).localResult ≠ .unset := by
  have hspec := configCheckCondCached_spec (fun _ => t.cond_ne_unset) dc s h.cacheInv.consistent
  rw [h.configCheckCond_eq dc, decide_eq_true_eq] at htrue
  obtain ⟨b, hb, -⟩ := (h.check dc).slots dc
  exact hb.known (.inl (hspec.2.trans htrue))

end

/-! ## Back-references of rules in a block -/

/-- What is documented of `pcre_exec` with a vector for ten substrings : an `int`, and offsets within
the subject for each substring it counts, or -1 twice. -/
structure PcreDocumented (pcreExec : Bytes → Bytes → ℤ × List ℤ) : Prop where
  count : ∀ re s, -2 ^ 31 ≤ (pcreExec re s).1 ∧ (pcreExec re s).1 ≤ 10
  offsets : ∀ re s (k : ℕ), (k : ℤ) < (pcreExec re s).1 →
    ∃ i j, (pcreExec re s).2[2 * k]? = some i ∧ (pcreExec re s).2[2 * k + 1]? = some j ∧
      (i = -1 ∧ j = -1 ∨ 0 ≤ i ∧ i ≤ j ∧ j ≤ s.length)

theorem bytesBetween_isSome {s : Bytes} {i j : ℤ}
    (h : i = -1 ∧ j = -1 ∨ 0 ≤ i ∧ i ≤ j ∧ j ≤ s.length) : (bytesBetween s i j).isSome := by
  unfold bytesBetween
  split_ifs
  · rfl
  · rfl
  · omega

section

variable {env : CondEnv} {t : ConfigTree n} {a : ConAttrs} {s : CondState n} {fresh : Bool}

/-- The entry of a block that is decided, in terms of its match. -/
theorem Reachable.entry (h : Reachable env t a s ∅ fresh) {dc : Fin n}
    (hdec : (s.cache dc).localResult ≠ .unset) :
    (condMatch env a (t.data dc) = none → (s.cache dc).patterncount = 0) ∧
      ∀ m, condMatch env a (t.data dc) = some m → (s.cache dc).patterncount = m.count ∧
        (m.count, m.offsets) = env.pcreExec (t.data dc).string.string m.subject ∧
        ∀ k : ℕ, (k : ℤ) < m.count → condCapture (s.cache dc) a.condBuf k =
          (m.offsets[2 * k]?).bind fun i => (m.offsets[2 * k + 1]?).bind fun j =>
            bytesBetween m.subject i j := by
  obtain ⟨b, hb, hsame⟩ := h.slots dc
  have hidle := hb.idle
  have hmatched := (hb.decided hdec).congr (hsame (Finset.notMem_empty _)) (.refl _)
  unfold condMatch
  by_cases hregex : (t.data dc).isRegex
  · have hbuf := condSubject_of_isRegex env a hregex
    by_cases hhas : (t.data dc).comp.hasBuffer
    · rw [if_pos hhas] at hbuf
      obtain ⟨ref, l, hsub, hl⟩ := hbuf
      obtain ⟨hexec, hcomp⟩ := hmatched hregex ref l hsub
      rw [hsub]
      dsimp only
      rw [if_pos hregex]
      refine ⟨fun h => absurd h (by simp), fun m hm => ?_⟩
      obtain rfl := Option.some.inj hm
      obtain ⟨hcount, hoffsets⟩ := Prod.ext_iff.mp hexec
      refine ⟨hcount, rfl, fun k hk => ?_⟩
      dsimp only at hcount hoffsets hk ⊢
      rw [condCapture, hcomp (by omega), hoffsets, ← hl]
      rfl
    · rw [if_neg hhas] at hbuf
      rw [hbuf]
      exact ⟨fun _ => hidle (by simp [hhas]), fun m hm => by simp at hm⟩
  · have hcount := hidle (by simp [hregex])
    cases condSubject env a (t.data dc) with
    | result r => exact ⟨fun _ => hcount, fun m hm => by simp at hm⟩
    | buffer ref l =>
      dsimp only
      rw [if_neg hregex]
      exact ⟨fun _ => hcount, fun m hm => by simp at hm⟩

/-- The match of the block that a rule stands in. -/
def contextMatch (env : CondEnv) (a : ConAttrs) (t : ConfigTree n) (ctx : Option (Fin n)) :
    Option RegexMatch :=
  ctx.bind fun dc => condMatch env a (t.data dc)

/-- The scanner reads captured text only and expands the template. -/
def SubstOk (c : SubstCall) (m : Option RegexMatch) : Prop :=
  ∃ st, pcreKeyvalueBufferSubst c = some st ∧
    (∀ r ∈ st.reads, match r with
      | .list k => (k : ℤ) < c.n
      | .cond k => ∃ m' ∈ m, (k : ℤ) < m'.count) ∧
    st.out = expandTemplate c.own (fun k => (m.map fun m => m.capture k).getD []) c.pattern

/-- The call of `pcre_keyvalue_buffer_subst` for a rule in the block `ctx`, with the substrings that
the rule's own expression captured. -/
def substCall (a : ConAttrs) (s : CondState n) (ctx : Option (Fin n)) (pattern : Bytes)
    (list : List Bytes) : SubstCall :=
  ⟨pattern, list, list.length, ctx.map s.cache, a.condBuf⟩

variable {ctx : Option (Fin n)}

/-- A call in a block that is decided, in terms of the match of the block. -/
theorem Reachable.substCall_spec (h : Reachable env t a s ∅ fresh)
    (hctx : ∀ dc ∈ ctx, (s.cache dc).localResult ≠ .unset) (pattern : Bytes) (list : List Bytes) :
    let c := substCall a s ctx pattern list
    (c.cond = fun k => ((contextMatch env a t ctx).map fun m => m.capture k).getD []) ∧
      ∀ k : ℕ, (∃ m ∈ contextMatch env a t ctx, (k : ℤ) < m.count) ↔
        ∃ cache, c.cache = some cache ∧ (k : ℤ) < cache.patterncount := by
  cases ctx with
  | none => exact ⟨rfl, by simp [contextMatch, substCall]⟩
  | some dc =>
    obtain ⟨hnone, hsome⟩ := h.entry (hctx dc rfl)
    have hcache : (substCall a s (some dc) pattern list).cache = some (s.cache dc) := rfl
    have hmatch : contextMatch env a t (some dc) = condMatch env a (t.data dc) := rfl
    dsimp only
    rw [hmatch]
    cases hm : condMatch env a (t.data dc) with
    | none =>
      have hcount := hnone hm
      refine ⟨funext fun k => ?_, fun k => ?_⟩
      · rw [SubstCall.cond, hcache]
        dsimp only
        rw [hcount, if_neg (by omega)]
        rfl
      · simp [hcache, hcount]
    | some m =>
      obtain ⟨hcount, -, hcapture⟩ := hsome m hm
      refine ⟨funext fun k => ?_, fun k => by simp [hcache, hcount]⟩
      rw [SubstCall.cond, hcache, Option.map_some, Option.getD_some, RegexMatch.capture]
      dsimp only
      rw [hcount]
      by_cases hk : (k : ℤ) < m.count
      · rw [if_pos hk, if_pos hk]
        exact congrArg (fun text => text.getD []) (hcapture k hk)
      · rw [if_neg hk, if_neg hk]

/-- With a count that is not negative, what `%k` looks up is captured text. -/
theorem Reachable.condRefGood (hpcre : PcreDocumented env.pcreExec)
    (h : Reachable env t a s ∅ fresh) (hctx : ∀ dc ∈ ctx, (s.cache dc).localResult ≠ .unset)
    (pattern : Bytes) (list : List Bytes) (hcount : ∀ m ∈ contextMatch env a t ctx, 0 ≤ m.count)
    (num : ℕ) : CondRefGood (substCall a s ctx pattern list) num := by
  intro cache hcache
  cases ctx with
  | none => cases hcache
  | some dc =>
    obtain rfl := Option.some.inj hcache
    obtain ⟨hnone, hsome⟩ := h.entry (hctx dc rfl)
    cases hm : condMatch env a (t.data dc) with
    | none =>
      rw [hnone hm]
      exact ⟨by simp [sizeOfInt], fun hk => by omega⟩
    | some m =>
      obtain ⟨hpc, hexec, hcapture⟩ := hsome m hm
      have h0 : 0 ≤ m.count := hcount m hm
      have hbound := hpcre.count (t.data dc).string.string m.subject
      obtain ⟨hc, ho⟩ := Prod.ext_iff.mp hexec
      dsimp only at hc ho
      rw [hpc]
      refine ⟨by unfold sizeOfInt; omega, fun hk => ?_⟩
      obtain ⟨i, j, hi, hj, hij⟩ := hpcre.offsets (t.data dc).string.string m.subject num (hc ▸ hk)
      rw [← ho] at hi hj
      have hbuf : (substCall a s (some dc) pattern list).bufs = a.condBuf := rfl
      rw [hbuf, hcapture num hk, hi, Option.bind_some, hj, Option.bind_some]
      exact bytesBetween_isSome hij

theorem Reachable.goodReads_iff (h : Reachable env t a s ∅ fresh)
    (hctx : ∀ dc ∈ ctx, (s.cache dc).localResult ≠ .unset) (pattern : Bytes) (list : List Bytes)
    (reads : List SubstRead) :
    (∀ r ∈ reads, match r with
      | .list k => (k : ℤ) < (substCall a s ctx pattern list).n
      | .cond k => ∃ m ∈ contextMatch env a t ctx, (k : ℤ) < m.count) ↔
      GoodReads (substCall a s ctx pattern list) reads := by
  refine forall₂_congr fun r _ => ?_
  cases r with
  | list k => exact Iff.rfl
  | cond k => exact (h.substCall_spec hctx pattern list).2 k

theorem Reachable.condRefs_eq_nil (hpcre : PcreDocumented env.pcreExec)
    (h : Reachable env t a s ∅ fresh) (hctx : ∀ dc ∈ ctx, (s.cache dc).localResult ≠ .unset)
    {pattern : Bytes} {list : List Bytes}
    (hok : SubstOk (substCall a s ctx pattern list) (contextMatch env a t ctx)) {m : RegexMatch}
    (hm : m ∈ contextMatch env a t ctx) (hneg : m.count < 0) : condRefs pattern = [] := by
  obtain ⟨st, hst, hreads, -⟩ := hok
  have hgood := (h.goodReads_iff hctx pattern list st.reads).mp hreads
  cases ctx with
  | none => cases hm
  | some dc =>
    obtain ⟨hpc, hexec, -⟩ := (h.entry (hctx dc rfl)).2 m hm
    have hbound := hpcre.count (t.data dc).string.string m.subject
    obtain ⟨hc, -⟩ := Prod.ext_iff.mp hexec
    dsimp only at hc
    by_contra hne
    obtain ⟨num, hnum⟩ := List.exists_mem_of_ne_nil _ hne
    exact pcreKeyvalueBufferSubst_badRead (c := substCall a s (some dc) pattern list) rfl
      (by omega) (by omega) hnum hst hgood

/-- A rule's template is expanded from captured text if and only if it has no `%k` while the match of
the condition around it gives a negative count. -/
theorem pcreKeyvalueBufferSubst_iff (hpcre : PcreDocumented env.pcreExec)
    (h : Reachable env t a s ∅ fresh) (ctx : Option (Fin n))
    (hctx : ∀ dc ∈ ctx, (s.cache dc).localResult ≠ .unset) (pattern : Bytes) (list : List Bytes)
    (hlen : list.length < 2 ^ 64) (hnul : ∀ x ∈ list, 0 ∉ x) :
    SubstOk (substCall a s ctx pattern list) (contextMatch env a t ctx) ↔
      ∀ m ∈ contextMatch env a t ctx, m.count < 0 → condRefs pattern = [] := by
  refine ⟨fun hok m hm hneg => h.condRefs_eq_nil hpcre hctx hok hm hneg, fun hrefs => ?_⟩
  have hlisted : (substCall a s ctx pattern list).Listed := ⟨rfl, hlen, hnul⟩
  obtain ⟨st, hst, hgood, hout⟩ := pcreKeyvalueBufferSubst_expand hlisted fun num hnum =>
    h.condRefGood hpcre hctx pattern list (fun m hm => by
      by_contra hneg
      have hnum : num ∈ condRefs pattern := hnum
      rw [hrefs m hm (not_le.mp hneg)] at hnum
      cases hnum) num
  refine ⟨st, hst, (h.goodReads_iff hctx pattern list st.reads).mpr hgood, ?_⟩
  rw [hout, (h.substCall_spec hctx pattern list).1]

end

/-- A block on hosts that begin with `www.`, or on those that do not. -/
def hostTree (negate : Bool) : ConfigTree 2 where
  data i :=
    if i = 0 then ⟨.unset, [], .unset, none, none, none, none, [1]⟩
    else ⟨.httpHost, [], if negate then .regexNomatch else .regexMatch,
      some (str "^(www)\\."), some 0, none, none, []⟩
  parent_lt {i p} := by revert negate i p; decide
  prev_lt {i q} := by revert negate i q; decide
  next_iff {i j} := by revert negate i j; decide
  prev_parent {i q} := by revert negate i q; decide
  children_iff {i j} := by revert negate i j; decide
  cond_ne_unset {i} := by revert negate i; decide

/-- What the expression of `hostTree` gives on the host `www.example`, and on one it does not
match. -/
def hostEnv : CondEnv where
  toAddrLib := .noAddress
  pcreExec _ s :=
    if s = str "www.example" then (2, [0, 4, 0, 3] ++ List.replicate 26 (-1))
    else (-1, List.replicate 30 (-1))

theorem hostEnv_documented : PcreDocumented hostEnv.pcreExec where
  count re s := by
    simp only [hostEnv]
    split_ifs <;> simp
  offsets re s k hk := by
    simp only [hostEnv] at hk ⊢
    split_ifs at hk ⊢ with hs
    · subst hs
      have hk : k = 0 ∨ k = 1 := by
        simp only at hk
        omega
      rcases hk with rfl | rfl
      · exact ⟨0, 4, rfl, rfl, by decide⟩
      · exact ⟨0, 3, rfl, rfl, by decide⟩
    · simp only at hk
      omega

/-- The state of a connection to `host` once the block is checked. -/
def hostState (negate : Bool) (host : Bytes) : CondState 2 :=
  (configCheckCond hostEnv (requestAttrs host [] [.httpHost]) (hostTree negate).toConfigContext
    (configCondCacheReset (emptyState 2)) 1).1

theorem hostState_reachable (negate : Bool) (host : Bytes) :
    Reachable hostEnv (hostTree negate) (requestAttrs host [] [.httpHost]) (hostState negate host)
      ∅ false := by
  have h₀ : Reachable hostEnv (hostTree negate) (requestAttrs host [] [])
      (configCondCacheReset (emptyState 2)) ∅ true :=
    .start (requestAttrs host [] []) (emptyState 2)
  exact Reachable.check (h₀.change .httpHost _ (sameAt_requestAttrs_host _ host _ _)) 1

theorem hostState_decided {negate : Bool} {host : Bytes}
    (h : ownValue hostEnv (requestAttrs host [] [.httpHost]) (hostTree negate).toConfigContext 1 =
      .true) : ((hostState negate host).cache 1).localResult ≠ .unset := by
  have h₀ : Reachable hostEnv (hostTree negate) (requestAttrs host [] [])
      (configCondCacheReset (emptyState 2)) ∅ true :=
    .start (requestAttrs host [] []) (emptyState 2)
  have h₁ := h₀.change .httpHost _ (sameAt_requestAttrs_host _ host _ _)
  refine Reachable.decided h₁ ?_
  have henc : (hostTree negate).enclosing 1 = none := by
    cases negate <;> rfl
  have hvalue := @condValue_of_enclosing_ne _ hostEnv (requestAttrs host [] [.httpHost])
    (hostTree negate).toConfigContext 1 (by simp [henc])
  have hprev : ((hostTree negate).data 1).prev = none := by cases negate <;> rfl
  rw [h₁.configCheckCond_eq, decide_eq_true_eq, hvalue, hprev]
  exact h

theorem pcreKeyvalueBufferSubst_iff_host :
    let a := requestAttrs (str "www.example") [] [.httpHost]
    let s := hostState false (str "www.example")
    SubstOk (substCall a s (some 1) (str "/%1/$1") [str "/x", str "x"])
        (contextMatch hostEnv a (hostTree false) (some 1)) ↔
      ∀ m ∈ contextMatch hostEnv a (hostTree false) (some 1), m.count < 0 →
        condRefs (str "/%1/$1") = [] :=
  pcreKeyvalueBufferSubst_iff hostEnv_documented (hostState_reachable false _) (some 1)
    (fun dc hdc => by
      obtain rfl := Option.some.inj hdc
      exact hostState_decided (by decide))
    (str "/%1/$1") [str "/x", str "x"] (by decide) (by decide)

/-- The block is for hosts that its expression does not match, and `%1` has no subject to read. -/
theorem pcreKeyvalueBufferSubst_readsNothing :
    ¬ ∀ (n : ℕ) (env : CondEnv) (t : ConfigTree n) (a : ConAttrs) (s : CondState n) (fresh : Bool),
      PcreDocumented env.pcreExec → Reachable env t a s ∅ fresh →
      ∀ ctx : Option (Fin n), (∀ dc ∈ ctx, (s.cache dc).localResult ≠ .unset) →
      ∀ (pattern : Bytes) (list : List Bytes), list.length < 2 ^ 64 → (∀ x ∈ list, 0 ∉ x) →
        SubstOk (substCall a s ctx pattern list) (contextMatch env a t ctx) := by
  intro h
  have hreach := hostState_reachable true (str "intranet")
  have hctx : ∀ dc ∈ some (1 : Fin 2),
      ((hostState true (str "intranet")).cache dc).localResult ≠ .unset := fun dc hdc => by
    obtain rfl := Option.some.inj hdc
    exact hostState_decided (by decide)
  have hok := h 2 hostEnv (hostTree true) _ _ false hostEnv_documented hreach (some 1) hctx
    (str "/%1") [str "/x"] (by decide) (by decide)
  have hnil := hreach.condRefs_eq_nil hostEnv_documented hctx hok
    (m := ⟨str "intranet", -1, List.replicate 30 (-1)⟩) rfl (by decide)
  exact absurd hnil (by decide)

end Lighttpd
