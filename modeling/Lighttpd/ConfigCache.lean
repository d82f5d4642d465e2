import Mathlib.Logic.Relation
import Lighttpd.ConfigCond

/-!
# The condition cache is transparent

`condValue` evaluates a block without a cache. A cache is `Consistent` with the
attributes of a connection when every result and every local result in it is the one
these attributes give, and when no result is kept whose guards are unset. The second part
is what lets `config_cond_clear_node` stop at an unset block (`configCondClearNode_spec`).

Checking a condition keeps the cache consistent (`configCheckCondCached_spec`), and after
`config_cond_cache_reset_item` it is consistent with any change behind that key
(`Consistent.resetItem`). `Reachable` collects the states of a connection, with the keys
that changed and were not reset yet.
-/

namespace Lighttpd

open CString

variable {n : ℕ}

/-! ## Evaluation without a cache -/

section Value

variable (env : CondEnv) (a : ConAttrs) (t : ConfigContext n)

/-- The comparison of a block, made on an empty cache entry. -/
def localValue (dc : Fin n) : CondResult :=
  if (t.data dc).cond = .elseBranch then .true
  else
    match condSubject env a (t.data dc) with
    | .result r => r
    | .buffer ref l => (compareBuffer env (t.data dc) ref l ⟨.unset, .unset, 0, [], none⟩ .false).2

/-- The comparison of a block, unset while its attribute is not valid. -/
def ownValue (dc : Fin n) : CondResult :=
  if a.conditionalIsValid (t.data dc).comp then localValue env a t dc else .unset

/-- An else branch from the value of the previous branch. -/
def afterPrev (prev own : CondResult) : CondResult :=
  match prev with
  | .unset => .unset
  | .false => own
  | _ => .skip

/-- What `config_check_cond_nocache` gives when nothing is cached. -/
def condValue (dc : Fin n) : CondResult :=
  let undecided : Bool :=
    match h : t.enclosing dc with
    | none => false
    | some p =>
      have : p.val < dc.val := ConfigContext.enclosing_lt h
      condValue p = .unset
  if undecided then .unset
  else
    match h : (t.data dc).prev with
    | none => ownValue env a t dc
    | some q =>
      have : q.val < dc.val := t.prev_lt h
      afterPrev (condValue q) (ownValue env a t dc)
termination_by dc.val

end Value

variable {dc : Fin n} {result : CondResult} {a : ConAttrs} {t : ConfigContext n}
  {c : Fin n → CondCache}

section

variable {env : CondEnv} {a : ConAttrs} {t : ConfigContext n}

theorem condValue_of_enclosing_unset {p : Fin n} (hp : t.enclosing dc = some p)
    (h : condValue env a t p = .unset) : condValue env a t dc = .unset := by
  rw [condValue]
  have : (match h : t.enclosing dc with
    | none => false
    | some p => decide (condValue env a t p = .unset)) = true := by
    split
    · next h' => simp [hp] at h'
    · next p' h' =>
      rw [hp, Option.some.injEq] at h'
      simp [← h', h]
  simp [this]

/-- With the enclosing block decided, only the chain and the own comparison count. -/
theorem condValue_of_enclosing_ne {dc : Fin n}
    (h : ∀ p, t.enclosing dc = some p → condValue env a t p ≠ .unset) :
    condValue env a t dc =
      match (t.data dc).prev with
      | none => ownValue env a t dc
      | some q => afterPrev (condValue env a t q) (ownValue env a t dc) := by
  rw [condValue]
  have : (match h : t.enclosing dc with
    | none => false
    | some p => decide (condValue env a t p = .unset)) = false := by
    split
    · rfl
    · next p' h' => simp [h p' h']
  simp only [this, Bool.false_eq_true, if_false]
  split
  · next h' => rw [h']
  · next q h' => rw [h']

end

theorem compareBuffer_fst (env : CondEnv) (dc : DataConfig n) (ref : CondBuf) (l : Buffer)
    (cache : CondCache) (result : CondResult) :
    (compareBuffer env dc ref l cache result).1.result = cache.result ∧
      (compareBuffer env dc ref l cache result).1.localResult = cache.localResult := by
  unfold compareBuffer
  cases dc.cond with
  | regexMatch =>
    simp only
    split_ifs <;> exact ⟨rfl, rfl⟩
  | regexNomatch =>
    simp only
    split_ifs <;> exact ⟨rfl, rfl⟩
  | _ => exact ⟨rfl, rfl⟩

theorem checkOwn_fst (env : CondEnv) (a : ConAttrs) (dc : DataConfig n) (cache : CondCache)
    (result : CondResult) :
    (checkOwn env a dc cache result).1.result = cache.result ∧
      (checkOwn env a dc cache result).1.localResult = cache.localResult := by
  unfold checkOwn
  cases condSubject env a dc with
  | result r => split_ifs <;> exact ⟨rfl, rfl⟩
  | buffer ref l =>
    simp only
    split_ifs
    · exact ⟨rfl, rfl⟩
    · exact ⟨rfl, rfl⟩
    · exact compareBuffer_fst env dc ref l cache result
    · exact ⟨rfl, rfl⟩

theorem compareBuffer_snd (env : CondEnv) (dc : DataConfig n) (ref : CondBuf) (l : Buffer)
    (cache cache' : CondCache) (h : result = .false ∨ dc.cond ≠ .unset)
    (helse : dc.cond ≠ .elseBranch) :
    (compareBuffer env dc ref l cache result).2 =
      (compareBuffer env dc ref l cache' .false).2 := by
  unfold compareBuffer
  cases hc : dc.cond with
  | unset => simpa [hc] using h
  | elseBranch => exact absurd hc helse
  | eq => rfl
  | ne => rfl
  | regexMatch =>
    simp only
    split_ifs <;> rfl
  | regexNomatch =>
    simp only
    split_ifs <;> rfl

/-- The own comparison through a cache entry that is right is the one without it. -/
theorem checkOwn_snd {env : CondEnv} {cache : CondCache}
    (hlocal : cache.localResult ≠ .unset → cache.localResult = localValue env a t dc)
    (h : result = .false ∨ (t.data dc).cond ≠ .unset) :
    (checkOwn env a (t.data dc) cache result).2 = ownValue env a t dc := by
  unfold checkOwn ownValue
  by_cases hv : a.conditionalIsValid (t.data dc).comp
  · simp only [hv, not_true_eq_false, if_false, if_true]
    split_ifs with hl helse
    · rcases hl with hl | hl
      · exact hlocal (by simp [hl])
      · exact hlocal (by simp [hl])
    · simp [localValue, helse]
    · rw [localValue, if_neg helse]
      cases condSubject env a (t.data dc) with
      | result r => rfl
      | buffer ref l => exact compareBuffer_snd env _ ref l _ _ h helse
  · simp [hv]

/-! ## Consistent caches -/

/-- `g` is evaluated before `dc` and decides whether `dc` is. -/
def ConfigContext.Guard (t : ConfigContext n) (g dc : Fin n) : Prop :=
  t.enclosing dc = some g ∨ (t.data dc).prev = some g

theorem ConfigContext.Guard.lt {g : Fin n} (h : t.Guard g dc) : g < dc :=
  h.elim ConfigContext.enclosing_lt fun h => t.prev_lt h

/-- The cache holds nothing that the attributes do not give, and no result whose guards
are unset. -/
structure Consistent (env : CondEnv) (a : ConAttrs) (t : ConfigContext n)
    (c : Fin n → CondCache) : Prop where
  result_eq : ∀ i, (c i).result ≠ .unset → (c i).result = condValue env a t i
  local_eq : ∀ i, (c i).localResult ≠ .unset → (c i).localResult = localValue env a t i
  closed : ∀ g i, t.Guard g i → (c i).result ≠ .unset → (c g).result ≠ .unset

/-- No result that was there has changed. -/
def Extends (c c' : Fin n → CondCache) : Prop :=
  ∀ i, (c i).result ≠ .unset → (c' i).result = (c i).result

theorem Extends.refl (c : Fin n → CondCache) : Extends c c := fun _ _ => rfl

theorem Extends.trans {c c' c'' : Fin n → CondCache} (h : Extends c c') (h' : Extends c' c'') :
    Extends c c'' := fun i hi => by
  have := h i hi
  rw [h' i (by rwa [this]), this]

theorem Consistent.cleared (env : CondEnv) (a : ConAttrs) (t : ConfigContext n)
    (c : Fin n → CondCache) : Consistent env a t fun i => (c i).cleared where
  result_eq _ h := absurd rfl h
  local_eq _ h := absurd rfl h
  closed _ _ _ h := absurd rfl h

section

variable {env : CondEnv} {a : ConAttrs} {t : ConfigContext n}

/-- Only the results and the local results of a cache matter. -/
theorem Consistent.of_eq {c' : Fin n → CondCache} (h : Consistent env a t c)
    (hr : ∀ i, (c' i).result = (c i).result) (hl : ∀ i, (c' i).localResult = (c i).localResult) :
    Consistent env a t c' where
  result_eq i hi := by
    rw [hr] at hi ⊢
    exact h.result_eq i hi
  local_eq i hi := by
    rw [hl] at hi ⊢
    exact h.local_eq i hi
  closed g i hg hi := by
    rw [hr] at hi ⊢
    exact h.closed g i hg hi

theorem update_result {e : CondCache} (h : e.result = (c dc).result) (i : Fin n) :
    (Function.update c dc e i).result = (c i).result := by
  by_cases hi : i = dc
  · subst hi
    rw [Function.update_self, h]
  · rw [Function.update_of_ne hi]

theorem update_localResult {e : CondCache} (h : e.localResult = (c dc).localResult) (i : Fin n) :
    (Function.update c dc e i).localResult = (c i).localResult := by
  by_cases hi : i = dc
  · subst hi
    rw [Function.update_self, h]
  · rw [Function.update_of_ne hi]

end

/-! ## Checking a condition -/

@[simp] theorem cache_confcacheLock (s : CondState n) : (confcacheLock s).cache = s.cache := rfl

@[simp] theorem cache_confcacheUnlock (s : CondState n) : (confcacheUnlock s).cache = s.cache :=
  rfl

section

variable {env : CondEnv} {a : ConAttrs} {t : ConfigContext n} {s : CondState n} {dc : Fin n}

theorem configCheckCondCached_of_unset (h : (s.cache dc).result = .unset) :
    configCheckCondCached env a t s dc =
      (storeResult (configCheckCondNocache env a t s dc).1 dc
        (configCheckCondNocache env a t s dc).2, (configCheckCondNocache env a t s dc).2) := by
  rw [configCheckCondCached, if_pos h]

theorem configCheckCondCached_of_ne (h : (s.cache dc).result ≠ .unset) :
    configCheckCondCached env a t s dc = (s, (s.cache dc).result) := by
  rw [configCheckCondCached, if_neg h]

theorem configCheckCondNocache_of_none (h : t.enclosing dc = none) :
    configCheckCondNocache env a t s dc = checkPrev env a t (confcacheLock s) dc .false := by
  rw [configCheckCondNocache]
  split
  · rfl
  · next p h' => simp [h] at h'

theorem configCheckCondNocache_of_some {p : Fin n} (h : t.enclosing dc = some p) :
    configCheckCondNocache env a t s dc =
      match (configCheckCondCached env a t (confcacheLock s) p).2 with
      | .unset => (confcacheUnlock (configCheckCondCached env a t (confcacheLock s) p).1, .unset)
      | .true => checkPrev env a t (configCheckCondCached env a t (confcacheLock s) p).1 dc .false
      | _ => checkPrev env a t (configCheckCondCached env a t (confcacheLock s) p).1 dc .skip := by
  rw [configCheckCondNocache]
  split
  · next h' => simp [h] at h'
  · next p' h' =>
    rw [h, Option.some.injEq] at h'
    subst h'
    simp only
    cases (configCheckCondCached env a t (confcacheLock s) p).2 <;> rfl

theorem checkPrev_of_none (h : (t.data dc).prev = none) :
    checkPrev env a t s dc result = finishCheck env a t s dc result := by
  rw [checkPrev]
  split
  · rfl
  · next q h' => simp [h] at h'

theorem checkPrev_of_some {q : Fin n} (h : (t.data dc).prev = some q) :
    checkPrev env a t s dc result =
      match (configCheckCondCached env a t s q).2 with
      | .unset => (confcacheUnlock (configCheckCondCached env a t s q).1, .unset)
      | .false => finishCheck env a t (configCheckCondCached env a t s q).1 dc result
      | _ => (confcacheUnlock (configCheckCondCached env a t s q).1, .skip) := by
  rw [checkPrev]
  split
  · next h' => simp [h] at h'
  · next q' h' =>
    rw [h, Option.some.injEq] at h'
    subst h'
    simp only
    cases (configCheckCondCached env a t s q).2 <;> rfl

/-- What a check of `dc` that ends in `r` must do to a consistent cache. -/
structure CheckSpec (env : CondEnv) (a : ConAttrs) (t : ConfigContext n) (s : CondState n)
    (dc : Fin n) (r : CondState n × CondResult) : Prop where
  value : r.2 = condValue env a t dc
  consistent : Consistent env a t r.1.cache
  grows : Extends s.cache r.1.cache

/-- The guards of `dc` have a result in the cache. -/
def GuardsKnown (t : ConfigContext n) (c : Fin n → CondCache) (dc : Fin n) : Prop :=
  ∀ g, t.Guard g dc → (c g).result ≠ .unset

theorem finishCheck_spec (hc : Consistent env a t s.cache)
    (hresult : result = .false ∨ (t.data dc).cond ≠ .unset)
    (hvalue : condValue env a t dc = ownValue env a t dc) :
    CheckSpec env a t s dc (finishCheck env a t s dc result) := by
  have hfst := checkOwn_fst env a (t.data dc) (s.cache dc) result
  refine ⟨?_, hc.of_eq (update_result hfst.1) (update_localResult hfst.2), fun i _ => ?_⟩
  · rw [hvalue]
    exact checkOwn_snd (hc.local_eq dc) hresult
  · exact update_result hfst.1 i

/-- `checkPrev` when the enclosing block is decided, from the same for the blocks before. -/
theorem checkPrev_spec (hc : Consistent env a t s.cache)
    (hresult : result = .false ∨ (t.data dc).cond ≠ .unset)
    (henclosing : ∀ p, t.enclosing dc = some p → condValue env a t p ≠ .unset)
    (ih : ∀ q < dc, CheckSpec env a t s q (configCheckCondCached env a t s q) ∧
      ((configCheckCondCached env a t s q).1.cache q).result = condValue env a t q) :
    CheckSpec env a t s dc (checkPrev env a t s dc result) ∧
      (condValue env a t dc ≠ .unset → ∀ q, (t.data dc).prev = some q →
        ((checkPrev env a t s dc result).1.cache q).result ≠ .unset) := by
  have hvalue := condValue_of_enclosing_ne henclosing
  cases hprev : (t.data dc).prev with
  | none =>
    rw [checkPrev_of_none hprev]
    refine ⟨finishCheck_spec hc hresult ?_, fun _ q hq => absurd hq (by simp)⟩
    rw [hvalue, hprev]
  | some q =>
    obtain ⟨hq, hstored⟩ := ih q (t.prev_lt hprev)
    rw [hprev] at hvalue
    simp only at hvalue
    rw [checkPrev_of_some hprev, hq.value]
    cases hv : condValue env a t q with
    | unset =>
      have hdc : condValue env a t dc = .unset := by rw [hvalue, hv]; rfl
      exact ⟨⟨hdc.symm, hq.consistent, hq.grows⟩, fun h => absurd hdc h⟩
    | skip =>
      have hdc : condValue env a t dc = .skip := by rw [hvalue, hv]; rfl
      refine ⟨⟨hdc.symm, hq.consistent, hq.grows⟩, fun _ q' hq' => ?_⟩
      cases hq'
      simp [hstored, hv]
    | true =>
      have hdc : condValue env a t dc = .skip := by rw [hvalue, hv]; rfl
      refine ⟨⟨hdc.symm, hq.consistent, hq.grows⟩, fun _ q' hq' => ?_⟩
      cases hq'
      simp [hstored, hv]
    | false =>
      have hdc : condValue env a t dc = ownValue env a t dc := by rw [hvalue, hv]; rfl
      have hfin := finishCheck_spec hq.consistent hresult hdc
      refine ⟨⟨hfin.value, hfin.consistent, hq.grows.trans hfin.grows⟩, fun _ q' hq' => ?_⟩
      cases hq'
      have hne : ((configCheckCondCached env a t s q).1.cache q).result ≠ .unset := by
        simp [hstored, hv]
      simpa [hfin.grows q hne] using hne

/-- `config_check_cond_nocache`, from the same for the blocks before. -/
theorem configCheckCondNocache_spec (hc : Consistent env a t s.cache)
    (hcond : dc.val ≠ 0 → (t.data dc).cond ≠ .unset)
    (ih : ∀ g < dc, ∀ s, Consistent env a t s.cache →
      CheckSpec env a t s g (configCheckCondCached env a t s g) ∧
        ((configCheckCondCached env a t s g).1.cache g).result = condValue env a t g) :
    CheckSpec env a t s dc (configCheckCondNocache env a t s dc) ∧
      (condValue env a t dc ≠ .unset →
        GuardsKnown t (configCheckCondNocache env a t s dc).1.cache dc) := by
  have hlock : Consistent env a t (confcacheLock s).cache := hc
  cases henc : t.enclosing dc with
  | none =>
    have hnone : ∀ p, t.enclosing dc = some p → condValue env a t p ≠ .unset := by simp [henc]
    rw [configCheckCondNocache_of_none henc]
    obtain ⟨hspec, hprev⟩ := checkPrev_spec hlock (.inl rfl) hnone fun q hq => ih q hq _ hlock
    refine ⟨⟨hspec.value, hspec.consistent, hspec.grows⟩, fun hv g hg => ?_⟩
    rcases hg with hg | hg
    · simp [henc] at hg
    · exact hprev hv g hg
  | some p =>
    have hlt := ConfigContext.enclosing_lt henc
    have hpos : dc.val ≠ 0 := by
      have : p.val < dc.val := hlt
      omega
    obtain ⟨hp, hstored⟩ := ih p hlt _ hlock
    rw [configCheckCondNocache_of_some henc, hp.value]
    by_cases hv : condValue env a t p = .unset
    · have hdc := condValue_of_enclosing_unset henc hv
      rw [hv]
      exact ⟨⟨hdc.symm, hp.consistent, hp.grows⟩, fun h => absurd hdc h⟩
    · have hne : ((configCheckCondCached env a t (confcacheLock s) p).1.cache p).result ≠
          .unset := by
        rwa [hstored]
      have hsome : ∀ p', t.enclosing dc = some p' → condValue env a t p' ≠ .unset := by
        intro p' hp'
        rw [henc, Option.some.injEq] at hp'
        rwa [← hp']
      -- both ways on from the parent are `checkPrev`, with another `result`
      have hrest : ∀ result, (result = .false ∨ (t.data dc).cond ≠ .unset) →
          CheckSpec env a t s dc (checkPrev env a t
            (configCheckCondCached env a t (confcacheLock s) p).1 dc result) ∧
          (condValue env a t dc ≠ .unset → GuardsKnown t (checkPrev env a t
            (configCheckCondCached env a t (confcacheLock s) p).1 dc result).1.cache dc) := by
        intro result hresult
        obtain ⟨hspec, hprev⟩ := checkPrev_spec hp.consistent hresult hsome
          fun q hq => ih q hq _ hp.consistent
        refine ⟨⟨hspec.value, hspec.consistent, hp.grows.trans hspec.grows⟩, fun hdc g hg => ?_⟩
        rcases hg with hg | hg
        · rw [henc, Option.some.injEq] at hg
          subst hg
          simpa [hspec.grows p hne] using hne
        · exact hprev hdc g hg
      cases hv' : condValue env a t p with
      | unset => exact absurd hv' hv
      | skip => exact hrest .skip (.inr (hcond hpos))
      | false => exact hrest .skip (.inr (hcond hpos))
      | true => exact hrest .false (.inl rfl)

/-- A value that is true or false is the one of the own comparison. -/
theorem condValue_eq_localValue (h : condValue env a t dc = .true ∨ condValue env a t dc = .false) :
    condValue env a t dc = localValue env a t dc := by
  have hlocal : ∀ r, (r = .true ∨ r = .false) → ownValue env a t dc = r →
      r = localValue env a t dc := by
    intro r hr hown
    unfold ownValue at hown
    split_ifs at hown with hv
    · exact hown.symm
    · subst hown
      simp at hr
  by_cases henc : ∀ p, t.enclosing dc = some p → condValue env a t p ≠ .unset
  · have hvalue := condValue_of_enclosing_ne henc
    cases hprev : (t.data dc).prev with
    | none => exact hlocal _ h (by rw [hvalue, hprev])
    | some q =>
      rw [hprev] at hvalue
      simp only at hvalue
      cases hq : condValue env a t q with
      | false => exact hlocal _ h (by rw [hvalue, hq]; rfl)
      | _ =>
        rw [hvalue, hq] at h
        simp [afterPrev] at h
  · push Not at henc
    obtain ⟨p, hp, hv⟩ := henc
    rw [condValue_of_enclosing_unset hp hv] at h
    simp at h

/-- Storing the value of a block whose guards are known keeps the cache consistent. -/
theorem storeResult_consistent (hc : Consistent env a t s.cache)
    (hguards : condValue env a t dc ≠ .unset → GuardsKnown t s.cache dc) :
    Consistent env a t (storeResult s dc (condValue env a t dc)).cache where
  result_eq i hi := by
    by_cases h : i = dc
    · subst h
      simp [storeResult]
    · simp only [storeResult, Function.update_of_ne h] at hi ⊢
      exact hc.result_eq i hi
  local_eq i hi := by
    by_cases h : i = dc
    · subst h
      simp only [storeResult, Function.update_self] at hi ⊢
      split_ifs at hi ⊢ with hr
      · exact condValue_eq_localValue hr
      · exact hc.local_eq i hi
    · simp only [storeResult, Function.update_of_ne h] at hi ⊢
      exact hc.local_eq i hi
  closed g i hg hi := by
    have hgi : g ≠ i := hg.lt.ne
    by_cases h : i = dc
    · subst h
      simp only [storeResult, Function.update_self, Function.update_of_ne hgi] at hi ⊢
      exact hguards hi g hg
    · simp only [storeResult, Function.update_of_ne h] at hi ⊢
      by_cases hgd : g = dc
      · subst hgd
        have := hc.closed g i hg hi
        rw [Function.update_self]
        rwa [← hc.result_eq g this]
      · rw [Function.update_of_ne hgd]
        exact hc.closed g i hg hi

end

/-- Checking a block through a consistent cache gives its value and keeps the cache
consistent. -/
theorem configCheckCondCached_spec {env : CondEnv}
    (hcond : ∀ i : Fin n, i.val ≠ 0 → (t.data i).cond ≠ .unset) (dc : Fin n) (s : CondState n)
    (hc : Consistent env a t s.cache) :
    CheckSpec env a t s dc (configCheckCondCached env a t s dc) ∧
      ((configCheckCondCached env a t s dc).1.cache dc).result = condValue env a t dc := by
  by_cases h : (s.cache dc).result = .unset
  · obtain ⟨hspec, hguards⟩ := configCheckCondNocache_spec hc (hcond dc)
      fun g _ s' hc' => configCheckCondCached_spec hcond g s' hc'
    rw [configCheckCondCached_of_unset h, hspec.value]
    refine ⟨⟨rfl, storeResult_consistent hspec.consistent hguards, fun i hi => ?_⟩, ?_⟩
    · have hne : i ≠ dc := fun hid => hi (by rw [hid, h])
      simpa [storeResult, Function.update_of_ne hne] using hspec.grows i hi
    · simp [storeResult]
  · rw [configCheckCondCached_of_ne h]
    exact ⟨⟨hc.result_eq dc h, hc, Extends.refl _⟩, hc.result_eq dc h⟩
termination_by dc.val

/-! ## Resetting an item -/

section

variable {t : ConfigTree n} {c c' c'' : Fin n → CondCache}

/-- Results were only dropped, and local results kept. -/
def Shrinks (c c' : Fin n → CondCache) : Prop :=
  ∀ i, ((c' i).result = (c i).result ∨ (c' i).result = .unset) ∧
    (c' i).localResult = (c i).localResult

theorem Shrinks.refl (c : Fin n → CondCache) : Shrinks c c := fun _ => ⟨.inl rfl, rfl⟩

theorem Shrinks.trans (h : Shrinks c c') (h' : Shrinks c' c'') : Shrinks c c'' := fun i => by
  obtain ⟨h1, h2⟩ := h i
  obtain ⟨h1', h2'⟩ := h' i
  refine ⟨?_, h2'.trans h2⟩
  rcases h1' with h1' | h1'
  · rw [h1']
    exact h1
  · exact .inr h1'

theorem Shrinks.unset (h : Shrinks c c') {i : Fin n} (hi : (c i).result = .unset) :
    (c' i).result = .unset :=
  (h i).1.elim (fun h => h.trans hi) id

/-- No result is kept whose guards are unset, but for the guards in `V`. -/
def ClosedExcept (t : ConfigContext n) (V : Fin n → Prop) (c : Fin n → CondCache) : Prop :=
  ∀ g i, t.Guard g i → (c i).result ≠ .unset → (c g).result ≠ .unset ∨ V g

theorem configCondClearNode_of_unset (h : (c dc).result = .unset) :
    configCondClearNode t c dc = c := by
  rw [configCondClearNode]
  simp [h]

/-- `config_cond_clear_node` on the first blocks of the chains among `l`. -/
def clearChildren (t : ConfigTree n) (c : Fin n → CondCache) (l : List (Fin n)) :
    Fin n → CondCache :=
  l.foldl (fun c i => if (t.data i).prev = none then configCondClearNode t c i else c) c

theorem configCondClearNode_of_ne (h : (c dc).result ≠ .unset) :
    configCondClearNode t c dc =
      match (t.data dc).next with
      | some next => configCondClearNode t
          (clearChildren t (Function.update c dc { c dc with result := .unset })
            (t.data dc).children) next
      | none => clearChildren t (Function.update c dc { c dc with result := .unset })
          (t.data dc).children := by
  rw [configCondClearNode, if_pos h]
  simp only [List.foldl_attach (f := fun c i =>
    if (t.data i).prev = none then configCondClearNode t c i else c)]
  split
  · next next h' => simp only [h', clearChildren]
  · next h' => simp only [h', clearChildren]

/-- What clearing `dc` must do. -/
structure ClearSpec (t : ConfigTree n) (V : Fin n → Prop) (c : Fin n → CondCache) (dc : Fin n)
    (c' : Fin n → CondCache) : Prop where
  closed : ClosedExcept t.toConfigContext V c'
  shrinks : Shrinks c c'
  unset : (c' dc).result = .unset

/-- The loop over the children, from the same for each of them. -/
theorem clearChildren_spec {V : Fin n → Prop} :
    ∀ (l : List (Fin n)) (c : Fin n → CondCache), ClosedExcept t.toConfigContext V c →
      (∀ i ∈ l, ∀ c, ClosedExcept t.toConfigContext V c →
        ClearSpec t V c i (configCondClearNode t c i)) →
      ClosedExcept t.toConfigContext V (clearChildren t c l) ∧ Shrinks c (clearChildren t c l) ∧
        ∀ i ∈ l, (t.data i).prev = none → ((clearChildren t c l) i).result = .unset
  | [], c, hc, _ => ⟨hc, Shrinks.refl c, by simp⟩
  | i :: l, c, hc, h => by
    have hrest : ∀ j ∈ l, ∀ c, ClosedExcept t.toConfigContext V c →
        ClearSpec t V c j (configCondClearNode t c j) :=
      fun j hj => h j (List.mem_cons_of_mem i hj)
    by_cases hprev : (t.data i).prev = none
    · have hi := h i List.mem_cons_self c hc
      obtain ⟨h1, h2, h3⟩ := clearChildren_spec l _ hi.closed hrest
      have heq : clearChildren t c (i :: l) = clearChildren t (configCondClearNode t c i) l := by
        simp [clearChildren, hprev]
      rw [heq]
      refine ⟨h1, hi.shrinks.trans h2, fun j hj hjp => ?_⟩
      rcases List.mem_cons.mp hj with rfl | hj
      · exact h2.unset hi.unset
      · exact h3 j hj hjp
    · obtain ⟨h1, h2, h3⟩ := clearChildren_spec l c hc hrest
      have heq : clearChildren t c (i :: l) = clearChildren t c l := by
        simp [clearChildren, hprev]
      rw [heq]
      refine ⟨h1, h2, fun j hj hjp => ?_⟩
      rcases List.mem_cons.mp hj with rfl | hj
      · exact absurd hjp hprev
      · exact h3 j hj hjp

/-- With the first blocks of the chains in `dc` unset, all blocks in `dc` are. -/
theorem children_unset {V : Fin n → Prop} (hV : ∀ g, V g → g ≤ dc)
    (hc : ClosedExcept t.toConfigContext V c)
    (hfirst : ∀ i ∈ (t.data dc).children, (t.data i).prev = none → (c i).result = .unset)
    (i : Fin n) (hi : (t.data i).parent = some dc) : (c i).result = .unset := by
  cases hprev : (t.data i).prev with
  | none => exact hfirst i (t.children_iff.mpr hi) hprev
  | some q =>
    have hq : (t.data q).parent = some dc := by rw [t.prev_parent hprev, hi]
    have : q.val < i.val := t.prev_lt hprev
    have ih := children_unset hV hc hfirst q hq
    by_contra hne
    rcases hc q i (.inr hprev) hne with h | h
    · exact h ih
    · exact absurd (hV q h) (not_le.mpr (t.parent_lt hq))
termination_by i.val

/-- Clearing a block leaves no result behind whose guards were dropped: the walk may stop at
an unset block, since nothing below it has a result. -/
theorem configCondClearNode_spec {V : Fin n → Prop} (dc : Fin n) (c : Fin n → CondCache)
    (hV : ∀ g, V g → g < dc) (hc : ClosedExcept t.toConfigContext V c) :
    ClearSpec t V c dc (configCondClearNode t c dc) := by
  by_cases h : (c dc).result = .unset
  · rw [configCondClearNode_of_unset h]
    exact ⟨hc, Shrinks.refl c, h⟩
  have hself : ∀ {c'}, Shrinks (Function.update c dc { c dc with result := .unset }) c' →
      (c' dc).result = .unset := fun hs => hs.unset (by simp)
  -- `dc` itself is unset from here on, and what it guards may not be yet
  have hc₁ : ClosedExcept t.toConfigContext (fun g => V g ∨ g = dc)
      (Function.update c dc { c dc with result := .unset }) := by
    intro g i hg hi
    by_cases hid : i = dc
    · simp [hid] at hi
    · rw [Function.update_of_ne hid] at hi
      by_cases hgd : g = dc
      · exact .inr (.inr hgd)
      · rw [Function.update_of_ne hgd]
        exact (hc g i hg hi).imp id .inl
  have hs₁ : Shrinks c (Function.update c dc { c dc with result := .unset }) := by
    intro i
    by_cases hid : i = dc
    · subst hid
      simp
    · simp [Function.update_of_ne hid]
  have hsub : ∀ i, dc < i → ∀ c', ClosedExcept t.toConfigContext (fun g => V g ∨ g = dc) c' →
      ClearSpec t (fun g => V g ∨ g = dc) c' i (configCondClearNode t c' i) := by
    intro i hi c' hc'
    refine configCondClearNode_spec i c' (fun g hg => ?_) hc'
    rcases hg with hg | rfl
    · exact (hV g hg).trans hi
    · exact hi
  obtain ⟨hc₂, hs₂, hfirst⟩ := clearChildren_spec (t.data dc).children _ hc₁
    fun i hi => hsub i (t.parent_lt (t.children_iff.mp hi))
  have hVle : ∀ g, (V g ∨ g = dc) → g ≤ dc := fun g hg => hg.elim (fun h => (hV g h).le) le_of_eq
  -- once children and next are unset, `dc` guards no result any more
  have hdone : ∀ c', ClosedExcept t.toConfigContext (fun g => V g ∨ g = dc) c' →
      (∀ i, (t.data i).parent = some dc → (c' i).result = .unset) →
      (∀ i, (t.data i).prev = some dc → (c' i).result = .unset) →
      ClosedExcept t.toConfigContext V c' := by
    intro c' hc' hchild hnext g i hg hi
    rcases hc' g i hg hi with hg' | hg' | rfl
    · exact .inl hg'
    · exact .inr hg'
    · rcases hg with hg | hg
      · exact absurd (hchild i (Option.filter_eq_some_iff.mp hg).1) hi
      · exact absurd (hnext i hg) hi
  have hchildren := children_unset hVle hc₂ hfirst
  rw [configCondClearNode_of_ne h]
  cases hnext : (t.data dc).next with
  | none =>
    refine ⟨hdone _ hc₂ hchildren fun i hi => ?_, hs₁.trans hs₂, hself hs₂⟩
    rw [← t.next_iff, hnext] at hi
    cases hi
  | some next =>
    have hlt : dc < next := t.prev_lt (t.next_iff.mp hnext)
    have h₃ := hsub next hlt _ hc₂
    refine ⟨hdone _ h₃.closed (fun i hi => h₃.shrinks.unset (hchildren i hi)) fun i hi => ?_,
      (hs₁.trans hs₂).trans h₃.shrinks, hself (hs₂.trans h₃.shrinks)⟩
    rw [← t.next_iff, hnext, Option.some.injEq] at hi
    rw [← hi]
    exact h₃.unset
termination_by n - dc.val

/-- Results and local results were only dropped. -/
def Drops (c c' : Fin n → CondCache) : Prop :=
  ∀ i, ((c' i).result = (c i).result ∨ (c' i).result = .unset) ∧
    ((c' i).localResult = (c i).localResult ∨ (c' i).localResult = .unset)

theorem Drops.refl (c : Fin n → CondCache) : Drops c c := fun _ => ⟨.inl rfl, .inl rfl⟩

theorem Drops.trans (h : Drops c c') (h' : Drops c' c'') : Drops c c'' := fun i => by
  obtain ⟨h1, h2⟩ := h i
  obtain ⟨h1', h2'⟩ := h' i
  refine ⟨h1'.elim (fun e => ?_) .inr, h2'.elim (fun e => ?_) .inr⟩
  · rwa [e]
  · rwa [e]

theorem Shrinks.drops (h : Shrinks c c') : Drops c c' := fun i => ⟨(h i).1, .inl (h i).2⟩

/-- Nothing is kept at `i`. -/
def DroppedAt (c : Fin n → CondCache) (i : Fin n) : Prop :=
  (c i).result = .unset ∧ (c i).localResult = .unset

theorem Drops.droppedAt (h : Drops c c') {i : Fin n} (hi : DroppedAt c i) : DroppedAt c' i :=
  ⟨(h i).1.elim (fun e => e.trans hi.1) id, (h i).2.elim (fun e => e.trans hi.2) id⟩

theorem resetItemAt_spec (item : CompKey) (i : Fin n)
    (hc : ClosedExcept t.toConfigContext (fun _ => False) c) :
    ClosedExcept t.toConfigContext (fun _ => False) (resetItemAt t item c i) ∧
      Drops c (resetItemAt t item c i) ∧
      ((t.data i).comp = item → DroppedAt (resetItemAt t item c i) i) := by
  unfold resetItemAt
  split_ifs with h
  · have hres : ∀ j, (Function.update c i { c i with localResult := .unset } j).result =
        (c j).result := update_result rfl
    have hc' : ClosedExcept t.toConfigContext (fun _ => False)
        (Function.update c i { c i with localResult := .unset }) := by
      intro g j hg hj
      rw [hres] at hj ⊢
      exact hc g j hg hj
    have hdrop : Drops c (Function.update c i { c i with localResult := .unset }) := by
      intro j
      refine ⟨.inl (hres j), ?_⟩
      by_cases hji : j = i
      · subst hji
        simp
      · simp [Function.update_of_ne hji]
    have hclear := configCondClearNode_spec (V := fun _ => False) i _ (by simp) hc'
    refine ⟨hclear.closed, hdrop.trans hclear.shrinks.drops, fun _ => ⟨hclear.unset, ?_⟩⟩
    rw [(hclear.shrinks i).2]
    simp
  · exact ⟨hc, Drops.refl c, fun h' => absurd h'.symm h⟩

/-- The reset loop keeps nothing of the blocks on `item`, and no result they guard. -/
theorem resetItem_spec (item : CompKey) :
    ∀ (l : List (Fin n)) (c : Fin n → CondCache),
      ClosedExcept t.toConfigContext (fun _ => False) c →
      ClosedExcept t.toConfigContext (fun _ => False) (l.foldl (resetItemAt t item) c) ∧
        Drops c (l.foldl (resetItemAt t item) c) ∧
        ∀ i ∈ l, (t.data i).comp = item → DroppedAt (l.foldl (resetItemAt t item) c) i
  | [], c, hc => ⟨hc, Drops.refl c, by simp⟩
  | i :: l, c, hc => by
    obtain ⟨hc', hdrop, hi⟩ := resetItemAt_spec item i hc
    obtain ⟨h1, h2, h3⟩ := resetItem_spec item l _ hc'
    refine ⟨h1, hdrop.trans h2, fun j hj hcomp => ?_⟩
    rcases List.mem_cons.mp hj with rfl | hj
    · exact h2.droppedAt (hi hcomp)
    · exact h3 j hj hcomp

end

section

variable {env : CondEnv} {a b : ConAttrs} {t : ConfigContext n}

theorem condSubject_congr {dc : DataConfig n} (h : ConAttrs.SameAt dc.comp a b) :
    condSubject env a dc = condSubject env b dc := by
  obtain ⟨-, h⟩ := h
  unfold condSubject
  cases hc : dc.comp with
  | httpHost =>
    rw [hc] at h
    simp only [hostSubject, h.1, h.2]
  | httpRemoteIp =>
    rw [hc] at h
    simp only [remoteIpSubject, h.1, h.2]
  | _ => simp_all only

theorem localValue_congr (h : ConAttrs.SameAt (t.data dc).comp a b) :
    localValue env a t dc = localValue env b t dc := by
  simp only [localValue, condSubject_congr h]

theorem ownValue_congr (h : ConAttrs.SameAt (t.data dc).comp a b) :
    ownValue env a t dc = ownValue env b t dc := by
  simp only [ownValue, localValue_congr h, h.1]

/-- Two connections that agree on all a closed set of blocks compare give these blocks the
same values. -/
theorem condValue_congr {P : Fin n → Prop} (hclosed : ∀ g i, t.Guard g i → P i → P g)
    (hsame : ∀ i, P i → ConAttrs.SameAt (t.data i).comp a b) (dc : Fin n) (hdc : P dc) :
    condValue env a t dc = condValue env b t dc := by
  have hguard : ∀ g, t.Guard g dc → condValue env a t g = condValue env b t g := by
    intro g hg
    have : g.val < dc.val := hg.lt
    exact condValue_congr hclosed hsame g (hclosed g dc hg hdc)
  by_cases henc : ∀ p, t.enclosing dc = some p → condValue env a t p ≠ .unset
  · have henc' : ∀ p, t.enclosing dc = some p → condValue env b t p ≠ .unset := by
      intro p hp
      rw [← hguard p (.inl hp)]
      exact henc p hp
    rw [condValue_of_enclosing_ne henc, condValue_of_enclosing_ne henc',
      ownValue_congr (hsame dc hdc)]
    cases hprev : (t.data dc).prev with
    | none => rfl
    | some q => simp only [hguard q (.inr hprev)]
  · push Not at henc
    obtain ⟨p, hp, hv⟩ := henc
    rw [condValue_of_enclosing_unset hp hv,
      condValue_of_enclosing_unset hp (by rwa [← hguard p (.inl hp)])]
termination_by dc.val

end

/-- After `config_cond_cache_reset_item` the cache is consistent with every connection that
differs behind that key only. -/
theorem Consistent.resetItem {env : CondEnv} {a b : ConAttrs} {t : ConfigTree n}
    {s : CondState n} {item : CompKey} (hc : Consistent env a t.toConfigContext s.cache)
    (hab : ∀ K ≠ item, ConAttrs.SameAt K a b) :
    Consistent env b t.toConfigContext (configCondCacheResetItem t s item).cache := by
  obtain ⟨hclosed, hdrops, hitem⟩ := resetItem_spec (t := t) item (List.finRange n) s.cache
    fun g i hg hi => .inl (hc.closed g i hg hi)
  change Consistent env b _ ((List.finRange n).foldl (resetItemAt t item) s.cache)
  generalize (List.finRange n).foldl (resetItemAt t item) s.cache = c' at *
  have hsame : ∀ i, ¬ DroppedAt c' i → ConAttrs.SameAt (t.data i).comp a b :=
    fun i hi => hab _ fun hcomp => hi (hitem i (List.mem_finRange i) hcomp)
  refine ⟨fun i hi => ?_, fun i hi => ?_, fun g i hg hi => (hclosed g i hg hi).elim id False.elim⟩
  · have hres : (c' i).result = (s.cache i).result := (hdrops i).1.resolve_right hi
    rw [hres] at hi ⊢
    rw [hc.result_eq i hi]
    refine condValue_congr (P := fun i => (c' i).result ≠ .unset)
      (fun g i hg hi => (hclosed g i hg hi).elim id False.elim) (fun i hi => hsame i ?_) i
      (by rwa [hres])
    exact fun h => hi h.1
  · have hres : (c' i).localResult = (s.cache i).localResult := (hdrops i).2.resolve_right hi
    rw [hres] at hi ⊢
    rw [hc.local_eq i hi]
    exact localValue_congr (hsame i fun h => by rw [← hres] at hi; exact hi h.2)

/-! ## Runs -/

/-- The states of a connection and its condition cache, with the keys behind which
something changed since the last check and that were not reset. Just after
`config_cond_cache_reset` (`fresh`) there is nothing to reset. -/
inductive Reachable (env : CondEnv) (t : ConfigTree n) :
    ConAttrs → CondState n → Finset CompKey → Bool → Prop
  | start (a : ConAttrs) (s : CondState n) :
    Reachable env t { a with conditionalIsValid := fun _ => false } (configCondCacheReset s) ∅ true
  | check {a s fresh} (h : Reachable env t a s ∅ fresh) (dc : Fin n) :
    Reachable env t a (configCheckCond env a t.toConfigContext s dc).1 ∅ false
  | change {a s stale fresh} (h : Reachable env t a s stale fresh) (K : CompKey) (b : ConAttrs)
    (hb : ∀ K' ≠ K, ConAttrs.SameAt K' a b) :
    Reachable env t b s (if fresh then stale else insert K stale) fresh
  | resetItem {a s stale fresh} (h : Reachable env t a s stale fresh) (K : CompKey) :
    Reachable env t a (configCondCacheResetItem t s K) (stale.erase K) fresh
  | reset {a s stale fresh} (h : Reachable env t a s stale fresh) :
    Reachable env t { a with conditionalIsValid := fun _ => false } (configCondCacheReset s) ∅ true

theorem ConAttrs.SameAt.symm {K : CompKey} {b : ConAttrs} (h : ConAttrs.SameAt K a b) :
    ConAttrs.SameAt K b a := by
  obtain ⟨h1, h2⟩ := h
  refine ⟨h1.symm, ?_⟩
  cases K <;> simp_all only [and_self]

theorem ConAttrs.SameAt.trans {K : CompKey} {a b c : ConAttrs} (h : ConAttrs.SameAt K a b)
    (h' : ConAttrs.SameAt K b c) : ConAttrs.SameAt K a c := by
  obtain ⟨h1, h2⟩ := h
  obtain ⟨h1', h2'⟩ := h'
  refine ⟨h1.trans h1', ?_⟩
  cases K <;> simp_all only [and_self]

theorem ConAttrs.SameAt.refl (K : CompKey) (a : ConAttrs) : ConAttrs.SameAt K a a :=
  ⟨rfl, by cases K <;> simp⟩

/-- The attributes of `b` with what is behind `K` taken from `a`. -/
def ConAttrs.replace (K : CompKey) (b a : ConAttrs) : ConAttrs where
  srvToken := if K = .serverSocket then a.srvToken else b.srvToken
  serverPort := if K = .httpHost then a.serverPort else b.serverPort
  path := if K = .httpUrl then a.path else b.path
  authority := if K = .httpHost then a.authority else b.authority
  dstAddr := if K = .httpRemoteIp then a.dstAddr else b.dstAddr
  dstAddrBuf := if K = .httpRemoteIp then a.dstAddrBuf else b.dstAddrBuf
  query := if K = .httpQueryString then a.query else b.query
  scheme := if K = .httpScheme then a.scheme else b.scheme
  httpMethod := if K = .httpRequestMethod then a.httpMethod else b.httpMethod
  headers := if K = .httpRequestHeader then a.headers else b.headers
  conditionalIsValid := Function.update b.conditionalIsValid K (a.conditionalIsValid K)

theorem ConAttrs.sameAt_replace (K : CompKey) (b a : ConAttrs) :
    ConAttrs.SameAt K (ConAttrs.replace K b a) a :=
  ⟨by simp [replace], by cases K <;> simp [replace]⟩

theorem ConAttrs.sameAt_replace_of_ne {K K' : CompKey} (h : K' ≠ K) (b a : ConAttrs) :
    ConAttrs.SameAt K' b (ConAttrs.replace K b a) := by
  refine ⟨by simp [replace, Function.update_of_ne h], ?_⟩
  cases K' <;> simp [replace, h.symm]

/-- The cache is consistent with some attributes that agree with the present ones on every
key that is not stale; while fresh, it is empty. -/
def CacheInv (env : CondEnv) (t : ConfigTree n) (a : ConAttrs) (s : CondState n)
    (stale : Finset CompKey) (fresh : Bool) : Prop :=
  (∃ b, Consistent env b t.toConfigContext s.cache ∧ ∀ K ∉ stale, ConAttrs.SameAt K b a) ∧
    (fresh → stale = ∅ ∧ ∀ i, (s.cache i).result = .unset ∧ (s.cache i).localResult = .unset)

theorem Consistent.of_empty (env : CondEnv) (a : ConAttrs) (t : ConfigContext n)
    (h : ∀ i, DroppedAt c i) : Consistent env a t c where
  result_eq i hi := absurd (h i).1 hi
  local_eq i hi := absurd (h i).2 hi
  closed _ i _ hi := absurd (h i).1 hi

section

variable {env : CondEnv} {a : ConAttrs} {t : ConfigTree n} {s : CondState n}
  {stale : Finset CompKey} {fresh : Bool}

theorem cacheInv_reset (env : CondEnv) (t : ConfigTree n) (a : ConAttrs) (s : CondState n) :
    CacheInv env t a (configCondCacheReset s) ∅ true :=
  ⟨⟨a, Consistent.of_empty env a _ fun _ => ⟨rfl, rfl⟩, fun K _ => .refl K a⟩,
    fun _ => ⟨rfl, fun _ => ⟨rfl, rfl⟩⟩⟩

/-- With no stale key the cache is consistent with the present attributes. -/
theorem CacheInv.consistent (h : CacheInv env t a s ∅ fresh) :
    Consistent env a t.toConfigContext s.cache := by
  obtain ⟨⟨b, hc, hsame⟩, -⟩ := h
  have hall : ∀ K, ConAttrs.SameAt K b a := fun K => hsame K (Finset.notMem_empty K)
  refine ⟨fun i hi => ?_, fun i hi => ?_, hc.closed⟩
  · rw [hc.result_eq i hi]
    exact condValue_congr (P := fun _ => True) (fun _ _ _ _ => trivial) (fun _ _ => hall _) i trivial
  · rw [hc.local_eq i hi]
    exact localValue_congr (hall _)

theorem CacheInv.change (h : CacheInv env t a s stale fresh) (K : CompKey) {b : ConAttrs}
    (hb : ∀ K' ≠ K, ConAttrs.SameAt K' a b) :
    CacheInv env t b s (if fresh then stale else insert K stale) fresh := by
  obtain ⟨⟨a', hc, hsame⟩, hfresh⟩ := h
  cases fresh with
  | true =>
    obtain ⟨hstale, hempty⟩ := hfresh rfl
    exact ⟨⟨b, Consistent.of_empty env b _ hempty, fun K _ => .refl K b⟩, hfresh⟩
  | false =>
    refine ⟨⟨a', hc, fun K' hK' => ?_⟩, by simp⟩
    simp only [Bool.false_eq_true, if_false, Finset.mem_insert, not_or] at hK'
    exact (hsame K' hK'.2).trans (hb K' hK'.1)

theorem CacheInv.resetItem (h : CacheInv env t a s stale fresh) (K : CompKey) :
    CacheInv env t a (configCondCacheResetItem t s K) (stale.erase K) fresh := by
  obtain ⟨⟨a', hc, hsame⟩, hfresh⟩ := h
  have hdrops := (resetItem_spec (t := t) K (List.finRange n) s.cache
    fun g i hg hi => .inl (hc.closed g i hg hi)).2.1
  refine ⟨⟨ConAttrs.replace K a' a, hc.resetItem fun K' hK' => ConAttrs.sameAt_replace_of_ne hK' a' a,
    fun K' hK' => ?_⟩, fun hf => ?_⟩
  · by_cases hKK : K' = K
    · rw [hKK]
      exact ConAttrs.sameAt_replace K a' a
    · have hnot : K' ∉ stale := fun hmem => hK' (Finset.mem_erase.mpr ⟨hKK, hmem⟩)
      exact (ConAttrs.sameAt_replace_of_ne hKK a' a).symm.trans (hsame K' hnot)
  · obtain ⟨rfl, hempty⟩ := hfresh hf
    exact ⟨by simp, fun i => hdrops.droppedAt (hempty i)⟩

theorem CacheInv.check (h : CacheInv env t a s ∅ fresh) (dc : Fin n) :
    CacheInv env t a (configCheckCond env a t.toConfigContext s dc).1 ∅ false :=
  ⟨⟨a, (configCheckCondCached_spec (fun _ => t.cond_ne_unset) dc s h.consistent).1.consistent,
    fun K _ => .refl K a⟩, by simp⟩

theorem Reachable.cacheInv (h : Reachable env t a s stale fresh) :
    CacheInv env t a s stale fresh := by
  induction h with
  | start a s => exact cacheInv_reset env t _ s
  | check _ dc ih => exact ih.check dc
  | change _ K b hb ih => exact ih.change K hb
  | resetItem _ K ih => exact ih.resetItem K
  | reset _ ih => exact cacheInv_reset env t _ _

/-- With every change reset, a check gives the value of the block. -/
theorem Reachable.configCheckCond_eq (h : Reachable env t a s ∅ fresh) (dc : Fin n) :
    (configCheckCond env a t.toConfigContext s dc).2 =
      decide (condValue env a t.toConfigContext dc = .true) := by
  have hspec := (configCheckCondCached_spec (fun _ => t.cond_ne_unset) dc s h.cacheInv.consistent).1
  simp only [configCheckCond, hspec.value]

end

/-- A block on the request URL nested in a block on the host. -/
def nestedTree : ConfigTree 3 where
  data i :=
    if i = 0 then ⟨.unset, [], .unset, none, none, none, none, [1]⟩
    else if i = 1 then ⟨.httpHost, [], .eq, some (str "intranet"), some 0, none, none, [2]⟩
    else ⟨.httpUrl, [], .eq, some (str "/admin"), some 1, none, none, []⟩
  parent_lt {i p} := by revert i p; decide
  prev_lt {i q} := by revert i q; decide
  next_iff {i j} := by revert i j; decide
  prev_parent {i q} := by revert i q; decide
  children_iff {i j} := by revert i j; decide
  cond_ne_unset {i} := by revert i; decide

/-- No regular expression matches and no address is valid. -/
def plainEnv : CondEnv where
  toAddrLib := .noAddress
  pcreExec _ _ := (-1, [])

/-- A request for `path` at `host`, with the keys `valid`. -/
def requestAttrs (host path : Bytes) (valid : List CompKey) : ConAttrs where
  srvToken := some []
  serverPort := 80
  path := some path
  authority := some host
  dstAddr := .inet 0 0
  dstAddrBuf := some []
  query := some []
  scheme := some (str "http")
  httpMethod := str "GET"
  headers := []
  conditionalIsValid K := valid.contains K

/-- The state of a connection before the first check. -/
def emptyState (n : ℕ) : CondState n := ⟨fun _ => ⟨.unset, .unset, 0, [], none⟩, ⟨0, false⟩⟩

theorem sameAt_requestAttrs_host (host host' path : Bytes) (valid : List CompKey) :
    ∀ K ≠ CompKey.httpHost, ConAttrs.SameAt K (requestAttrs host path valid)
      (requestAttrs host' path (.httpHost :: valid)) := by
  intro K hK
  cases K <;> simp_all [ConAttrs.SameAt, requestAttrs]

end Lighttpd
