import Lighttpd.CondMatches

/-!
# What checks and resets do to the matches in the cache

A check leaves the match of every block that is decided already and fills in the match of a block
that it decides, whatever the attributes were when the other blocks were decided
(`configCheckCondCached_kept`). `config_cond_cache_reset_item` makes the blocks of its key undecided
and leaves the matches of the others (`configCondCacheResetItem_kept`).
-/

namespace Lighttpd

open CString

variable {n : ℕ}

/-- The own comparison of the block has a result. -/
def CondCache.Decided (e : CondCache) : Prop := e.localResult = .true ∨ e.localResult = .false

instance (e : CondCache) : Decidable e.Decided := inferInstanceAs (Decidable (_ ∨ _))

/-! ## Checks -/

/-- What a check makes of an entry: the match of a decided block is kept, and a block that becomes
decided gets its match. -/
structure MatchKept (env : CondEnv) (a : ConAttrs) (dc : DataConfig n) (e e' : CondCache) :
    Prop where
  same : e.Decided → SameSlots e e'
  matched : ¬ e.Decided → e'.Decided → Matched env a dc e'

section MatchKept

variable {env : CondEnv} {a : ConAttrs} {dc : DataConfig n} {e e' e'' : CondCache}

theorem SameSlots.decided_iff (h : SameSlots e e') : e'.Decided ↔ e.Decided := by
  rw [CondCache.Decided, CondCache.Decided, h.2.2.2]

theorem Matched.of_sameSlots (h : Matched env a dc e) (hs : SameSlots e e') :
    Matched env a dc e' :=
  h.congr (.refl _ _) hs

theorem MatchKept.refl (e : CondCache) : MatchKept env a dc e e :=
  ⟨fun _ => .refl e, fun h h' => absurd h' h⟩

theorem MatchKept.trans (h : MatchKept env a dc e e') (h' : MatchKept env a dc e' e'') :
    MatchKept env a dc e e'' := by
  refine ⟨fun hd => ?_, fun hd hd'' => ?_⟩
  · have hs := h.same hd
    exact hs.trans (h'.same (hs.decided_iff.mpr hd))
  · by_cases hd' : e'.Decided
    · exact (h.matched hd hd').of_sameSlots (h'.same hd')
    · exact h'.matched hd' hd''

/-- What the own comparison makes of an entry, before its result is stored. -/
structure Compared (env : CondEnv) (a : ConAttrs) (dc : DataConfig n) (e e' : CondCache)
    (r : CondResult) : Prop where
  localResult : e'.localResult = e.localResult
  same : e.Decided → SameSlots e e' ∧ (r = .true ∨ r = .false → r = e.localResult)
  matched : ¬ e.Decided → r = .true ∨ r = .false → Matched env a dc e'

theorem Compared.of_undecided (e : CondCache) {r : CondResult} (h : ¬ (r = .true ∨ r = .false)) :
    Compared env a dc e e r :=
  ⟨rfl, fun _ => ⟨.refl e, fun hr => absurd hr h⟩, fun _ hr => absurd hr h⟩

theorem checkOwn_compared (env : CondEnv) (a : ConAttrs) (dc : DataConfig n) (e : CondCache)
    (result : CondResult) :
    Compared env a dc e (checkOwn env a dc e result).1 (checkOwn env a dc e result).2 := by
  refine ⟨(checkOwn_fst env a dc e result).2, fun hd => ?_, fun hd hr => ?_⟩
  · rw [CondCache.Decided] at hd
    unfold checkOwn
    by_cases hvalid : a.conditionalIsValid dc.comp
    · rw [if_neg (not_not.mpr hvalid), if_pos hd]
      exact ⟨.refl e, fun _ => rfl⟩
    · rw [if_pos hvalid]
      exact ⟨.refl e, by simp⟩
  · rw [CondCache.Decided] at hd
    unfold checkOwn at hr ⊢
    by_cases hvalid : a.conditionalIsValid dc.comp
    · rw [if_neg (not_not.mpr hvalid), if_neg hd]
      by_cases helse : dc.cond = .elseBranch
      · rw [if_pos helse]
        exact fun hregex => by simp [DataConfig.isRegex, helse] at hregex
      · rw [if_neg helse]
        cases hsub : condSubject env a dc with
        | result r => exact fun _ ref l hsub' => by simp [hsub] at hsub'
        | buffer ref l => exact compareBuffer_matched hsub e result
    · rw [if_pos hvalid] at hr
      simp at hr

theorem Compared.matchKept {r : CondResult} (h : Compared env a dc e e' r) :
    MatchKept env a dc e { e' with
      result := r
      localResult := if r = .true ∨ r = .false then r else e'.localResult } := by
  refine ⟨fun hd => ?_, fun hd hd' => ?_⟩
  · obtain ⟨hs, hr⟩ := h.same hd
    refine ⟨hs.1, hs.2.1, hs.2.2.1, ?_⟩
    dsimp only
    split_ifs with hdecides
    · exact hr hdecides
    · exact h.localResult
  · have hdecides : r = .true ∨ r = .false := by
      by_contra hnot
      rw [CondCache.Decided] at hd'
      dsimp only at hd'
      rw [if_neg hnot, h.localResult] at hd'
      exact hd hd'
    exact h.matched hd hdecides

end MatchKept

/-- What a check of `dc` with the result `r` makes of the cache before it stores the result. -/
structure MatchKeptSpec (env : CondEnv) (a : ConAttrs) (t : ConfigContext n) (s : CondState n)
    (dc : Fin n) (r : CondState n × CondResult) : Prop where
  others : ∀ i ≠ dc, MatchKept env a (t.data i) (s.cache i) (r.1.cache i)
  own : ∃ e, MatchKept env a (t.data dc) (s.cache dc) e ∧
    Compared env a (t.data dc) e (r.1.cache dc) r.2

section Checks

variable {env : CondEnv} {a : ConAttrs} {t : ConfigContext n} {s s' : CondState n} {dc : Fin n}

theorem MatchKeptSpec.of_undecided {r : CondState n × CondResult}
    (h : ∀ i, MatchKept env a (t.data i) (s.cache i) (r.1.cache i))
    (hr : ¬ (r.2 = .true ∨ r.2 = .false)) : MatchKeptSpec env a t s dc r :=
  ⟨fun i _ => h i, _, h dc, .of_undecided _ hr⟩

theorem finishCheck_kept (h : ∀ i, MatchKept env a (t.data i) (s.cache i) (s'.cache i))
    (result : CondResult) : MatchKeptSpec env a t s dc (finishCheck env a t s' dc result) := by
  refine ⟨fun i hi => ?_, s'.cache dc, h dc, ?_⟩
  · simp only [finishCheck, cache_confcacheUnlock, Function.update_of_ne hi]
    exact h i
  · simp only [finishCheck, cache_confcacheUnlock, Function.update_self]
    exact checkOwn_compared env a (t.data dc) (s'.cache dc) result

theorem checkPrev_kept (h : ∀ i, MatchKept env a (t.data i) (s.cache i) (s'.cache i))
    (result : CondResult)
    (ih : ∀ q < dc, ∀ s i, MatchKept env a (t.data i) (s.cache i)
      ((configCheckCondCached env a t s q).1.cache i)) :
    MatchKeptSpec env a t s dc (checkPrev env a t s' dc result) := by
  cases hprev : (t.data dc).prev with
  | none =>
    rw [checkPrev_of_none hprev]
    exact finishCheck_kept h result
  | some q =>
    have hq i := (h i).trans (ih q (t.prev_lt hprev) s' i)
    rw [checkPrev_of_some hprev]
    cases (configCheckCondCached env a t s' q).2 with
    | false => exact finishCheck_kept hq result
    | _ => exact .of_undecided hq (by simp)

theorem configCheckCondNocache_kept
    (ih : ∀ g < dc, ∀ s i, MatchKept env a (t.data i) (s.cache i)
      ((configCheckCondCached env a t s g).1.cache i)) :
    MatchKeptSpec env a t s dc (configCheckCondNocache env a t s dc) := by
  have hlock i : MatchKept env a (t.data i) (s.cache i) ((confcacheLock s).cache i) := .refl _
  cases henc : t.enclosing dc with
  | none =>
    rw [configCheckCondNocache_of_none henc]
    exact checkPrev_kept hlock _ ih
  | some p =>
    have hp i : MatchKept env a (t.data i) (s.cache i)
        ((configCheckCondCached env a t (confcacheLock s) p).1.cache i) :=
      ih p (ConfigContext.enclosing_lt henc) (confcacheLock s) i
    rw [configCheckCondNocache_of_some henc]
    cases (configCheckCondCached env a t (confcacheLock s) p).2 with
    | unset => exact .of_undecided hp (by simp)
    | _ => exact checkPrev_kept hp _ ih

end Checks

theorem configCheckCondCached_kept (env : CondEnv) (a : ConAttrs) (t : ConfigContext n)
    (dc : Fin n) (s : CondState n) (i : Fin n) :
    MatchKept env a (t.data i) (s.cache i) ((configCheckCondCached env a t s dc).1.cache i) := by
  by_cases hunset : (s.cache dc).result = .unset
  · have hspec : MatchKeptSpec env a t s dc (configCheckCondNocache env a t s dc) :=
      configCheckCondNocache_kept fun g _ s i => configCheckCondCached_kept env a t g s i
    rw [configCheckCondCached_of_unset hunset]
    by_cases hi : i = dc
    · subst hi
      obtain ⟨e, hkept, hcompared⟩ := hspec.own
      simp only [storeResult, Function.update_self]
      exact hkept.trans hcompared.matchKept
    · simp only [storeResult, Function.update_of_ne hi]
      exact hspec.others i hi
  · rw [configCheckCondCached_of_ne hunset]
    exact .refl _
termination_by dc.val

section Reset

variable {t : ConfigTree n}

theorem resetItemAt_localResult (item : CompKey) (c : Fin n → CondCache) (i j : Fin n) :
    (resetItemAt t item c i j).localResult =
      if i = j ∧ item = (t.data i).comp then .unset else (c j).localResult := by
  unfold resetItemAt
  by_cases hitem : item = (t.data i).comp
  · rw [if_pos hitem, (configCondClearNode_sameSlots (t := t) i _ j).2.2.2]
    by_cases hj : i = j
    · subst hj
      rw [if_pos ⟨rfl, hitem⟩, Function.update_self]
    · rw [if_neg (fun h => hj h.1), Function.update_of_ne (Ne.symm hj)]
  · rw [if_neg hitem, if_neg (fun h => hitem h.2)]

theorem foldl_resetItemAt_localResult (item : CompKey) (j : Fin n) (l : List (Fin n))
    (c : Fin n → CondCache) :
    (l.foldl (resetItemAt t item) c j).localResult =
      if j ∈ l ∧ item = (t.data j).comp then .unset else (c j).localResult := by
  induction l generalizing c with
  | nil => simp
  | cons i l ih =>
    rw [List.foldl_cons, ih, resetItemAt_localResult]
    by_cases hitem : item = (t.data j).comp
    · by_cases hmem : j ∈ l
      · rw [if_pos ⟨hmem, hitem⟩, if_pos ⟨List.mem_cons_of_mem i hmem, hitem⟩]
      · by_cases hij : i = j
        · subst hij
          simp [hitem]
        · simp [hmem, hij, Ne.symm hij]
    · have hother : ¬ (i = j ∧ item = (t.data i).comp) := by
        rintro ⟨rfl, h⟩
        exact hitem h
      simp [hitem, hother]

/-- A reset leaves the blocks of other keys as they are, and the others undecided. -/
theorem configCondCacheResetItem_kept (s : CondState n) (item : CompKey) (j : Fin n) :
    ((t.data j).comp ≠ item →
      SameSlots (s.cache j) ((configCondCacheResetItem t s item).cache j)) ∧
    ((t.data j).comp = item → ¬ ((configCondCacheResetItem t s item).cache j).Decided) := by
  refine ⟨(configCondCacheResetItem_slots s item j).2, fun hitem hd => ?_⟩
  have hlocal : ((configCondCacheResetItem t s item).cache j).localResult = .unset := by
    rw [configCondCacheResetItem, foldl_resetItemAt_localResult,
      if_pos ⟨List.mem_finRange j, hitem.symm⟩]
  rw [CondCache.Decided, hlocal] at hd
  simp at hd

end Reset

end Lighttpd
