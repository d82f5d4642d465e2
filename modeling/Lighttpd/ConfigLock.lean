import Lighttpd.ConfigCache

/-!
# The lock of the condition cache

`config_check_cond_nocache` takes `cache_lock` and evaluates the parent and the previous
branch while it holds it. Either of them takes the lock again unless its result is in the
cache. So a check gets through exactly when its own result is cached, or the results of
both its guards are (`configCheckCond_lock_iff`).
-/

namespace Lighttpd

open CString

variable {n : ℕ} {env : CondEnv} {a : ConAttrs} {t : ConfigContext n}

/-- `s'` holds the lock as often as `s`, and a lock that blocked still does. -/
structure LockKept (s s' : CondState n) : Prop where
  held : s'.lock.held = s.lock.held
  blocked : s.lock.blocked → s'.lock.blocked

theorem LockKept.refl (s : CondState n) : LockKept s s := ⟨rfl, id⟩

theorem LockKept.trans {s s' s'' : CondState n} (h : LockKept s s') (h' : LockKept s' s'') :
    LockKept s s'' :=
  ⟨h'.held.trans h.held, fun hb => h'.blocked (h.blocked hb)⟩

variable {s : CondState n} {dc : Fin n}

/-- The rest of an evaluation that holds the lock, once the guards are passed. -/
theorem checkPrev_lock {result : CondResult}
    (ih : ∀ q < dc, ∀ s, LockKept s (configCheckCondCached env a t s q).1) :
    LockKept (confcacheUnlock s) (checkPrev env a t s dc result).1 := by
  cases hprev : (t.data dc).prev with
  | none =>
    rw [checkPrev_of_none hprev]
    exact ⟨rfl, id⟩
  | some q =>
    have hq := ih q (t.prev_lt hprev) s
    have hunlock : LockKept (confcacheUnlock s)
        (confcacheUnlock (configCheckCondCached env a t s q).1) :=
      ⟨by simp [confcacheUnlock, hq.held], hq.blocked⟩
    rw [checkPrev_of_some hprev]
    cases (configCheckCondCached env a t s q).2 with
    | false => exact hunlock.trans ⟨rfl, id⟩
    | _ => exact hunlock

theorem configCheckCondNocache_lock
    (ih : ∀ q < dc, ∀ s, LockKept s (configCheckCondCached env a t s q).1) :
    LockKept (confcacheUnlock (confcacheLock s)) (configCheckCondNocache env a t s dc).1 := by
  cases henc : t.enclosing dc with
  | none =>
    rw [configCheckCondNocache_of_none henc]
    exact checkPrev_lock ih
  | some p =>
    have hp := ih p (ConfigContext.enclosing_lt henc) (confcacheLock s)
    have hunlock : LockKept (confcacheUnlock (confcacheLock s))
        (confcacheUnlock (configCheckCondCached env a t (confcacheLock s) p).1) :=
      ⟨by simp [confcacheUnlock, hp.held], hp.blocked⟩
    rw [configCheckCondNocache_of_some henc]
    cases (configCheckCondCached env a t (confcacheLock s) p).2 with
    | unset => exact hunlock
    | _ => exact hunlock.trans (checkPrev_lock ih)

theorem lockKept_lock_unlock (s : CondState n) :
    LockKept s (confcacheUnlock (confcacheLock s)) :=
  ⟨rfl, fun h => by simp [confcacheUnlock, confcacheLock, h]⟩

theorem configCheckCondCached_lock (dc : Fin n) (s : CondState n) :
    LockKept s (configCheckCondCached env a t s dc).1 := by
  by_cases h : (s.cache dc).result = .unset
  · rw [configCheckCondCached_of_unset h]
    have hno : LockKept (confcacheUnlock (confcacheLock s))
        (configCheckCondNocache env a t s dc).1 :=
      configCheckCondNocache_lock fun q _ s => configCheckCondCached_lock q s
    exact ((lockKept_lock_unlock s).trans hno).trans ⟨rfl, id⟩
  · rw [configCheckCondCached_of_ne h]
    exact LockKept.refl s
termination_by dc.val

/-- A check of a block without a cached result takes the lock. -/
theorem blocked_of_unset (h : (s.cache dc).result = .unset) (hheld : s.lock.held ≠ 0) :
    (configCheckCondCached env a t s dc).1.lock.blocked := by
  rw [configCheckCondCached_of_unset h]
  have hno : LockKept (confcacheUnlock (confcacheLock s))
      (configCheckCondNocache env a t s dc).1 :=
    configCheckCondNocache_lock fun q _ s => configCheckCondCached_lock q s
  exact hno.blocked (by simp [confcacheUnlock, confcacheLock, hheld])

/-- With the lock held, the previous branch blocks exactly when it is not cached. -/
theorem checkPrev_blocked_iff {result : CondResult} (hheld : s.lock.held ≠ 0) :
    (checkPrev env a t s dc result).1.lock.blocked ↔
      s.lock.blocked ∨ ∃ q, (t.data dc).prev = some q ∧ (s.cache q).result = .unset := by
  cases hprev : (t.data dc).prev with
  | none =>
    rw [checkPrev_of_none hprev]
    simp [finishCheck, confcacheUnlock]
  | some q =>
    simp only [Option.some.injEq, exists_eq_left']
    by_cases h : (s.cache q).result = .unset
    · refine iff_of_true ?_ (.inr h)
      have hblocked : (configCheckCondCached env a t s q).1.lock.blocked :=
        blocked_of_unset h hheld
      rw [checkPrev_of_some hprev]
      cases (configCheckCondCached env a t s q).2 with
      | false => exact hblocked
      | _ => exact hblocked
    · rw [checkPrev_of_some hprev, configCheckCondCached_of_ne h]
      cases hq : (s.cache q).result with
      | unset => exact absurd hq h
      | false => simp [finishCheck, confcacheUnlock]
      | skip => simp [confcacheUnlock]
      | true => simp [confcacheUnlock]

theorem configCheckCondNocache_blocked_iff (hfree : s.lock = ⟨0, false⟩) :
    (configCheckCondNocache env a t s dc).1.lock.blocked ↔ ¬ GuardsKnown t s.cache dc := by
  have hheld : (confcacheLock s).lock.held ≠ 0 := by simp [confcacheLock]
  have hblocked : ¬ (confcacheLock s).lock.blocked := by simp [confcacheLock, hfree]
  have hguards : ¬ GuardsKnown t s.cache dc ↔
      (∃ p, t.enclosing dc = some p ∧ (s.cache p).result = .unset) ∨
        ∃ q, (t.data dc).prev = some q ∧ (s.cache q).result = .unset := by
    simp only [GuardsKnown, ConfigContext.Guard, not_forall, not_not, exists_prop, or_and_right,
      exists_or]
  rw [hguards]
  cases henc : t.enclosing dc with
  | none =>
    rw [configCheckCondNocache_of_none henc, checkPrev_blocked_iff hheld]
    simp [hblocked]
  | some p =>
    rw [configCheckCondNocache_of_some henc]
    simp only [Option.some.injEq, exists_eq_left']
    by_cases h : (s.cache p).result = .unset
    · refine iff_of_true ?_ (.inl h)
      have hp : (configCheckCondCached env a t (confcacheLock s) p).1.lock.blocked :=
        blocked_of_unset h hheld
      have hrest : ∀ result, LockKept
          (confcacheUnlock (configCheckCondCached env a t (confcacheLock s) p).1)
          (checkPrev env a t (configCheckCondCached env a t (confcacheLock s) p).1 dc result).1 :=
        fun result => checkPrev_lock fun q _ s => configCheckCondCached_lock q s
      cases (configCheckCondCached env a t (confcacheLock s) p).2 with
      | unset => exact hp
      | _ => exact (hrest _).blocked hp
    · rw [configCheckCondCached_of_ne (s := confcacheLock s) h]
      have hrest : ∀ result, (checkPrev env a t (confcacheLock s) dc result).1.lock.blocked ↔
          (s.cache p).result = .unset ∨
            ∃ q, (t.data dc).prev = some q ∧ (s.cache q).result = .unset := by
        intro result
        rw [checkPrev_blocked_iff hheld]
        simp [hblocked, h]
      cases hp : (s.cache p).result with
      | unset => exact absurd hp h
      | _ =>
        simp only [cache_confcacheLock, hp]
        rw [← hp]
        exact hrest _

theorem configCheckCond_blocked {cache : Fin n → CondCache} {lock : CacheLock}
    (h : (cache dc).result = .unset) :
    (configCheckCond env a t ⟨cache, lock⟩ dc).1.lock.blocked =
      (configCheckCondNocache env a t ⟨cache, lock⟩ dc).1.lock.blocked := by
  rw [configCheckCond, configCheckCondCached_of_unset h]
  rfl

theorem CacheLock.eq_free {l : CacheLock} (hheld : l.held = 0) (hblocked : ¬ l.blocked) :
    l = ⟨0, false⟩ := by
  cases l
  simp_all

/-- A check with the lock free never waits for itself and leaves the lock free exactly when
the result of the block, or the results of its enclosing block and of its previous branch,
are in the cache. -/
theorem configCheckCond_lock_iff (env : CondEnv) (a : ConAttrs) (t : ConfigContext n)
    (cache : Fin n → CondCache) (dc : Fin n) :
    (configCheckCond env a t ⟨cache, ⟨0, false⟩⟩ dc).1.lock = ⟨0, false⟩ ↔
      (cache dc).result ≠ .unset ∨ GuardsKnown t cache dc := by
  have hheld : (configCheckCond env a t ⟨cache, ⟨0, false⟩⟩ dc).1.lock.held = 0 :=
    (configCheckCondCached_lock dc _).held
  by_cases h : (cache dc).result = .unset
  · have hblocked : (configCheckCondNocache env a t ⟨cache, ⟨0, false⟩⟩ dc).1.lock.blocked ↔
        ¬ GuardsKnown t cache dc := configCheckCondNocache_blocked_iff rfl
    simp only [h, ne_eq, not_true_eq_false, false_or]
    rw [← not_iff_not, ← hblocked, ← configCheckCond_blocked h]
    refine ⟨fun hne => ?_, fun hb heq => by simp [heq] at hb⟩
    by_contra hb
    exact hne (CacheLock.eq_free hheld hb)
  · rw [configCheckCond, configCheckCondCached_of_ne h]
    exact iff_of_true rfl (Or.inl h)

/-- A nested block whose parent was not evaluated yet: the check takes the lock twice. -/
theorem configCheckCond_lock_nested :
    let a := requestAttrs (str "intranet") (str "/admin") [.httpUrl]
    (configCheckCond plainEnv a nestedTree.toConfigContext (emptyState 3) 2).1.lock.blocked := by
  have hunknown : ¬ GuardsKnown nestedTree.toConfigContext (emptyState 3).cache 2 :=
    fun h => h 1 (Or.inl (by decide)) rfl
  intro a
  rw [emptyState, configCheckCond_blocked rfl]
  exact (configCheckCondNocache_blocked_iff rfl).mpr hunknown

end Lighttpd
