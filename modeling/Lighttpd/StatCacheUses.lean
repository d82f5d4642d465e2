import Mathlib.Data.List.AList
import Lighttpd.StatCache

/-!
# Uses of the entries of the stat cache

`stat_cache_get_entry` returns a pointer to an entry, and a connection reads the entry after the
lock has been released. Another name with the same hash makes the cache free the entry, as does the
cleanup when the entry is older than two seconds. All uses see the entry that was asked for exactly
when no call takes an entry out of the cache between a call that returned it and its use
(`usesValid_iff`).
-/

namespace Lighttpd

open CString

/-- The cache with the addresses of its entries, the entries that are allocated, and the number of
allocations so far. -/
structure StatCacheHeap where
  files : AList fun _ : UInt32 => ℕ
  dirs : UInt32 → Option FamDirEntry
  entries : ℕ → Option StatCacheEntry
  allocated : ℕ

namespace StatCacheHeap

/-- The cache as `statCacheGetEntry` sees it. -/
def view (s : StatCacheHeap) : StatCache := ⟨fun k => (s.files.lookup k).bind s.entries, s.dirs⟩

/-- `stat_cache_entry_free` -/
def free (s : StatCacheHeap) (a : Option ℕ) : ℕ → Option StatCacheEntry :=
  match a with
  | none => s.entries
  | some a => Function.update s.entries a none

/-- `stat_cache_get_entry`: the address of the entry, unless it returned `HANDLER_ERROR`. An entry
with the name is written again; otherwise one is allocated, in place of the one with its key. -/
def getEntry (srv : StatCacheSrv) (followSymlink : Bool) (name : Bytes) (s : StatCacheHeap) :
    Option ℕ × StatCacheHeap :=
  let key := hashKey name followSymlink
  let r := statCacheGetEntry srv followSymlink name s.view
  match r.1 with
  | none => (none, s)
  | some sce =>
    if (cachedEntry s.view followSymlink name).isSome then
      (s.files.lookup key, { s with
        dirs := r.2.dirs
        entries := match s.files.lookup key with
          | none => s.entries
          | some a => Function.update s.entries a (some sce) })
    else
      (some s.allocated, {
        files := s.files.insert key s.allocated
        dirs := r.2.dirs
        entries := Function.update (s.free (s.files.lookup key)) s.allocated (some sce)
        allocated := s.allocated + 1 })

/-- `stat_cache_tag_old_entries` -/
def tagOldEntries (curTs : ℤ) (s : StatCacheHeap) : List UInt32 :=
  s.files.keys.filter fun k => (s.view.files k).any fun sce => decide (2 < curTs - sce.statTs)

/-- A turn of the second loop. -/
def deleteKey (s : StatCacheHeap) (ndx : UInt32) : StatCacheHeap :=
  match s.files.lookup ndx with
  | none => s
  | some a =>
    { s with
      files := s.files.erase ndx
      entries := s.free (some a) }

/-- `stat_cache_trigger_cleanup` -/
def triggerCleanup (curTs : ℤ) (s : StatCacheHeap) : StatCacheHeap :=
  (s.tagOldEntries curTs).foldl deleteKey s

end StatCacheHeap

/-! ## Runs -/

/-- An entry that a connection has got, with the name it asked for and the key of the name. -/
structure HeldEntry where
  entry : ℕ
  name : Bytes
  key : UInt32

/-- The cache, and what each connection has got, in the order of its calls. -/
structure CacheUsers where
  heap : StatCacheHeap
  held : ℕ → List HeldEntry

/-- A call or a use: connection `con` asks for a name; it uses the entry of the `i`-th call that
returned one to it; the cleanup. -/
inductive CacheCall
  | getEntry (con : ℕ) (srv : StatCacheSrv) (followSymlink : Bool) (name : Bytes)
  | use (con i : ℕ)
  | triggerCleanup (curTs : ℤ)

namespace CacheUsers

/-- Nothing has been asked for. -/
def init : CacheUsers := ⟨⟨∅, fun _ => none, fun _ => none, 0⟩, fun _ => []⟩

/-- One call. -/
def step (s : CacheUsers) : CacheCall → CacheUsers
  | .getEntry con srv followSymlink name =>
    let r := s.heap.getEntry srv followSymlink name
    match r.1 with
    | none => ⟨r.2, s.held⟩
    | some a => ⟨r.2, Function.update s.held con
        (s.held con ++ [⟨a, name, hashKey name followSymlink⟩])⟩
  | .use _ _ => s
  | .triggerCleanup curTs => ⟨s.heap.triggerCleanup curTs, s.held⟩

/-- The calls one after the other. -/
def run (s : CacheUsers) (calls : List CacheCall) : CacheUsers := calls.foldl step s

end CacheUsers

/-- The entry has not been freed and has the name that was asked for. -/
def HeldEntry.Valid (h : HeldEntry) (s : CacheUsers) : Prop :=
  ∃ sce, s.heap.entries h.entry = some sce ∧ sce.name = h.name

/-- Every use of an entry sees the entry. -/
def UsesValid (calls : List CacheCall) : Prop :=
  ∀ pre con i post, calls = pre ++ .use con i :: post →
    ∀ h, ((CacheUsers.init.run pre).held con)[i]? = some h → h.Valid (CacheUsers.init.run pre)

/-- There is a file with the name, and for the monitor of directories a directory in it. -/
def CanEnter (srv : StatCacheSrv) (name : Bytes) : Prop :=
  (srv.engine = .fam → (bufferCopyDirname name).isSome) ∧ (statNode srv.fs name).isSome

/-- The call takes what is in the cache for the entry out of it: another name with the key, or the
cleanup, when it is older than two seconds. -/
def HeldEntry.TakenOut (h : HeldEntry) (s : CacheUsers) : CacheCall → Prop
  | .getEntry _ srv followSymlink name =>
    hashKey name followSymlink = h.key ∧ name ≠ h.name ∧ CanEnter srv name
  | .use _ _ => False
  | .triggerCleanup curTs => ∃ sce, s.heap.view.files h.key = some sce ∧ 2 < curTs - sce.statTs

/-- No call takes an entry out of the cache that a connection has got before and uses after it. -/
def KeepsWhatIsUsed (calls : List CacheCall) : Prop :=
  ∀ pre c post, calls = pre ++ c :: post →
    ∀ con i h, ((CacheUsers.init.run pre).held con)[i]? = some h → .use con i ∈ post →
      ¬ h.TakenOut (CacheUsers.init.run pre) c

section Answers

variable {srv : StatCacheSrv} {followSymlink : Bool} {name : Bytes} {cache : StatCache}
  {sce : StatCacheEntry}

variable {old : Option StatCacheEntry} {famDir : Option FamDirEntry}

theorem statCacheFill_name
    (h : (statCacheFill srv followSymlink name cache old famDir).1 = some sce) :
    sce.name = name := by
  unfold statCacheFill at h
  cases hn : statNode srv.fs name with
  | none =>
    rw [hn] at h
    cases h
  | some n =>
    rw [hn] at h
    dsimp only at h
    rw [← Option.some.inj h]
    split_ifs
    · cases famDir <;> rfl
    · rfl

theorem cachedEntry_name (h : cachedEntry cache followSymlink name = some sce) :
    sce.name = name := by
  simpa using (Option.filter_eq_some_iff.mp h).2

theorem statCacheGetEntry_name (h : (statCacheGetEntry srv followSymlink name cache).1 = some sce) :
    sce.name = name := by
  unfold statCacheGetEntry at h
  dsimp only at h
  split_ifs at h
  · exact cachedEntry_name h
  · split at h
    · cases h
    · exact cachedEntry_name h
    · exact statCacheFill_name h
  · exact statCacheFill_name h

theorem statCacheFill_isSome :
    (statCacheFill srv followSymlink name cache old famDir).1.isSome ↔
      (statNode srv.fs name).isSome := by
  unfold statCacheFill
  cases statNode srv.fs name <;> simp

/-- Without an entry in the cache there is one when the file can be found. -/
theorem statCacheGetEntry_canEnter (h : cachedEntry cache followSymlink name = none) :
    (statCacheGetEntry srv followSymlink name cache).1.isSome ↔ CanEnter srv name := by
  unfold statCacheGetEntry CanEnter
  rw [h]
  dsimp only
  rw [if_neg (by simp)]
  by_cases hfam : srv.engine = .fam
  · rw [if_pos hfam]
    rcases statCacheFamDirCheck_cases cache none name followSymlink with
      ⟨hcheck, hdir⟩ | ⟨hdir, ⟨hcheck, hsome⟩ | ⟨famDir, hcheck⟩⟩
    · simp [hcheck, hdir, hfam]
    · cases hsome
    · simp [hcheck, hdir, statCacheFill_isSome]
  · rw [if_neg hfam, statCacheFill_isSome]
    simp [hfam]

theorem statCacheFill_files :
    ((statCacheFill srv followSymlink name cache old famDir).1 = none →
        (statCacheFill srv followSymlink name cache old famDir).2 = cache) ∧
      ∀ sce, (statCacheFill srv followSymlink name cache old famDir).1 = some sce →
        (statCacheFill srv followSymlink name cache old famDir).2.files =
          fun k => if k = hashKey name followSymlink then some sce else cache.files k := by
  unfold statCacheFill
  cases statNode srv.fs name with
  | none => exact ⟨fun _ => rfl, fun _ h => by cases h⟩
  | some n =>
    dsimp only
    refine ⟨fun h => absurd h (by simp), fun sce h => ?_⟩
    obtain rfl := Option.some.inj h
    split_ifs
    · unfold statCacheFamDirMonitor
      cases famDir with
      | some famDir => rfl
      | none =>
        dsimp only
        split_ifs <;> rfl
    · rfl

/-- The entry that is returned is the one that the cache has for the name. -/
theorem statCacheGetEntry_files :
    ((statCacheGetEntry srv followSymlink name cache).1 = none →
        (statCacheGetEntry srv followSymlink name cache).2 = cache) ∧
      ∀ sce, (statCacheGetEntry srv followSymlink name cache).1 = some sce →
        (statCacheGetEntry srv followSymlink name cache).2.files =
          fun k => if k = hashKey name followSymlink then some sce else cache.files k := by
  have hsame : ∀ {sce}, cachedEntry cache followSymlink name = some sce → cache.files =
      fun k => if k = hashKey name followSymlink then some sce else cache.files k := by
    intro sce hsce
    funext k
    split_ifs with hk
    · rw [hk]
      exact (Option.filter_eq_some_iff.mp hsce).1
    · rfl
  unfold statCacheGetEntry
  dsimp only
  split_ifs
  · exact ⟨fun _ => rfl, fun sce h => hsame h⟩
  · split
    · exact ⟨fun _ => rfl, fun _ h => by cases h⟩
    · exact ⟨fun _ => rfl, fun sce h => hsame h⟩
    · exact statCacheFill_files
  · exact statCacheFill_files

end Answers

/-! ## The entries that are allocated -/

/-- Each entry that is allocated is in the cache, under one key. -/
structure StatCacheHeap.Ok (s : StatCacheHeap) : Prop where
  alive : ∀ k a, s.files.lookup k = some a → s.entries a ≠ none
  inj : ∀ k k' a, s.files.lookup k = some a → s.files.lookup k' = some a → k = k'
  owner : ∀ a, s.entries a ≠ none → ∃ k, s.files.lookup k = some a
  fresh : ∀ a, s.entries a ≠ none → a < s.allocated

variable {a : ℕ} {dirs : UInt32 → Option FamDirEntry} {sce : StatCacheEntry}

section Heap

variable {s : StatCacheHeap} {srv : StatCacheSrv} {followSymlink : Bool} {name : Bytes}

variable {k : UInt32}

theorem StatCacheHeap.free_eq :
    s.free (s.files.lookup k) a = if s.files.lookup k = some a then none else s.entries a := by
  unfold StatCacheHeap.free
  cases hk : s.files.lookup k with
  | none => rfl
  | some b =>
    dsimp only
    by_cases hab : a = b
    · rw [hab, Function.update_self, if_pos rfl]
    · rw [Function.update_of_ne hab, if_neg fun heq => hab (Option.some.inj heq).symm]

/-- The cache with an entry that has been allocated. -/
def StatCacheHeap.enter (s : StatCacheHeap) (key : UInt32) (dirs : UInt32 → Option FamDirEntry)
    (sce : StatCacheEntry) : StatCacheHeap where
  files := s.files.insert key s.allocated
  dirs := dirs
  entries := Function.update (s.free (s.files.lookup key)) s.allocated (some sce)
  allocated := s.allocated + 1

/-- The cache with an entry that has been written again. -/
def StatCacheHeap.rewrite (s : StatCacheHeap) (a : ℕ) (dirs : UInt32 → Option FamDirEntry)
    (sce : StatCacheEntry) : StatCacheHeap :=
  { s with
    dirs := dirs
    entries := Function.update s.entries a (some sce) }

/-- What `stat_cache_get_entry` does to the entries. -/
theorem StatCacheHeap.getEntry_cases (s : StatCacheHeap) (srv : StatCacheSrv)
    (followSymlink : Bool) (name : Bytes) :
    s.getEntry srv followSymlink name = (none, s) ∧
        (cachedEntry s.view followSymlink name = none → ¬ CanEnter srv name) ∨
      (∃ a old sce dirs, s.files.lookup (hashKey name followSymlink) = some a ∧
        s.entries a = some old ∧ old.name = name ∧ sce.name = name ∧
          s.getEntry srv followSymlink name = (some a, s.rewrite a dirs sce)) ∨
      ∃ sce dirs, sce.name = name ∧ cachedEntry s.view followSymlink name = none ∧
        CanEnter srv name ∧ s.getEntry srv followSymlink name =
          (some s.allocated, s.enter (hashKey name followSymlink) dirs sce) := by
  cases hr : (statCacheGetEntry srv followSymlink name s.view).1 with
  | none =>
    refine .inl ⟨?_, fun hnone henter => ?_⟩
    · unfold StatCacheHeap.getEntry
      dsimp only
      rw [hr]
    · have hsome := (statCacheGetEntry_canEnter hnone).mpr henter
      rw [hr] at hsome
      cases hsome
  | some sce =>
    have hname := statCacheGetEntry_name hr
    refine .inr ?_
    unfold StatCacheHeap.getEntry
    dsimp only
    rw [hr]
    dsimp only
    cases hcached : cachedEntry s.view followSymlink name with
    | none =>
      refine .inr ⟨sce, _, hname, rfl, (statCacheGetEntry_canEnter hcached).mp ?_, rfl⟩
      rw [hr]
      rfl
    | some old =>
      have hold := cachedEntry_name hcached
      obtain ⟨a, ha, hentry⟩ := Option.bind_eq_some_iff.mp
        (Option.filter_eq_some_iff.mp hcached).1
      rw [ha]
      exact .inl ⟨a, old, sce, _, rfl, hentry, hold, hname, rfl⟩

theorem StatCacheHeap.Ok.rewrite (hs : s.Ok) (ha : s.files.lookup k = some a)
    (dirs : UInt32 → Option FamDirEntry) (sce : StatCacheEntry) : (s.rewrite a dirs sce).Ok := by
  have hiff : ∀ b, (s.rewrite a dirs sce).entries b ≠ none ↔ s.entries b ≠ none := by
    intro b
    by_cases hb : b = a
    · subst hb
      exact iff_of_true (by simp [StatCacheHeap.rewrite]) (hs.alive k b ha)
    · unfold StatCacheHeap.rewrite
      dsimp only
      rw [Function.update_of_ne hb]
  exact ⟨fun k b hk => (hiff b).mpr (hs.alive k b hk), hs.inj,
    fun b hb => hs.owner b ((hiff b).mp hb), fun b hb => hs.fresh b ((hiff b).mp hb)⟩

theorem StatCacheHeap.enter_entries {key : UInt32} (ha : a ≠ s.allocated) :
    (s.enter key dirs sce).entries a =
      if s.files.lookup key = some a then none else s.entries a :=
  (Function.update_of_ne ha _ _).trans StatCacheHeap.free_eq

theorem StatCacheHeap.Ok.enter (hs : s.Ok) (key : UInt32) (dirs : UInt32 → Option FamDirEntry)
    (sce : StatCacheEntry) : (s.enter key dirs sce).Ok := by
  have hlookup : ∀ {k}, k ≠ key → (s.enter key dirs sce).files.lookup k = s.files.lookup k :=
    fun hk => AList.lookup_insert_ne hk
  have hself : (s.enter key dirs sce).files.lookup key = some s.allocated :=
    AList.lookup_insert s.files
  have hnew : (s.enter key dirs sce).entries s.allocated = some sce :=
    Function.update_self s.allocated _ _
  have hold : ∀ {k a}, s.files.lookup k = some a → a ≠ s.allocated := fun hk =>
    Nat.ne_of_lt (hs.fresh _ (hs.alive _ _ hk))
  constructor
  case alive =>
    intro k a hk
    by_cases hkey : k = key
    · rw [hkey, hself] at hk
      rw [← Option.some.inj hk, hnew]
      simp
    · rw [hlookup hkey] at hk
      rw [StatCacheHeap.enter_entries (hold hk),
        if_neg fun heq => hkey (hs.inj k key a hk heq)]
      exact hs.alive k a hk
  case inj =>
    intro k k' a hk hk'
    by_cases hkey : k = key <;> by_cases hkey' : k' = key
    · rw [hkey, hkey']
    · rw [hkey, hself] at hk
      rw [hlookup hkey'] at hk'
      exact absurd (Option.some.inj hk).symm (hold hk')
    · rw [hkey', hself] at hk'
      rw [hlookup hkey] at hk
      exact absurd (Option.some.inj hk').symm (hold hk)
    · rw [hlookup hkey] at hk
      rw [hlookup hkey'] at hk'
      exact hs.inj k k' a hk hk'
  case owner =>
    intro a ha
    by_cases hnewa : a = s.allocated
    · exact ⟨key, hnewa ▸ hself⟩
    · rw [StatCacheHeap.enter_entries hnewa] at ha
      split_ifs at ha with hkey
      · exact absurd rfl ha
      · obtain ⟨k, hk⟩ := hs.owner a ha
        have hne : k ≠ key := fun heq => hkey (heq ▸ hk)
        exact ⟨k, (hlookup hne).trans hk⟩
  case fresh =>
    intro a ha
    by_cases hnewa : a = s.allocated
    · rw [hnewa]
      exact Nat.lt_succ_self _
    · rw [StatCacheHeap.enter_entries hnewa] at ha
      split_ifs at ha
      · exact absurd rfl ha
      · exact Nat.lt_succ_of_lt (hs.fresh a ha)

/-- What is read through the addresses is what `statCacheGetEntry` says. -/
theorem StatCacheHeap.Ok.view_getEntry (hs : s.Ok) (srv : StatCacheSrv) (followSymlink : Bool)
    (name : Bytes) : (s.getEntry srv followSymlink name).2.view =
        (statCacheGetEntry srv followSymlink name s.view).2 ∧
      (s.getEntry srv followSymlink name).1.bind (s.getEntry srv followSymlink name).2.entries =
        (statCacheGetEntry srv followSymlink name s.view).1 := by
  obtain ⟨hnone, hsome⟩ := @statCacheGetEntry_files srv followSymlink name s.view
  unfold StatCacheHeap.getEntry
  dsimp only
  cases hr : (statCacheGetEntry srv followSymlink name s.view).1 with
  | none => exact ⟨(hnone hr).symm, rfl⟩
  | some sce =>
    have hfiles := hsome sce hr
    have hview : ∀ {s' : StatCacheHeap},
        s'.dirs = (statCacheGetEntry srv followSymlink name s.view).2.dirs →
        (∀ k, s'.view.files k = if k = hashKey name followSymlink then some sce
          else s.view.files k) →
        s'.view = (statCacheGetEntry srv followSymlink name s.view).2 := by
      intro s' hdirs hk
      have hfiles' : s'.view.files =
          (statCacheGetEntry srv followSymlink name s.view).2.files := by
        rw [hfiles]
        exact funext hk
      calc s'.view = ⟨s'.view.files, s'.dirs⟩ := rfl
        _ = _ := by rw [hfiles', hdirs]
    dsimp only
    split_ifs with hcached
    · obtain ⟨old, hold⟩ := Option.isSome_iff_exists.mp hcached
      obtain ⟨a, ha, -⟩ := Option.bind_eq_some_iff.mp (Option.filter_eq_some_iff.mp hold).1
      rw [ha]
      refine ⟨hview rfl fun k => ?_, Function.update_self a _ _⟩
      change (s.files.lookup k).bind (Function.update s.entries a (some sce)) = _
      split_ifs with hk
      · rw [hk, ha]
        exact Function.update_self a _ _
      · cases hlookup : s.files.lookup k with
        | none => simp [StatCacheHeap.view, hlookup]
        | some b =>
          have hne : b ≠ a := fun heq => hk (hs.inj _ _ a (heq ▸ hlookup) ha)
          simp [StatCacheHeap.view, hlookup, Function.update_of_ne hne]
    · refine ⟨hview rfl fun k => ?_, Function.update_self s.allocated _ _⟩
      change ((s.files.insert _ s.allocated).lookup k).bind (Function.update _ s.allocated _) = _
      split_ifs with hk
      · rw [hk, AList.lookup_insert]
        exact Function.update_self s.allocated _ _
      · rw [AList.lookup_insert_ne hk]
        cases hlookup : s.files.lookup k with
        | none => simp [StatCacheHeap.view, hlookup]
        | some b =>
          have hlt := hs.fresh b (hs.alive k b hlookup)
          have hother : s.files.lookup (hashKey name followSymlink) ≠ some b := fun heq =>
            hk (hs.inj _ _ b hlookup heq)
          rw [Option.bind_some, Function.update_of_ne (Nat.ne_of_lt hlt), StatCacheHeap.free_eq,
            if_neg hother]
          simp [StatCacheHeap.view, hlookup]

theorem StatCacheHeap.deleteKey_lookup (s : StatCacheHeap) (ndx k : UInt32) :
    (s.deleteKey ndx).files.lookup k = if k = ndx then none else s.files.lookup k := by
  unfold StatCacheHeap.deleteKey
  cases hndx : s.files.lookup ndx with
  | none =>
    split_ifs with hk
    · exact hk ▸ hndx
    · rfl
  | some a =>
    split_ifs with hk
    · rw [hk]
      exact AList.lookup_erase ndx s.files
    · exact AList.lookup_erase_ne hk

theorem StatCacheHeap.deleteKey_entries (s : StatCacheHeap) (ndx : UInt32) (a : ℕ) :
    (s.deleteKey ndx).entries a = if s.files.lookup ndx = some a then none else s.entries a := by
  rw [← StatCacheHeap.free_eq]
  unfold StatCacheHeap.deleteKey
  cases s.files.lookup ndx <;> rfl

theorem StatCacheHeap.deleteKey_allocated (s : StatCacheHeap) (ndx : UInt32) :
    (s.deleteKey ndx).allocated = s.allocated := by
  unfold StatCacheHeap.deleteKey
  cases s.files.lookup ndx <;> rfl

theorem StatCacheHeap.Ok.deleteKey (hs : s.Ok) (ndx : UInt32) : (s.deleteKey ndx).Ok := by
  constructor
  case alive =>
    intro k a hk
    rw [s.deleteKey_lookup] at hk
    split_ifs at hk with hkey
    rw [s.deleteKey_entries, if_neg fun heq => hkey (hs.inj k ndx a hk heq)]
    exact hs.alive k a hk
  case inj =>
    intro k k' a hk hk'
    rw [s.deleteKey_lookup] at hk hk'
    split_ifs at hk hk'
    exact hs.inj k k' a hk hk'
  case owner =>
    intro a ha
    rw [s.deleteKey_entries] at ha
    split_ifs at ha with hndx
    · exact absurd rfl ha
    · obtain ⟨k, hk⟩ := hs.owner a ha
      have hne : k ≠ ndx := fun heq => hndx (heq ▸ hk)
      exact ⟨k, by rw [s.deleteKey_lookup, if_neg hne, hk]⟩
  case fresh =>
    intro a ha
    rw [s.deleteKey_entries] at ha
    rw [s.deleteKey_allocated]
    split_ifs at ha
    · exact absurd rfl ha
    · exact hs.fresh a ha

theorem StatCacheHeap.deleteKeys_none : ∀ (keys : List UInt32) {s : StatCacheHeap},
    s.entries a = none → (keys.foldl StatCacheHeap.deleteKey s).entries a = none
  | [], _, h => h
  | ndx :: keys, s, h => by
    refine StatCacheHeap.deleteKeys_none keys ?_
    rw [s.deleteKey_entries, h, ite_self]

/-- The loop takes the entries of the keys out and no others. -/
theorem StatCacheHeap.Ok.deleteKeys : ∀ (keys : List UInt32) {s : StatCacheHeap}, s.Ok →
    (keys.foldl StatCacheHeap.deleteKey s).Ok ∧
      (keys.foldl StatCacheHeap.deleteKey s).allocated = s.allocated ∧
      ∀ k a, s.files.lookup k = some a →
        (k ∈ keys → (keys.foldl StatCacheHeap.deleteKey s).entries a = none) ∧
        (k ∉ keys → (keys.foldl StatCacheHeap.deleteKey s).entries a = s.entries a ∧
          (keys.foldl StatCacheHeap.deleteKey s).files.lookup k = some a)
  | [], s, hs => ⟨hs, rfl, fun k a hk => ⟨fun h => absurd h List.not_mem_nil, fun _ => ⟨rfl, hk⟩⟩⟩
  | ndx :: keys, s, hs => by
    obtain ⟨hok, halloc, hkeys⟩ := StatCacheHeap.Ok.deleteKeys keys (hs.deleteKey ndx)
    refine ⟨hok, halloc.trans (s.deleteKey_allocated ndx), fun k a hk => ?_⟩
    by_cases hndx : k = ndx
    · subst hndx
      have hgone : (s.deleteKey k).entries a = none := by
        rw [s.deleteKey_entries, if_pos hk]
      exact ⟨fun _ => StatCacheHeap.deleteKeys_none keys hgone,
        fun h => absurd List.mem_cons_self h⟩
    · have hstays : (s.deleteKey ndx).files.lookup k = some a := by
        rw [s.deleteKey_lookup, if_neg hndx, hk]
      have hentry : (s.deleteKey ndx).entries a = s.entries a := by
        rw [s.deleteKey_entries, if_neg fun heq => hndx (hs.inj k ndx a hk heq)]
      obtain ⟨hmem, hnotMem⟩ := hkeys k a hstays
      rw [List.mem_cons, or_iff_right hndx, ← hentry]
      exact ⟨hmem, hnotMem⟩

theorem StatCacheHeap.mem_tagOldEntries {curTs : ℤ} :
    k ∈ s.tagOldEntries curTs ↔ ∃ sce, s.view.files k = some sce ∧ 2 < curTs - sce.statTs := by
  unfold StatCacheHeap.tagOldEntries
  rw [List.mem_filter, Option.any_eq_true]
  constructor
  · rintro ⟨-, sce, hsce, hold⟩
    exact ⟨sce, hsce, of_decide_eq_true hold⟩
  · rintro ⟨sce, hsce, hold⟩
    obtain ⟨a, ha, -⟩ := Option.bind_eq_some_iff.mp hsce
    refine ⟨AList.mem_keys.mpr (AList.lookup_isSome.mp ?_), sce, hsce, decide_eq_true hold⟩
    rw [ha]
    rfl

end Heap

/-! ## What connections hold -/

section Held

variable {s : StatCacheHeap} {h : HeldEntry} {srv : StatCacheSrv} {followSymlink : Bool}
  {name : Bytes}

/-- The entry has not been freed. -/
def HeldEntry.Alive (h : HeldEntry) (s : StatCacheHeap) : Prop := s.entries h.entry ≠ none

/-- What is held has been allocated; as long as it has not been freed it is in the cache, with its
name. -/
structure HeldEntry.Ok (h : HeldEntry) (s : StatCacheHeap) : Prop where
  allocated : h.entry < s.allocated
  cached : h.Alive s → s.files.lookup h.key = some h.entry
  named : ∀ sce, s.entries h.entry = some sce → sce.name = h.name

/-- What happens to a held entry when the cache changes: it is not allocated again, and is freed
when it is taken out of the cache. -/
structure HeldEntry.Steps (h : HeldEntry) (s s' : StatCacheHeap) (taken : Prop) : Prop where
  ok : h.Ok s'
  dead : ¬ h.Alive s → ¬ h.Alive s'
  alive : h.Alive s → (h.Alive s' ↔ ¬ taken)

theorem HeldEntry.Ok.valid_iff {s : CacheUsers} (hh : h.Ok s.heap) :
    h.Valid s ↔ h.Alive s.heap := by
  constructor
  · rintro ⟨sce, hsce, -⟩
    rw [HeldEntry.Alive, hsce]
    simp
  · intro halive
    obtain ⟨sce, hsce⟩ := Option.ne_none_iff_exists'.mp halive
    exact ⟨sce, hsce, hh.named sce hsce⟩

theorem HeldEntry.Ok.cachedEntry_eq_none_iff (hh : h.Ok s) (halive : h.Alive s)
    (hkey : hashKey name followSymlink = h.key) :
    cachedEntry s.view followSymlink name = none ↔ name ≠ h.name := by
  obtain ⟨sce, hsce⟩ := Option.ne_none_iff_exists'.mp halive
  have hview : s.view.files (hashKey name followSymlink) = some sce := by
    rw [hkey, StatCacheHeap.view]
    dsimp only
    rw [hh.cached halive, Option.bind_some, hsce]
  rw [cachedEntry, hview, Option.filter_some, hh.named sce hsce]
  by_cases hname : name = h.name
  · simp [hname]
  · simp [hname, Ne.symm hname]

theorem HeldEntry.Ok.same (hh : h.Ok s) {taken : Prop} (htaken : h.Alive s → ¬ taken) :
    h.Steps s s taken where
  ok := hh
  dead := id
  alive halive := iff_of_true halive (htaken halive)

theorem HeldEntry.Ok.rewrite (hh : h.Ok s) {old : StatCacheEntry}
    (ha : s.files.lookup (hashKey name followSymlink) = some a) (hold : s.entries a = some old)
    (hname : old.name = name) (hsce : sce.name = name) :
    h.Steps s (s.rewrite a dirs sce) (hashKey name followSymlink = h.key ∧ name ≠ h.name ∧
      CanEnter srv name) := by
  have hentries : (s.rewrite a dirs sce).entries = Function.update s.entries a (some sce) := rfl
  have hiff : h.Alive (s.rewrite a dirs sce) ↔ h.Alive s := by
    unfold HeldEntry.Alive
    rw [hentries]
    by_cases heq : h.entry = a
    · rw [heq, Function.update_self, hold]
      simp
    · rw [Function.update_of_ne heq]
  refine ⟨⟨hh.allocated, fun halive => hh.cached (hiff.mp halive), fun sce' hsce' => ?_⟩,
    fun hdead halive => hdead (hiff.mp halive), fun halive => ?_⟩
  · rw [hentries] at hsce'
    by_cases heq : h.entry = a
    · rw [heq, Function.update_self] at hsce'
      rw [← Option.some.inj hsce', hsce, ← hname]
      exact hh.named old (heq ▸ hold)
    · rw [Function.update_of_ne heq] at hsce'
      exact hh.named sce' hsce'
  · refine iff_of_true (hiff.mpr halive) ?_
    rintro ⟨hkey, hne, -⟩
    rw [hkey, hh.cached halive, Option.some.injEq] at ha
    exact hne (hname.symm.trans (hh.named old (ha ▸ hold)))

theorem HeldEntry.Ok.enter (hh : h.Ok s) (hs : s.Ok)
    (hnone : cachedEntry s.view followSymlink name = none) (henter : CanEnter srv name) :
    h.Steps s (s.enter (hashKey name followSymlink) dirs sce)
      (hashKey name followSymlink = h.key ∧ name ≠ h.name ∧ CanEnter srv name) := by
  have hentry : (s.enter (hashKey name followSymlink) dirs sce).entries h.entry =
      if s.files.lookup (hashKey name followSymlink) = some h.entry then none
      else s.entries h.entry := StatCacheHeap.enter_entries (Nat.ne_of_lt hh.allocated)
  have hlive : h.Alive (s.enter (hashKey name followSymlink) dirs sce) ↔
      s.files.lookup (hashKey name followSymlink) ≠ some h.entry ∧ h.Alive s := by
    unfold HeldEntry.Alive
    rw [hentry]
    split_ifs with hlookup <;> simp [hlookup]
  refine ⟨⟨Nat.lt_succ_of_lt hh.allocated, fun halive => ?_, fun sce' hsce' => ?_⟩,
    fun hdead halive => hdead (hlive.mp halive).2, fun halive => ?_⟩
  · obtain ⟨hlookup, halive⟩ := hlive.mp halive
    have hcached := hh.cached halive
    have hne : h.key ≠ hashKey name followSymlink := fun heq => hlookup (heq ▸ hcached)
    exact (AList.lookup_insert_ne hne).trans hcached
  · rw [hentry] at hsce'
    split_ifs at hsce'
    exact hh.named sce' hsce'
  · rw [hlive]
    constructor
    · rintro ⟨hlookup, -⟩ ⟨hkey, -⟩
      exact hlookup (hkey ▸ hh.cached halive)
    · intro htaken
      refine ⟨fun hlookup => htaken ?_, halive⟩
      have hkey := hs.inj _ _ _ hlookup (hh.cached halive)
      exact ⟨hkey, (hh.cachedEntry_eq_none_iff halive hkey).mp hnone, henter⟩

theorem HeldEntry.Ok.getEntry (hh : h.Ok s) (hs : s.Ok) (srv : StatCacheSrv)
    (followSymlink : Bool) (name : Bytes) :
    h.Steps s (s.getEntry srv followSymlink name).2 (hashKey name followSymlink = h.key ∧
      name ≠ h.name ∧ CanEnter srv name) := by
  rcases s.getEntry_cases srv followSymlink name with
    ⟨heq, hcannot⟩ | ⟨a, old, sce, dirs, ha, hold, hname, hsce, heq⟩ |
    ⟨sce, dirs, -, hnone, henter, heq⟩
  · rw [heq]
    refine hh.same fun halive => ?_
    rintro ⟨hkey, hne, henter⟩
    exact hcannot ((hh.cachedEntry_eq_none_iff halive hkey).mpr hne) henter
  · rw [heq]
    exact hh.rewrite ha hold hname hsce
  · rw [heq]
    exact hh.enter hs hnone henter

theorem HeldEntry.Ok.triggerCleanup (hh : h.Ok s) (hs : s.Ok) (curTs : ℤ) :
    h.Steps s (s.triggerCleanup curTs)
      (∃ sce, s.view.files h.key = some sce ∧ 2 < curTs - sce.statTs) := by
  obtain ⟨-, halloc, hkeys⟩ := StatCacheHeap.Ok.deleteKeys (s.tagOldEntries curTs) hs
  have hnone : s.entries h.entry = none → (s.triggerCleanup curTs).entries h.entry = none :=
    StatCacheHeap.deleteKeys_none _
  have hdead : ¬ h.Alive s → ¬ h.Alive (s.triggerCleanup curTs) := fun hdead halive =>
    halive (hnone (not_not.mp hdead))
  have hkept : h.Alive (s.triggerCleanup curTs) →
      (s.triggerCleanup curTs).entries h.entry = s.entries h.entry ∧
        (s.triggerCleanup curTs).files.lookup h.key = some h.entry := by
    intro halive
    have hbefore : h.Alive s := not_not.mp fun hd => hdead hd halive
    obtain ⟨hmem, hnotMem⟩ := hkeys h.key h.entry (hh.cached hbefore)
    exact hnotMem fun hm => halive (hmem hm)
  refine ⟨⟨halloc ▸ hh.allocated, fun halive => (hkept halive).2, fun sce hsce => ?_⟩, hdead,
    fun halive => ?_⟩
  · have halive : h.Alive (s.triggerCleanup curTs) := by
      rw [HeldEntry.Alive, hsce]
      simp
    exact hh.named sce ((hkept halive).1 ▸ hsce)
  · obtain ⟨hmem, hnotMem⟩ := hkeys h.key h.entry (hh.cached halive)
    rw [← StatCacheHeap.mem_tagOldEntries]
    constructor
    · exact fun halive' hm => halive' (hmem hm)
    · intro hm
      unfold HeldEntry.Alive
      rw [show (s.triggerCleanup curTs).entries h.entry = s.entries h.entry from (hnotMem hm).1]
      exact halive

end Held

/-! ## Runs -/

/-- The heap is well formed, and so is what the connections hold. -/
structure CacheUsers.Ok (s : CacheUsers) : Prop where
  heap : s.heap.Ok
  held : ∀ (con i : ℕ) (h : HeldEntry), (s.held con)[i]? = some h → h.Ok s.heap

section Runs

variable {s : CacheUsers} {c : CacheCall} {h : HeldEntry} {con i : ℕ}

theorem StatCacheHeap.Ok.getEntry {s : StatCacheHeap} (hs : s.Ok) (srv : StatCacheSrv)
    (followSymlink : Bool) (name : Bytes) :
    (s.getEntry srv followSymlink name).2.Ok ∧
      ∀ a, (s.getEntry srv followSymlink name).1 = some a →
        HeldEntry.Ok ⟨a, name, hashKey name followSymlink⟩ (s.getEntry srv followSymlink name).2 ∧
        HeldEntry.Alive ⟨a, name, hashKey name followSymlink⟩
          (s.getEntry srv followSymlink name).2 := by
  rcases s.getEntry_cases srv followSymlink name with
    ⟨heq, -⟩ | ⟨a, old, sce, dirs, ha, hold, -, hsce, heq⟩ | ⟨sce, dirs, hsce, -, -, heq⟩
  · rw [heq]
    exact ⟨hs, fun a ha => by cases ha⟩
  · rw [heq]
    refine ⟨hs.rewrite ha dirs sce, fun b hb => ?_⟩
    obtain rfl := Option.some.inj hb
    have hentry : (s.rewrite a dirs sce).entries a = some sce := Function.update_self a _ _
    refine ⟨⟨hs.fresh a (hs.alive _ a ha), fun _ => ha, fun sce' hsce' => ?_⟩, ?_⟩
    · rw [← Option.some.inj (hentry.symm.trans hsce'), hsce]
    · rw [HeldEntry.Alive, hentry]
      simp
  · rw [heq]
    refine ⟨hs.enter _ dirs sce, fun b hb => ?_⟩
    obtain rfl := Option.some.inj hb
    have hentry : (s.enter (hashKey name followSymlink) dirs sce).entries s.allocated = some sce :=
      Function.update_self s.allocated _ _
    refine ⟨⟨Nat.lt_succ_self _, fun _ => AList.lookup_insert s.files, fun sce' hsce' => ?_⟩, ?_⟩
    · rw [← Option.some.inj (hentry.symm.trans hsce'), hsce]
    · rw [HeldEntry.Alive, hentry]
      simp

theorem CacheUsers.Ok.step_held (hs : s.Ok) (hh : ((s.step c).held con)[i]? = some h) :
    (s.held con)[i]? = some h ∨ h.Ok (s.step c).heap ∧ h.Alive (s.step c).heap := by
  cases c with
  | use _ _ => exact .inl hh
  | triggerCleanup _ => exact .inl hh
  | getEntry con' srv followSymlink name =>
    obtain ⟨-, hnew⟩ := hs.heap.getEntry srv followSymlink name
    unfold CacheUsers.step at hh ⊢
    dsimp only at hh ⊢
    cases hr : (s.heap.getEntry srv followSymlink name).1 with
    | none =>
      rw [hr] at hh
      exact .inl hh
    | some a =>
      rw [hr] at hh
      dsimp only at hh ⊢
      by_cases hcon : con = con'
      · subst hcon
        rw [Function.update_self, List.getElem?_append] at hh
        split_ifs at hh
        · exact .inl hh
        · obtain rfl := List.mem_singleton.mp (List.mem_of_getElem? hh)
          exact .inr (hnew a hr)
      · rw [Function.update_of_ne hcon] at hh
        exact .inl hh

theorem CacheUsers.held_step (hh : (s.held con)[i]? = some h) :
    ((s.step c).held con)[i]? = some h := by
  cases c with
  | use _ _ => exact hh
  | triggerCleanup _ => exact hh
  | getEntry con' srv followSymlink name =>
    unfold CacheUsers.step
    dsimp only
    cases (s.heap.getEntry srv followSymlink name).1 with
    | none => exact hh
    | some a =>
      dsimp only
      by_cases hcon : con = con'
      · subst hcon
        rw [Function.update_self]
        obtain ⟨hlt, -⟩ := List.getElem?_eq_some_iff.mp hh
        rwa [List.getElem?_append_left hlt]
      · rwa [Function.update_of_ne hcon]

theorem CacheUsers.step_heap_getEntry (s : CacheUsers) (con : ℕ) (srv : StatCacheSrv)
    (followSymlink : Bool) (name : Bytes) : (s.step (.getEntry con srv followSymlink name)).heap =
      (s.heap.getEntry srv followSymlink name).2 := by
  unfold CacheUsers.step
  dsimp only
  split <;> rfl

theorem CacheUsers.Ok.steps (hs : s.Ok) (hh : h.Ok s.heap) (c : CacheCall) :
    h.Steps s.heap (s.step c).heap (h.TakenOut s c) := by
  cases c with
  | use _ _ => exact hh.same fun _ => id
  | triggerCleanup curTs => exact hh.triggerCleanup hs.heap curTs
  | getEntry con srv followSymlink name =>
    rw [s.step_heap_getEntry]
    exact hh.getEntry hs.heap srv followSymlink name

theorem CacheUsers.Ok.step (hs : s.Ok) (c : CacheCall) : (s.step c).Ok where
  heap := by
    cases c with
    | use _ _ => exact hs.heap
    | triggerCleanup curTs => exact (StatCacheHeap.Ok.deleteKeys _ hs.heap).1
    | getEntry con srv followSymlink name =>
      rw [s.step_heap_getEntry]
      exact (hs.heap.getEntry srv followSymlink name).1
  held con i h hh := by
    rcases hs.step_held hh with hold | ⟨hnew, -⟩
    · exact (hs.steps (hs.held con i h hold) c).ok
    · exact hnew

theorem CacheUsers.Ok.run (hs : s.Ok) : ∀ calls, (s.run calls).Ok := by
  intro calls
  induction calls generalizing s with
  | nil => exact hs
  | cons c calls ih => exact ih (hs.step c)

theorem cacheUsers_init_ok : CacheUsers.init.Ok where
  heap :=
    { alive := fun k a hk => by
        rw [show CacheUsers.init.heap.files.lookup k = none from rfl] at hk
        cases hk
      inj := fun k _ a hk => by
        rw [show CacheUsers.init.heap.files.lookup k = none from rfl] at hk
        cases hk
      owner := fun a ha => absurd rfl ha
      fresh := fun a ha => absurd rfl ha }
  held _ _ _ hh := by cases hh

theorem CacheUsers.run_append (s : CacheUsers) (a b : List CacheCall) :
    s.run (a ++ b) = (s.run a).run b := List.foldl_append

theorem CacheUsers.Ok.run_held (hs : s.Ok) (hh : (s.held con)[i]? = some h) :
    ∀ calls, ((s.run calls).held con)[i]? = some h ∧
      (h.Alive (s.run calls).heap → h.Alive s.heap) := by
  intro calls
  induction calls generalizing s with
  | nil => exact ⟨hh, id⟩
  | cons c calls ih =>
    obtain ⟨hheld, halive⟩ := ih (hs.step c) (CacheUsers.held_step hh)
    refine ⟨hheld, fun h' => ?_⟩
    have hsteps := hs.steps (hs.held con i h hh) c
    exact not_not.mp fun hd => hsteps.dead hd (halive h')

/-- What is used later is alive, when nothing that is used is taken out of the cache. -/
theorem alive_of_keeps {calls : List CacheCall} (hkeeps : KeepsWhatIsUsed calls) :
    ∀ (pre post : List CacheCall), calls = pre ++ post → ∀ {con i : ℕ} {h : HeldEntry},
      ((CacheUsers.init.run pre).held con)[i]? = some h → .use con i ∈ post →
        h.Alive (CacheUsers.init.run pre).heap := by
  intro pre
  induction pre using List.reverseRecOn with
  | nil =>
    intro post _ con i h hh _
    cases hh
  | append_singleton pre c ih =>
    intro post hcalls con i h hh huse
    have hs := cacheUsers_init_ok.run pre
    rw [CacheUsers.run_append] at hh ⊢
    have hcalls' : calls = pre ++ c :: post := by rw [hcalls]; simp
    rcases hs.step_held hh with hold | ⟨-, hnew⟩
    · have halive := ih (c :: post) hcalls' hold (List.mem_cons_of_mem c huse)
      exact ((hs.steps (hs.held con i h hold) c).alive halive).mpr
        (hkeeps pre c post hcalls' con i h hold huse)
    · exact hnew

end Runs

/-- Every use sees the entry that was asked for exactly when no call takes an entry out of the cache
that a connection has got before and uses after it. -/
theorem usesValid_iff (calls : List CacheCall) : UsesValid calls ↔ KeepsWhatIsUsed calls := by
  constructor
  · intro hvalid pre c post hcalls con i h hh huse htaken
    obtain ⟨mid, post', rfl⟩ := List.append_of_mem huse
    have hs := cacheUsers_init_ok.run pre
    have hsteps := hs.steps (hs.held con i h hh) c
    obtain ⟨hheld, halive⟩ := (hs.step c).run_held (CacheUsers.held_step hh) mid
    have hrun : ((CacheUsers.init.run pre).step c).run mid =
        CacheUsers.init.run (pre ++ c :: mid) := by
      rw [CacheUsers.run_append]
      rfl
    rw [hrun] at hheld halive
    have huse' := hvalid (pre ++ c :: mid) con i post' (by rw [hcalls]; simp) h hheld
    have hok := (cacheUsers_init_ok.run (pre ++ c :: mid)).held con i h hheld
    have hafter := halive (hok.valid_iff.mp huse')
    have hbefore : h.Alive (CacheUsers.init.run pre).heap :=
      not_not.mp fun hd => hsteps.dead hd hafter
    exact (hsteps.alive hbefore).mp hafter htaken
  · intro hkeeps pre con i post hcalls h hh
    have hok := (cacheUsers_init_ok.run pre).held con i h hh
    exact hok.valid_iff.mpr
      (alive_of_keeps hkeeps pre _ hcalls hh List.mem_cons_self)

/-- A call as it is for a cache that holds its entries themselves. -/
def statCacheCall (cache : StatCache) : CacheCall → StatCache
  | .getEntry _ srv followSymlink name => (statCacheGetEntry srv followSymlink name cache).2
  | .use _ _ => cache
  | .triggerCleanup curTs =>
    { cache with files := fun k => (cache.files k).filter fun sce => curTs - sce.statTs ≤ 2 }

theorem StatCacheHeap.deleteKeys_frame (k : UInt32) : ∀ (keys : List UInt32) (s : StatCacheHeap),
    (keys.foldl deleteKey s).dirs = s.dirs ∧ ((keys.foldl deleteKey s).files.lookup k = none ∨
      (keys.foldl deleteKey s).files.lookup k = s.files.lookup k)
  | [], _ => ⟨rfl, .inr rfl⟩
  | ndx :: keys, s => by
    obtain ⟨hdirs, hlookup⟩ := deleteKeys_frame k keys (s.deleteKey ndx)
    refine ⟨hdirs.trans ?_, ?_⟩
    · unfold deleteKey
      cases s.files.lookup ndx <;> rfl
    · rw [s.deleteKey_lookup] at hlookup
      split_ifs at hlookup
      · exact .inl (or_self_iff.mp hlookup)
      · exact hlookup

theorem StatCacheHeap.Ok.view_triggerCleanup {s : StatCacheHeap} (hs : s.Ok) (curTs : ℤ) :
    (s.triggerCleanup curTs).view = statCacheCall s.view (.triggerCleanup curTs) := by
  obtain ⟨-, -, hkeys⟩ := StatCacheHeap.Ok.deleteKeys (s.tagOldEntries curTs) hs
  have hfiles (k : UInt32) : (s.triggerCleanup curTs).view.files k =
      (s.view.files k).filter fun sce => curTs - sce.statTs ≤ 2 := by
    obtain ⟨-, hlookup⟩ := StatCacheHeap.deleteKeys_frame k (s.tagOldEntries curTs) s
    have htag := @StatCacheHeap.mem_tagOldEntries s k curTs
    unfold StatCacheHeap.triggerCleanup
    unfold StatCacheHeap.view at htag ⊢
    cases ha : s.files.lookup k with
    | none =>
      rw [ha, or_self_iff] at hlookup
      simp [hlookup, ha]
    | some a =>
      obtain ⟨sce, hsce⟩ := Option.ne_none_iff_exists'.mp (hs.alive k a ha)
      obtain ⟨hmem, hnotMem⟩ := hkeys k a ha
      simp only [ha, Option.bind_some, hsce, Option.some.injEq, exists_eq_left'] at htag hlookup ⊢
      by_cases hold : 2 < curTs - sce.statTs
      · have hgone := hmem (htag.mpr hold)
        rw [Option.filter_some, if_neg (by simpa using not_le.mpr hold)]
        rcases hlookup with h | h <;> simp [h, hgone]
      · obtain ⟨hentry, hstays⟩ := hnotMem (mt htag.mp hold)
        rw [hstays, Option.bind_some, hentry, hsce, Option.filter_some,
          if_pos (by simpa using not_lt.mp hold)]
  have hdirs := (StatCacheHeap.deleteKeys_frame 0 (s.tagOldEntries curTs) s).1
  calc (s.triggerCleanup curTs).view = ⟨(s.triggerCleanup curTs).view.files, s.dirs⟩ := by
        rw [← hdirs]
        rfl
    _ = _ := by
        rw [funext hfiles]
        rfl

/-- The cache with shared entries, after any calls, is the cache without, and finds the same. -/
theorem statCache_run_view (calls : List CacheCall) :
    let cache := calls.foldl statCacheCall ⟨fun _ => none, fun _ => none⟩
    let s := (CacheUsers.init.run calls).heap
    s.view = cache ∧ ∀ srv followSymlink name,
      (s.getEntry srv followSymlink name).1.bind (s.getEntry srv followSymlink name).2.entries =
        (statCacheGetEntry srv followSymlink name cache).1 := by
  have hview : (CacheUsers.init.run calls).heap.view =
      calls.foldl statCacheCall ⟨fun _ => none, fun _ => none⟩ := by
    induction calls using List.reverseRecOn with
    | nil => rfl
    | append_singleton calls c ih =>
      have hok := (cacheUsers_init_ok.run calls).heap
      rw [List.foldl_append, ← ih, CacheUsers.run_append]
      cases c with
      | use _ _ => rfl
      | triggerCleanup curTs => exact hok.view_triggerCleanup curTs
      | getEntry con srv followSymlink name =>
        rw [show (CacheUsers.run _ [CacheCall.getEntry con srv followSymlink name]).heap = _ from
          CacheUsers.step_heap_getEntry _ con srv followSymlink name]
        exact (hok.view_getEntry srv followSymlink name).1
  refine ⟨hview, fun srv followSymlink name => ?_⟩
  rw [← hview]
  exact ((cacheUsers_init_ok.run calls).heap.view_getEntry srv followSymlink name).2

theorem rootSize_small : (4096 : ℕ) < 2 ^ 63 := by norm_num

/-- A directory tree with the root only, at a time. -/
def rootSrv (curTs : ℤ) : StatCacheSrv where
  engine := .simple
  fs := ⟨⟨fun p => if p = [] then some .dir else none, []⟩, 4096, rootSize_small⟩
  curTs := curTs
  monitors _ := false

/-- The cleanup comes between a call and the use of the entry. -/
theorem not_usesValid : ¬ ∀ calls, UsesValid calls := by
  intro h
  have huse := h [.getEntry 0 (rootSrv 0) true (str "/"), .triggerCleanup 3, .use 0 0]
    [.getEntry 0 (rootSrv 0) true (str "/"), .triggerCleanup 3] 0 0 [] rfl
    ⟨0, str "/", hashKey (str "/") true⟩ (by rfl)
  obtain ⟨sce, hsce, -⟩ := huse
  have hnone : (CacheUsers.init.run [.getEntry 0 (rootSrv 0) true (str "/"),
      .triggerCleanup 3]).heap.entries 0 = none := by
    rfl
  rw [hnone] at hsce
  cases hsce

end Lighttpd
