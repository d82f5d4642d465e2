import Lighttpd.Alias
import Lighttpd.DataArrayKeys

/-!
# Aliases that come too late

`mod_alias_set_defaults` refuses a table where an entry is shadowed by an earlier one whose key
its own key starts with. It goes through the keys in the order of `sorted`, which is that of
`foldKey`, and stops at the first one that does not start with the key in question, letter case
included. A key in another letter case in between ends the search too early
(`modAliasSetDefaults_reachable_iff`).
-/

namespace Lighttpd

open CString

variable {a : DataArray Buffer}

/-- No entry has a key that starts with the key of an entry written earlier. -/
def NoEarlierPrefix (a : DataArray Buffer) : Prop :=
  ∀ i j, i < j → j < a.used → ¬ a.keyAt i <+: a.keyAt j

/-- Every entry is the one that is taken for some path. -/
def EveryAliasMatches (conf : ResponseConf) (a : DataArray Buffer) : Prop :=
  ∀ ds ∈ a.live, ∃ uri, aliasFor conf a uri = some ds

/-- A key starts with another one in a different letter case. -/
def ExtendsRecased (key other : Bytes) : Prop :=
  foldKey key <+: foldKey other ∧ ¬ key <+: other

/-- The key of an entry starts with that of an earlier one, and between the two in the order of the
table there is a key that starts with the earlier one in a different letter case. -/
def DataArray.Interleaved (a : DataArray Buffer) : Prop :=
  ∃ i j k, i < j ∧ j < a.used ∧ k < a.used ∧ a.keyAt i <+: a.keyAt j ∧
    ExtendsRecased (a.keyAt i) (a.keyAt k) ∧ a.Before k j

/-- An entry has a key that starts with that of an earlier one in a different letter case. -/
def DataArray.RecasedLater (a : DataArray Buffer) : Prop :=
  ∃ i j, i < j ∧ j < a.used ∧ ExtendsRecased (a.keyAt i) (a.keyAt j)

/-- The keys of a table of the configuration are strings. -/
def DataArray.StringKeys (a : DataArray Buffer) : Prop :=
  ∀ ds ∈ a.live, ds.key ≠ none ∧ (0 : UInt8) ∉ ds.key.string

/-! ## The order of the keys -/

theorem foldKey_isPrefix {key other : Bytes} (h : key <+: other) :
    foldKey key <+: foldKey other := by
  obtain ⟨t, rfl⟩ := h
  exact ⟨foldKey t, (List.map_append ..).symm⟩

theorem foldKey_isPrefix_iff {key other : Bytes} :
    foldKey key <+: foldKey other ↔ CaseEq (other.take key.length) key := by
  rw [List.prefix_iff_eq_take, ← foldKey_eq_iff, eq_comm]
  simp only [foldKey, List.map_take, List.length_map]

/-- What lies between a list and one that starts with it starts with it, too. -/
theorem isPrefix_of_lt_of_lt {l : List ℕ} :
    ∀ {x y : List ℕ}, l <+: y → l < x → x < y → l <+: x := by
  induction l with
  | nil => exact fun _ _ _ => List.nil_prefix
  | cons n l ih =>
    intro x y hpre hlx hxy
    obtain ⟨t, rfl⟩ := hpre
    cases x with
    | nil => exact absurd hlx (List.not_lt_nil _)
    | cons c x =>
      rw [List.cons_lt_cons_iff] at hlx
      rw [List.cons_append, List.cons_lt_cons_iff] at hxy
      obtain rfl : n = c := by omega
      have hlx' : l < x := by simpa using hlx
      have hxy' : x < l ++ t := by simpa using hxy
      exact List.cons_prefix_cons.mpr ⟨rfl, ih (List.prefix_append l t) hlx' hxy'⟩

theorem lt_of_isPrefix_of_ne {l x : List ℕ} (h : l <+: x) (hne : l ≠ x) : l < x := by
  obtain ⟨t, rfl⟩ := h
  cases t with
  | nil => simp at hne
  | cons c t =>
    clear hne
    induction l with
    | nil => exact List.nil_lt_cons c t
    | cons n l ih => exact List.cons_lt_cons_iff.mpr (.inr ⟨rfl, ih⟩)

namespace Indexed

theorem before_of_isPrefix (h : Indexed a) {i j : ℕ} (hi : i < a.used) (hj : j < a.used)
    (hne : i ≠ j) (hpre : foldKey (a.keyAt i) <+: foldKey (a.keyAt j)) : a.Before i j :=
  lt_of_isPrefix_of_ne hpre fun heq => hne (h.eq_of_caseEq hi hj (foldKey_eq_iff.mp heq))

/-- Two positions in the order of their keys are in this order in `sorted`. -/
theorem exists_between (h : Indexed a) {i j : ℕ} (hi : i < a.used) (hj : j < a.used)
    (hbefore : a.Before i j) :
    ∃ front between behind, a.sorted = front ++ i :: (between ++ j :: behind) := by
  obtain ⟨front, rest, hsorted⟩ := List.append_of_mem (h.mem_sorted.mpr hi)
  have hinc := h.increasing
  rw [hsorted, List.pairwise_append] at hinc
  have hmem : j ∈ front ++ i :: rest := hsorted ▸ h.mem_sorted.mpr hj
  rcases List.mem_append.mp hmem with hfront | hrest
  · exact absurd (hinc.2.2 j hfront i List.mem_cons_self) hbefore.asymm
  · rcases List.mem_cons.mp hrest with rfl | hrest
    · exact absurd hbefore (lt_irrefl _)
    · obtain ⟨between, behind, rfl⟩ := List.append_of_mem hrest
      exact ⟨front, between, behind, hsorted⟩

end Indexed

/-- The inner loop finds a later entry behind keys that all start with the key. -/
theorem aliasNeverMatches_append {j k : ℕ} {between behind : List ℕ}
    (hbetween : ∀ x ∈ between, a.keyAt j <+: a.keyAt x) (hk : a.keyAt j <+: a.keyAt k)
    (hlater : j < k) : aliasNeverMatches a j (between ++ k :: behind) = true := by
  have hstep : ∀ x, a.keyAt j <+: a.keyAt x → ¬ (a.keyAt x).length < (a.keyAt j).length ∧
      ¬ (a.keyAt x).take (a.keyAt j).length ≠ a.keyAt j := fun x hx =>
    ⟨not_lt.mpr hx.length_le, not_not.mpr (List.prefix_iff_eq_take.mp hx).symm⟩
  induction between with
  | nil =>
    obtain ⟨hlen, htake⟩ := hstep k hk
    rw [List.nil_append, aliasNeverMatches, if_neg hlen, if_neg htake, if_pos hlater]
  | cons x between ih =>
    obtain ⟨hlen, htake⟩ := hstep x (hbetween x List.mem_cons_self)
    rw [List.cons_append, aliasNeverMatches, if_neg hlen, if_neg htake]
    split_ifs
    · rfl
    · exact ih fun y hy => hbetween y (List.mem_cons_of_mem x hy)

theorem aliasOrderIsValid_append {front behind : List ℕ} {j : ℕ}
    (h : aliasOrderIsValid a (front ++ j :: behind) = true) :
    aliasNeverMatches a j behind = false := by
  induction front with
  | nil =>
    rw [List.nil_append, aliasOrderIsValid, Bool.and_eq_true, Bool.not_eq_true'] at h
    exact h.1
  | cons x front ih =>
    rw [List.cons_append, aliasOrderIsValid, Bool.and_eq_true] at h
    exact ih h.2

/-- In a table that is accepted, only a key in another letter case hides that an entry comes too
late. -/
theorem noEarlierPrefix_iff (h : Indexed a) (hok : modAliasSetDefaults a = true) :
    NoEarlierPrefix a ↔ ¬ a.Interleaved := by
  refine ⟨fun hno ⟨i, j, _, hij, hj, _, hpre, _⟩ => hno i j hij hj hpre,
    fun hint i j hij hj hpre => ?_⟩
  have hi : i < a.used := hij.trans hj
  obtain ⟨front, between, behind, hsorted⟩ := h.exists_between hi hj
    (h.before_of_isPrefix hi hj hij.ne (foldKey_isPrefix hpre))
  rw [modAliasSetDefaults, Bool.and_eq_true, Bool.or_eq_true, decide_eq_true_eq, hsorted] at hok
  have hnever := aliasOrderIsValid_append (hok.2.resolve_left (by omega))
  have hstop : ¬ ∀ x ∈ between, a.keyAt i <+: a.keyAt x := fun hall => by
    rw [aliasNeverMatches_append hall hpre hij] at hnever
    cases hnever
  push Not at hstop
  obtain ⟨k, hk, hkpre⟩ := hstop
  have hinc := h.increasing
  rw [hsorted, List.pairwise_append, List.pairwise_cons, List.pairwise_append] at hinc
  obtain ⟨-, ⟨hfirst, -, -, hlast⟩, -⟩ := hinc
  have hik : a.Before i k := hfirst k (List.mem_append_left _ hk)
  have hkj : a.Before k j := hlast k hk j List.mem_cons_self
  refine hint ⟨i, j, k, hij, hj, h.mem_sorted.mp ?_, hpre, ⟨?_, hkpre⟩, hkj⟩
  · rw [hsorted]
    simp [hk]
  · exact isPrefix_of_lt_of_lt (foldKey_isPrefix hpre) hik hkj

/-! ## The search -/

/-- A key matches what starts with another key. -/
def AliasCovers (conf : ResponseConf) (key other : Bytes) : Prop :=
  if conf.forceLowercaseFilenames then foldKey key <+: foldKey other else key <+: other

theorem AliasCovers.refl (conf : ResponseConf) (key : Bytes) : AliasCovers conf key key := by
  unfold AliasCovers
  split_ifs
  · exact List.prefix_rfl
  · exact List.prefix_rfl

theorem AliasCovers.trans {conf : ResponseConf} {key other uri : Bytes}
    (h : AliasCovers conf key other) (h' : AliasCovers conf other uri) :
    AliasCovers conf key uri := by
  unfold AliasCovers at *
  split_ifs at *
  · exact List.IsPrefix.trans h h'
  · exact List.IsPrefix.trans h h'

theorem aliasMatches_iff {conf : ResponseConf} {uri : Bytes} {ds : DataUnset Buffer}
    (hkey : ds.key ≠ none) (hnul : (0 : UInt8) ∉ ds.key.string) :
    aliasMatches conf uri ds = true ↔ AliasCovers conf ds.key.string (cstr uri) := by
  have hsome : ds.key.isSome = true := Option.isSome_iff_ne_none.mpr hkey
  have hcstr := (cstr_isPrefix uri).length_le
  rw [aliasMatches, hsome, Bool.and_true, Bool.and_eq_true, decide_eq_true_eq, AliasCovers,
    strncmpEq, cstr_of_notMem hnul, List.take_length]
  split_ifs
  · rw [decide_eq_true_eq, ← foldKey_isPrefix_iff]
    refine and_iff_right_of_imp fun hpre => ?_
    have := hpre.length_le
    simp only [foldKey, List.length_map] at this
    omega
  · rw [decide_eq_true_eq, eq_comm, ← List.prefix_iff_eq_take]
    exact and_iff_right_of_imp fun hpre => hpre.length_le.trans hcstr

theorem aliasFor_eq_some_iff (h : Indexed a) (conf : ResponseConf) (uri : Bytes) {j : ℕ}
    {ds : DataUnset Buffer} (hj : j < a.used) (hds : a.element j = some ds) :
    aliasFor conf a uri = some ds ↔ aliasMatches conf uri ds = true ∧
      ∀ i < j, (a.element i).any (aliasMatches conf uri) = false := by
  rw [aliasFor, DataArray.live, List.find?_filterMap, Option.bind_eq_some_iff]
  simp only [List.find?_range_eq_some, List.mem_range, Bool.not_eq_true']
  constructor
  · rintro ⟨j', ⟨hmatch, hj', hfirst⟩, hds'⟩
    have hkey : a.keyAt j' = a.keyAt j := by rw [DataArray.keyAt, DataArray.keyAt, hds, hds']
    obtain rfl := h.eq_of_caseEq hj' hj (hkey ▸ .refl _)
    rw [hds', Option.any_some] at hmatch
    exact ⟨hmatch, hfirst⟩
  · rintro ⟨hmatch, hfirst⟩
    exact ⟨j, ⟨by rw [hds, Option.any_some]; exact hmatch, hj, hfirst⟩, hds⟩

theorem everyAliasMatches_iff (h : Indexed a) (hkeys : a.StringKeys) (conf : ResponseConf) :
    EveryAliasMatches conf a ↔
      ∀ i j, i < j → j < a.used → ¬ AliasCovers conf (a.keyAt i) (a.keyAt j) := by
  have hmatches : ∀ i < a.used, ∀ uri, (a.element i).any (aliasMatches conf uri) = true ↔
      AliasCovers conf (a.keyAt i) (cstr uri) := by
    intro i hi uri
    obtain ⟨e, he, hk⟩ := h.element_eq_some hi
    obtain ⟨hsome, hnul⟩ := hkeys e (Indexed.mem_live.mpr ⟨i, hi, he⟩)
    rw [he, Option.any_some, aliasMatches_iff hsome hnul, hk]
  constructor
  · intro hall i j hij hj hcovers
    obtain ⟨e, he, hk⟩ := h.element_eq_some hj
    obtain ⟨uri, huri⟩ := hall e (Indexed.mem_live.mpr ⟨j, hj, he⟩)
    obtain ⟨hmatch, hfirst⟩ := (aliasFor_eq_some_iff h conf uri hj he).mp huri
    have hj' := (hmatches j hj uri).mp (by rw [he, Option.any_some]; exact hmatch)
    have hi' := (hmatches i (hij.trans hj) uri).mpr (hcovers.trans hj')
    rw [hfirst i hij] at hi'
    cases hi'
  · intro hno e he
    obtain ⟨j, hj, he'⟩ := Indexed.mem_live.mp he
    have hk : a.keyAt j = e.key.string := by rw [DataArray.keyAt, he']; rfl
    obtain ⟨hsome, hnul⟩ := hkeys e he
    have hcstr : cstr (a.keyAt j) = a.keyAt j := cstr_of_notMem (hk ▸ hnul)
    refine ⟨a.keyAt j, (aliasFor_eq_some_iff h conf _ hj he').mpr ⟨?_, fun i hij => ?_⟩⟩
    · rw [aliasMatches_iff hsome hnul, hcstr, hk]
      exact .refl conf _
    · rw [Bool.eq_false_iff, ne_eq, hmatches i (hij.trans hj), hcstr]
      exact hno i j hij hj

/-- For a table that `mod_alias_set_defaults` accepts: no key starts with that of an earlier entry
exactly when none does behind a key in another letter case; and every entry is taken for some path
exactly when, besides, no key starts with that of an earlier entry in another letter case where
letter case is ignored. -/
theorem modAliasSetDefaults_reachable_iff (h : Indexed a) (hok : modAliasSetDefaults a = true) :
    (NoEarlierPrefix a ↔ ¬ a.Interleaved) ∧
      (a.StringKeys → ∀ conf : ResponseConf, EveryAliasMatches conf a ↔
        ¬ a.Interleaved ∧ (conf.forceLowercaseFilenames = true → ¬ a.RecasedLater)) := by
  have hnone := noEarlierPrefix_iff h hok
  refine ⟨hnone, fun hkeys conf => ?_⟩
  rw [everyAliasMatches_iff h hkeys, ← hnone]
  by_cases hforce : conf.forceLowercaseFilenames = true
  · simp only [AliasCovers, hforce, if_true, forall_const]
    constructor
    · exact fun hno => ⟨fun i j hij hj hpre => hno i j hij hj (foldKey_isPrefix hpre),
        fun ⟨i, j, hij, hj, hfold, _⟩ => hno i j hij hj hfold⟩
    · rintro ⟨hno, hlater⟩ i j hij hj hfold
      exact hlater ⟨i, j, hij, hj, hfold, hno i j hij hj⟩
  · simp only [AliasCovers, hforce, if_false, false_imp_iff, and_true, Bool.false_eq_true]
    rfl

/-- On a table with the longer key first. -/
theorem modAliasSetDefaults_reachable_iff_longer :
    let a := stringTable [(str "/ac", str "/x"), (str "/a", str "/y")]
    (NoEarlierPrefix a ↔ ¬ a.Interleaved) ∧
      (a.StringKeys → ∀ conf : ResponseConf, EveryAliasMatches conf a ↔
        ¬ a.Interleaved ∧ (conf.forceLowercaseFilenames = true → ¬ a.RecasedLater)) :=
  modAliasSetDefaults_reachable_iff (indexed_stringTable _) (by decide +kernel)

/-- The key `/Ab` hides that `/ac` comes behind `/a`. -/
theorem modAliasSetDefaults_shadowed :
    ¬ ∀ a : DataArray Buffer, Indexed a → modAliasSetDefaults a = true → NoEarlierPrefix a := by
  intro h
  have hno := h (stringTable [(str "/a", str "/x"), (str "/ac", str "/y"), (str "/Ab", str "/z")])
    (indexed_stringTable _) (by decide +kernel)
  exact hno 0 1 (by decide) (by decide +kernel) (by decide +kernel)

end Lighttpd
