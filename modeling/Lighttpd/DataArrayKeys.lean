import Lighttpd.DataArrayIndex

/-!
# Values under keys, and elements without keys

An element that was inserted without a key has a generated one, the next number of the array, and
keeps the mark of that (`is_index_key`) when it is reset and used again. `array_set_key_value` then
puts its value under the next number and not under the key it was given. The next number may also
be the key of an element in use, and an element without a key is then merged into that one.
`arrayRun_findsValues_iff` says that nothing else goes wrong.
-/

namespace Lighttpd

open CString Bisect

/-- The methods of `data_string`. -/
def dataStringMethods : ElementMethods Buffer where
  reset ds := { ds with key := none, value := none }
  insertDup dst src :=
    match dst.value with
    | some value => some (value ++ str ", " ++ src.value.string)
    | none => src.value
  init := none

variable {V : Type*} {m : ElementMethods V} {a b : DataArray V} {entry : DataUnset V}

/-- The key that the next element without one gets. -/
def DataArray.nextKey (a : DataArray V) : Bytes := str (toString a.uniqueNdx)

/-- The key is one of an element in use. -/
def DataArray.HasKey (a : DataArray V) (key : Bytes) : Prop := ∃ e ∈ a.live, CaseEq key e.key.string

namespace Indexed

theorem live_congr (hu : b.used = a.used)
    (he : ∀ i < a.used, b.element i = a.element i) : b.live = a.live := by
  rw [DataArray.live, DataArray.live, hu]
  exact List.filterMap_congr fun i hi => he i (List.mem_range.mp hi)

theorem live_generateKey (a : DataArray V) (entry : DataUnset V) :
    (generateKey a entry).2.live = a.live := by
  unfold generateKey
  split_ifs
  · exact live_congr rfl fun _ _ => rfl
  · rfl

theorem live_arrayInsertAt (h : Indexed a) (entry : DataUnset V) (pos : ℕ) :
    (arrayInsertAt a entry pos).live = a.live ++ [entry] := by
  have helem := h.element_arrayInsertAt entry pos
  rw [DataArray.live, show (arrayInsertAt a entry pos).used = a.used + 1 from rfl, List.range_succ,
    List.filterMap_append, DataArray.live]
  congr 1
  · refine List.filterMap_congr fun i hi => ?_
    have hlt := List.mem_range.mp hi
    rw [helem i (by omega), if_neg (by omega)]
  · simp [helem a.used (by omega)]

theorem arrayInsertUniqueElement_free (h : Indexed a)
    (hfree : ¬ a.HasKey (generateKey a entry).1.key.string) :
    ∃ b, arrayInsertUniqueElement m a entry = some b ∧
      b.live = a.live ++ [(generateKey a entry).1] := by
  have hgen := h.generateKey_indexed entry
  have hlive := live_generateKey a entry
  rcases hgen.arrayGetIndex_spec (generateKey a entry).1.key.string with
    ⟨ndx, pos, -, -, hlt, hkey⟩ | ⟨pos, hget, -⟩
  · obtain ⟨e, he, hk⟩ := hgen.element_eq_some hlt
    refine absurd ⟨e, ?_, hk ▸ hkey⟩ hfree
    rw [← hlive]
    exact mem_live.mpr ⟨ndx, hlt, he⟩
  · refine ⟨arrayInsertAt (generateKey a entry).2 (generateKey a entry).1 pos, ?_, ?_⟩
    · rw [arrayInsertUniqueElement, arrayFindOrInsert, hget]
    · rw [hgen.live_arrayInsertAt, hlive]

theorem length_live (h : Indexed a) : a.live.length = a.used := by
  rw [DataArray.live, List.length_filterMap_eq_countP, List.countP_eq_length.mpr, List.length_range]
  exact fun i hi => h.filled i (List.mem_range.mp hi)

/-- An entry whose key is one of an element in use adds no element and no key. -/
theorem arrayInsertUniqueElement_taken (h : Indexed a)
    (htaken : a.HasKey (generateKey a entry).1.key.string)
    (hins : arrayInsertUniqueElement m a entry = some b) :
    b.used = a.used ∧ ∀ key, b.HasKey key → a.HasKey key := by
  have hgen := h.generateKey_indexed entry
  have hlive := live_generateKey a entry
  have hused : (generateKey a entry).2.used = a.used := by
    unfold generateKey
    split_ifs <;> rfl
  rcases hgen.arrayGetIndex_spec (generateKey a entry).1.key.string with
    ⟨ndx, pos, hget, -, hlt, hkey⟩ | ⟨pos, hget, hplace⟩
  · rw [arrayInsertUniqueElement, arrayFindOrInsert, hget] at hins
    dsimp only at hins
    obtain ⟨old, hold, -⟩ := hgen.element_eq_some hlt
    rw [insertDupAt, hold] at hins
    dsimp only at hins
    split_ifs at hins
    cases hins
    refine ⟨hused, fun key ⟨e, he, hk⟩ => ?_⟩
    rw [DataArray.HasKey, ← hlive]
    obtain ⟨i, hi, hei⟩ := mem_live.mp he
    rw [DataArray.element, element_set] at hei
    split_ifs at hei with hndx
    · cases hei
      exact ⟨old, mem_live.mpr ⟨ndx, hlt, hold⟩, hk⟩
    · exact ⟨e, mem_live.mpr ⟨i, hi, hei⟩, hk⟩
  · obtain ⟨e, he, hk⟩ := htaken
    rw [← hlive] at he
    obtain ⟨i, hi, hei⟩ := mem_live.mp he
    refine absurd (bufferCaselessCompare_eq_zero.mpr ?_) (hplace.ne_zero i (hgen.mem_sorted.mpr hi))
    rwa [DataArray.keyAt, hei]

theorem hasKey_iff (h : Indexed a) (key : Bytes) :
    a.HasKey key ↔ ∃ ndx pos, arrayGetIndex a key = (some ndx, pos) := by
  rcases h.arrayGetIndex_spec key with ⟨ndx, pos, hget, -, hlt, hkey⟩ | ⟨pos, hget, hplace⟩
  · obtain ⟨e, he, hk⟩ := h.element_eq_some hlt
    exact ⟨fun _ => ⟨ndx, pos, hget⟩, fun _ => ⟨e, mem_live.mpr ⟨ndx, hlt, he⟩, hk ▸ hkey⟩⟩
  · refine ⟨fun hhas => ?_, fun ⟨ndx, pos', hget'⟩ => by simp [hget] at hget'⟩
    obtain ⟨e, he, hk⟩ := hhas
    obtain ⟨i, hi, hei⟩ := mem_live.mp he
    refine absurd (bufferCaselessCompare_eq_zero.mpr ?_) (hplace.ne_zero i (h.mem_sorted.mpr hi))
    rwa [DataArray.keyAt, hei]

theorem live_arrayGetUnusedElement (t : DataType) :
    (arrayGetUnusedElement a t).2.live = a.live ∧
      (arrayGetUnusedElement a t).2.uniqueNdx = a.uniqueNdx := by
  unfold arrayGetUnusedElement
  split
  · next i hfind =>
    have hi := List.mem_of_find?_eq_some hfind
    rw [List.mem_range'_1] at hi
    refine ⟨live_congr rfl fun j hj => ?_, rfl⟩
    change (((a.data.set i _).set a.used none)[j]?).join = _
    rw [element_set, element_set, if_neg (by omega), if_neg (by omega)]
    rfl
  · exact ⟨rfl, rfl⟩

end Indexed

/-! ## A value under a key -/

/-- `array_set_key_value` stores the value, and a lookup of the key finds it. -/
def FindsValue (m : ElementMethods V) (a : DataArray V) (key : Bytes) (value : V) : Prop :=
  ∃ b e, arraySetKeyValue m a key value = some b ∧ arrayGetElementKlen b key = some e ∧
    e.value = value

/-- The spare element that `array_set_key_value` uses again has a generated key. -/
def DataArray.SpareIndexKey (a : DataArray V) : Prop :=
  (arrayGetUnusedElement a .string).1.any (·.isIndexKey) = true

instance (a : DataArray V) : Decidable a.SpareIndexKey := inferInstanceAs (Decidable (_ = true))

/-- An element without a key is added, and the others stay as they are. -/
def AddsElement (m : ElementMethods V) (a : DataArray V) (entry : DataUnset V) : Prop :=
  ∃ b e, arrayInsertUniqueElement m a entry = some b ∧ b.live = a.live ++ [e] ∧
    e.value = entry.value ∧ e.type = entry.type

section Keys

theorem generateKey_keyless (h : entry.key = none ∨ entry.isIndexKey = true) :
    (generateKey a entry).1 = { entry with key := some a.nextKey, isIndexKey := true } := by
  rw [generateKey, if_pos (by simpa using h)]
  rfl

theorem generateKey_keyed {key : Bytes} (h : entry.key = some key) (hi : entry.isIndexKey = false) :
    generateKey a entry = (entry, a) := by
  rw [generateKey, if_neg (by simp [h, hi])]

theorem addsElement_iff (h : Indexed a) (hkey : entry.key = none ∨ entry.isIndexKey = true) :
    AddsElement m a entry ↔ ¬ a.HasKey a.nextKey := by
  have hgen : (generateKey a entry).1.key.string = a.nextKey := by
    rw [generateKey_keyless hkey]
    rfl
  constructor
  · rintro ⟨b, e, hins, hlive, -⟩ htaken
    obtain ⟨hused, -⟩ := h.arrayInsertUniqueElement_taken (hgen.symm ▸ htaken) hins
    have hlen := congrArg List.length hlive
    rw [(h.arrayInsertUniqueElement_indexed hins).length_live, List.length_append, h.length_live,
      hused] at hlen
    simp at hlen
  · intro hfree
    obtain ⟨b, hins, hlive⟩ := h.arrayInsertUniqueElement_free (m := m) (hgen.symm ▸ hfree)
    exact ⟨b, _, hins, hlive, by rw [generateKey_keyless hkey], by rw [generateKey_keyless hkey]⟩

theorem findsValue_found {key : Bytes} (h : Indexed a) (hfound : a.HasKey key) (value : V) :
    FindsValue m a key value := by
  obtain ⟨ndx, pos, hget⟩ := (h.hasKey_iff key).mp hfound
  rcases h.arrayGetIndex_spec key with ⟨ndx', pos', hget', -, hlt, hkey⟩ | ⟨pos', hget', -⟩
  · cases hget.symm.trans hget'
    obtain ⟨e, he, hk⟩ := h.element_eq_some hlt
    have hset : arraySetKeyValue m a key value =
        some { a with data := a.data.set ndx (some { e with value := value }) } := by
      rw [arraySetKeyValue, hget]
      dsimp only
      rw [he, Option.map_some]
    refine ⟨_, { e with value := value }, hset, ?_, rfl⟩
    rw [(h.arraySetKeyValue_indexed hset).arrayGetElementKlen_eq_some_iff, Indexed.mem_live]
    refine ⟨⟨ndx, hlt, ?_⟩, hk ▸ hkey⟩
    rw [DataArray.element, element_set, if_pos ⟨rfl, h.lt_length hlt⟩]
  · cases hget.symm.trans hget'

/-- A new element, with the value, is looked up under the key it was given or under a generated
one. -/
theorem findsValue_new {key : Bytes} {value : V} {c : DataArray V} (hc : Indexed c)
    (hfree : ¬ c.HasKey key) (hvalue : entry.value = value)
    (hset : arraySetKeyValue m a key value = arrayInsertUniqueElement m c entry) :
    FindsValue m a key value ↔ CaseEq key (generateKey c entry).1.key.string := by
  have hgen : (generateKey c entry).1.value = value := by
    rw [← hvalue]
    unfold generateKey
    split_ifs <;> rfl
  rw [FindsValue, hset]
  by_cases htaken : c.HasKey (generateKey c entry).1.key.string
  · constructor
    · rintro ⟨b, e, hins, hget, -⟩
      obtain ⟨-, hkeys⟩ := hc.arrayInsertUniqueElement_taken htaken hins
      rw [(hc.arrayInsertUniqueElement_indexed hins).arrayGetElementKlen_eq_some_iff] at hget
      exact absurd (hkeys key ⟨e, hget⟩) hfree
    · intro hcase
      obtain ⟨e, he, hk⟩ := htaken
      exact absurd ⟨e, he, hcase.trans hk⟩ hfree
  · obtain ⟨b, hins, hlive⟩ := hc.arrayInsertUniqueElement_free (m := m) htaken
    have hb := hc.arrayInsertUniqueElement_indexed hins
    constructor
    · rintro ⟨b', e, hins', hget, -⟩
      cases hins.symm.trans hins'
      rw [hb.arrayGetElementKlen_eq_some_iff, hlive, List.mem_append, List.mem_singleton] at hget
      obtain ⟨hmem | rfl, hk⟩ := hget
      · exact absurd ⟨e, hmem, hk⟩ hfree
      · exact hk
    · intro hcase
      refine ⟨b, _, hins, hb.arrayGetElementKlen_eq_some_iff.mpr ⟨?_, hcase⟩, hgen⟩
      rw [hlive]
      simp

theorem findsValue_iff (h : Indexed a) (key : Bytes) (value : V) :
    FindsValue m a key value ↔ a.HasKey key ∨ ¬ a.SpareIndexKey ∨ CaseEq key a.nextKey := by
  by_cases hfound : a.HasKey key
  · exact ⟨fun _ => .inl hfound, fun _ => findsValue_found h hfound value⟩
  · obtain ⟨hlive, hnext⟩ := Indexed.live_arrayGetUnusedElement (a := a) .string
    have hfree : ¬ (arrayGetUnusedElement a .string).2.HasKey key := by
      rwa [DataArray.HasKey, hlive]
    have hnone : (arrayGetIndex a key).1 = none := by
      by_contra hsome
      obtain ⟨ndx, hndx⟩ := Option.ne_none_iff_exists'.mp hsome
      exact hfound ((h.hasKey_iff key).mpr ⟨ndx, (arrayGetIndex a key).2, by rw [← hndx]⟩)
    obtain ⟨ds, hds⟩ : ∃ ds, ds = (arrayGetUnusedElement a .string).1.getD
        ⟨.string, none, false, m.init⟩ := ⟨_, rfl⟩
    have hset : arraySetKeyValue m a key value = arrayInsertUniqueElement m
        (arrayGetUnusedElement a .string).2 { ds with key := some key, value := value } := by
      rw [arraySetKeyValue, hnone, hds]
    refine (findsValue_new (h.arrayGetUnusedElement_indexed .string) hfree ?_ hset).trans ?_
    · rfl
    rw [or_iff_right hfound, DataArray.SpareIndexKey]
    generalize arrayGetUnusedElement a .string = r at hnext hds
    subst hds
    have hkeyed (ds : DataUnset V) (hds : ds.isIndexKey = false) :
        (generateKey r.2 { ds with key := some key, value := value }).1.key.string = key := by
      have hkey : ({ ds with key := some key, value := value } : DataUnset V).key = some key := rfl
      rw [generateKey_keyed hkey hds]
      rfl
    have hkeyless (ds : DataUnset V) (hds : ds.isIndexKey = true) :
        (generateKey r.2 { ds with key := some key, value := value }).1.key.string = a.nextKey := by
      have hindex : ({ ds with key := some key, value := value } : DataUnset V).isIndexKey = true := hds
      rw [generateKey_keyless (.inr hindex)]
      exact congrArg (fun n => str (toString n)) hnext
    rcases r with ⟨_ | ds, c⟩
    · rw [Option.getD_none, hkeyed _ rfl]
      exact iff_of_true (.refl key) (.inl (by simp))
    · rw [Option.getD_some]
      by_cases hds : ds.isIndexKey = true
      · rw [hkeyless ds hds]
        exact (or_iff_right fun hno => hno (by simp [hds])).symm
      · rw [Bool.not_eq_true] at hds
        rw [hkeyed ds hds]
        exact iff_of_true (.refl key) (.inl (by simp [hds]))

end Keys

section OwnKeys

end OwnKeys

/-- After every sequence of operations on a new array of strings, a value is found under the key it
is stored under exactly when the key is there already, or no spare element with a generated key is
used again, or the key is the number that is generated; and an element without a key is added, and
the others left alone, exactly when that number is not a key in use. -/
theorem arrayRun_findsValues_iff (ops : List (ArrayOp Buffer)) (a : DataArray Buffer)
    (hrun : arrayRun dataStringMethods arrayInit ops = some a) :
    (∀ key value, FindsValue dataStringMethods a key value ↔
      a.HasKey key ∨ ¬ a.SpareIndexKey ∨ CaseEq key a.nextKey) ∧
    ∀ entry : DataUnset Buffer, entry.key = none ∨ entry.isIndexKey = true →
      (AddsElement dataStringMethods a entry ↔ ¬ a.HasKey a.nextKey) := by
  have h := indexed_arrayInit.run hrun
  exact ⟨fun key value => findsValue_iff h key value, fun entry hkey => addsElement_iff h hkey⟩

/-- A table of strings with these keys and values. -/
def stringTable (entries : List (Bytes × Bytes)) : DataArray Buffer :=
  (arrayRun dataStringMethods arrayInit
    (entries.map fun e => .insertUnique ⟨.string, some e.1, false, some e.2⟩)).getD arrayInit

theorem indexed_stringTable (entries : List (Bytes × Bytes)) :
    Indexed (stringTable entries) := by
  unfold stringTable
  cases hrun : arrayRun dataStringMethods arrayInit
    (entries.map fun e => .insertUnique ⟨.string, some e.1, false, some e.2⟩) with
  | none => exact indexed_arrayInit
  | some a => exact indexed_arrayInit.run hrun

/-- A value is stored and taken out, and another one stored. -/
theorem arrayRun_findsValues_host :
    FindsValue dataStringMethods ⟨List.replicate 16 none, [], 0, 0⟩ (str "Host") (some (str "b")) ∧
      AddsElement dataStringMethods ⟨List.replicate 16 none, [], 0, 0⟩
        ⟨.string, none, false, some (str "c")⟩ := by
  have hiff := arrayRun_findsValues_iff [.setKeyValue (str "Host") (some (str "a")),
    .extract (str "host")] ⟨List.replicate 16 none, [], 0, 0⟩ (by decide +kernel)
  exact ⟨(hiff.1 _ _).mpr (Or.inr (Or.inl (by decide +kernel))),
    (hiff.2 _ (Or.inl rfl)).mpr (by rintro ⟨e, he, -⟩; cases he)⟩

/-- An element without a key, a reset, and a value for `Host`, which is then under the key `0`; and a
value for `0`, and an element without a key. -/
theorem not_findsValue_recycled :
    (∃ a, arrayRun dataStringMethods arrayInit
      [.insertUnique ⟨.string, none, false, some (str "a")⟩, .reset] = some a ∧
      ¬ FindsValue dataStringMethods a (str "Host") (some (str "b"))) ∧
    ∃ a, arrayRun dataStringMethods arrayInit [.setKeyValue (str "0") (some (str "a"))] = some a ∧
      ¬ AddsElement dataStringMethods a ⟨.string, none, false, some (str "b")⟩ := by
  constructor
  · refine ⟨⟨some ⟨.string, none, true, none⟩ :: List.replicate 15 none, [], 0, 0⟩,
      by decide +kernel, ?_⟩
    rintro ⟨b, e, hset, hget, -⟩
    obtain rfl : b = ⟨some ⟨.string, some (str "0"), true, some (str "b")⟩ :: List.replicate 15 none,
        [0], 1, 1⟩ := Option.some.inj (hset.symm.trans (by decide +kernel))
    exact absurd hget (by rw [show arrayGetElementKlen _ _ = none by decide +kernel]; simp)
  · refine ⟨⟨some ⟨.string, some (str "0"), false, some (str "a")⟩ :: List.replicate 15 none,
      [0], 1, 0⟩, by decide +kernel, ?_⟩
    rintro ⟨b, e, hins, hlive, -⟩
    obtain rfl : b = ⟨some ⟨.string, some (str "0"), false, some (str "a, b")⟩ ::
        List.replicate 15 none, [0], 1, 1⟩ := Option.some.inj (hins.symm.trans (by decide +kernel))
    have hlen := congrArg List.length hlive
    rw [List.length_append, List.length_singleton] at hlen
    exact absurd hlen (by decide +kernel)

end Lighttpd
