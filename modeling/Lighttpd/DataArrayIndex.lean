import Lighttpd.DataArray
import Mathlib.Data.List.InsertIdx
import Mathlib.Data.List.Perm.Subperm

/-!
# The array is an ordered index

`Indexed` is what every operation keeps: `sorted` has every position in use once, in the order of
the keys. A lookup then finds an element exactly when one with this key is in use
(`arrayGetElementKlen_eq_some_iff`), and `array_extract_element_klen` takes out one element and no
other (`arrayExtract_spec`).

The operations are compared by `ordered`, the elements in the order of `sorted`: inserting adds
one element at its place, extracting removes one.
-/

namespace Lighttpd

open CString Bisect

variable {V : Type*} {a : DataArray V}

namespace DataArray

/-- The elements in the order of their keys. -/
def ordered (a : DataArray V) : List (Option (DataUnset V)) := a.sorted.map a.element

/-- Two positions are in the order of their keys. -/
def Before (a : DataArray V) (i j : ℕ) : Prop := foldKey (a.keyAt i) < foldKey (a.keyAt j)

end DataArray

/-- The invariant of an array. -/
structure Indexed (a : DataArray V) : Prop where
  perm : a.sorted.Perm (List.range a.used)
  increasing : a.sorted.Pairwise a.Before
  filled : ∀ i < a.used, (a.element i).isSome

theorem indexed_arrayInit : Indexed (arrayInit : DataArray V) :=
  ⟨.refl _, .nil, fun i hi => absurd hi (Nat.not_lt_zero i)⟩

variable {i : ℕ} {b : DataArray V} {e : DataUnset V} {key : Bytes} {m : ElementMethods V}

namespace Indexed

theorem length_sorted (h : Indexed a) : a.sorted.length = a.used := by
  simpa using h.perm.length_eq

theorem nodup_sorted (h : Indexed a) : a.sorted.Nodup :=
  h.perm.nodup_iff.mpr List.nodup_range

theorem mem_sorted (h : Indexed a) : i ∈ a.sorted ↔ i < a.used := by
  rw [h.perm.mem_iff, List.mem_range]

theorem lt_length (h : Indexed a) (hi : i < a.used) : i < a.data.length := by
  by_contra hlen
  have := h.filled i hi
  rw [DataArray.element, List.getElem?_eq_none (by omega)] at this
  simp at this

theorem used_le (h : Indexed a) : a.used ≤ a.data.length := by
  rcases Nat.eq_zero_or_pos a.used with h0 | h0
  · omega
  · have := h.lt_length (i := a.used - 1) (by omega)
    omega

/-- The invariant depends on the positions and the keys in use only. -/
theorem congr (h : Indexed a) (hs : b.sorted = a.sorted) (hu : b.used = a.used)
    (hk : ∀ i < a.used, foldKey (b.keyAt i) = foldKey (a.keyAt i))
    (hf : ∀ i < a.used, (b.element i).isSome) : Indexed b := by
  refine ⟨by rw [hs, hu]; exact h.perm, ?_, by rw [hu]; exact hf⟩
  rw [hs]
  refine h.increasing.imp_of_mem fun hi hj hij => ?_
  rw [DataArray.Before, hk _ (h.mem_sorted.mp hi), hk _ (h.mem_sorted.mp hj)]
  exact hij

/-- The order of `sorted` is the one the binary search needs. -/
theorem ordered_sorted (h : Indexed a) (key : Bytes) :
    Ordered (fun i => bufferCaselessCompare key (a.keyAt i)) a.sorted := by
  refine h.increasing.imp fun {i j} hij hj => ?_
  rw [bufferCaselessCompare_pos]
  refine lt_of_lt_of_le hij (le_of_not_gt fun hlt => ?_)
  exact absurd hj (not_le_of_gt (bufferCaselessCompare_lt_zero.mpr hlt))

/-- `array_get_index` finds the position of the key, or the place where it belongs. -/
theorem arrayGetIndex_spec (h : Indexed a) (key : Bytes) :
    (∃ ndx pos, arrayGetIndex a key = (some ndx, pos) ∧ a.sorted[pos]? = some ndx ∧
        ndx < a.used ∧ CaseEq key (a.keyAt ndx)) ∨
      ∃ pos, arrayGetIndex a key = (none, pos) ∧
        Place (fun i => bufferCaselessCompare key (a.keyAt i)) a.sorted pos := by
  have hlen := h.length_sorted
  rcases bisect_spec (h.ordered_sorted key) a.used 0 a.used (Nat.zero_le _) hlen.ge (by omega)
    (by simp) (by simp [← hlen]) with ⟨p, x, hb, hp, hx⟩ | ⟨p, hb, hplace⟩
  · refine .inl ⟨x, p, by simp [arrayGetIndex, hb, hp], hp, ?_, bufferCaselessCompare_eq_zero.mp hx⟩
    exact h.mem_sorted.mp (List.mem_of_getElem? hp)
  · exact .inr ⟨p, by simp [arrayGetIndex, hb], hplace⟩

theorem element_eq_some (h : Indexed a) (hi : i < a.used) :
    ∃ e, a.element i = some e ∧ a.keyAt i = e.key.string := by
  obtain ⟨e, he⟩ := Option.isSome_iff_exists.mp (h.filled i hi)
  exact ⟨e, he, by simp [DataArray.keyAt, he]⟩

theorem eq_of_caseEq (h : Indexed a) {j : ℕ} (hi : i < a.used) (hj : j < a.used)
    (hk : CaseEq (a.keyAt i) (a.keyAt j)) : i = j := by
  by_contra hne
  have hdiff : a.sorted.Pairwise fun i j => foldKey (a.keyAt i) ≠ foldKey (a.keyAt j) :=
    h.increasing.imp fun hij => hij.ne
  have : Std.Symm fun i j => foldKey (a.keyAt i) ≠ foldKey (a.keyAt j) := ⟨fun _ _ => Ne.symm⟩
  exact hdiff.forall (h.mem_sorted.mpr hi) (h.mem_sorted.mpr hj) hne (foldKey_eq_iff.mpr hk)

theorem mem_live : e ∈ a.live ↔ ∃ i < a.used, a.element i = some e := by
  simp [DataArray.live, List.mem_filterMap]

/-- The elements in use are those of `ordered`. -/
theorem live_perm (h : Indexed a) : a.live.Perm (a.ordered.filterMap id) := by
  rw [DataArray.ordered, List.filterMap_map]
  exact (h.perm.symm.filterMap _)

/-- `array_get_element_klen` returns the element in use with this key. -/
theorem arrayGetElementKlen_eq_some_iff (h : Indexed a) :
    arrayGetElementKlen a key = some e ↔ e ∈ a.live ∧ CaseEq key e.key.string := by
  rw [mem_live]
  rcases h.arrayGetIndex_spec key with ⟨ndx, pos, hget, -, hlt, hkey⟩ | ⟨pos, hget, hplace⟩
  · obtain ⟨e', he', hk'⟩ := h.element_eq_some hlt
    rw [arrayGetElementKlen, hget, Option.bind_some, he', Option.some.injEq]
    constructor
    · rintro rfl
      exact ⟨⟨ndx, hlt, he'⟩, hk' ▸ hkey⟩
    · rintro ⟨⟨i, hi, he⟩, hk⟩
      have hki : a.keyAt i = e.key.string := by simp [DataArray.keyAt, he]
      have hij : ndx = i := h.eq_of_caseEq hlt hi (hki ▸ hkey.symm.trans hk)
      subst hij
      simpa [he'] using he
  · rw [arrayGetElementKlen, hget, Option.bind_none]
    refine ⟨fun h' => by simp at h', ?_⟩
    rintro ⟨⟨i, hi, he⟩, hk⟩
    have hki : a.keyAt i = e.key.string := by simp [DataArray.keyAt, he]
    exact absurd (bufferCaselessCompare_eq_zero.mpr (hki ▸ hk))
      (hplace.ne_zero i (h.mem_sorted.mpr hi))

theorem arrayGetElementKlen_isSome_iff (h : Indexed a) (key : Bytes) :
    (arrayGetElementKlen a key).isSome ↔ ∃ e ∈ a.live, CaseEq key e.key.string := by
  simp only [Option.isSome_iff_exists, h.arrayGetElementKlen_eq_some_iff]

end Indexed

theorem element_set (l : List (Option (DataUnset V))) (i j : ℕ) (x : Option (DataUnset V)) :
    ((l.set i x)[j]?).join = if i = j ∧ i < l.length then x else (l[j]?).join := by
  rw [List.getElem?_set]
  by_cases hij : i = j
  · subst hij
    by_cases hlt : i < l.length
    · simp [hlt]
    · simp [hlt]
  · simp [hij]

theorem foldKey_keyAt_congr {a : DataArray V} (h : b.element i = a.element i) :
    foldKey (b.keyAt i) = foldKey (a.keyAt i) := by
  rw [DataArray.keyAt, DataArray.keyAt, h]

namespace Indexed

theorem congr_element (h : Indexed a) (hs : b.sorted = a.sorted) (hu : b.used = a.used)
    (he : ∀ i < a.used, b.element i = a.element i) : Indexed b :=
  h.congr hs hu (fun i hi => foldKey_keyAt_congr (he i hi)) fun i hi => by
    rw [he i hi]
    exact h.filled i hi

theorem set_element {ndx : ℕ} (h : Indexed a) (hk : CaseEq e.key.string (a.keyAt ndx)) :
    Indexed { a with data := a.data.set ndx (some e) } := by
  have helem : ∀ j, ({ a with data := a.data.set ndx (some e) } : DataArray V).element j =
      if ndx = j ∧ ndx < a.data.length then some e else a.element j :=
    fun j => element_set a.data ndx j (some e)
  refine h.congr rfl rfl (fun i hi => ?_) fun i hi => ?_
  · rw [DataArray.keyAt, helem i]
    split_ifs with hcond
    · rw [← hcond.1]
      exact foldKey_eq_iff.mpr hk
    · rfl
  · rw [helem i]
    split_ifs
    · rfl
    · exact h.filled i hi

/-! ## Inserting -/

theorem generateKey_indexed (h : Indexed a) (entry : DataUnset V) :
    Indexed (generateKey a entry).2 := by
  unfold generateKey
  split_ifs
  · exact h.congr_element rfl rfl fun _ _ => rfl
  · exact h

theorem element_arrayInsertAt (h : Indexed a) (entry : DataUnset V) (pos i : ℕ)
    (hi : i < a.used + 1) : (arrayInsertAt a entry pos).element i =
      if i = a.used then some entry else a.element i := by
  have hle := h.used_le
  have hgrow : ∀ l : List (Option (DataUnset V)), l = a.data ∨ l = a.data ++ List.replicate 16 none →
      a.used < l.length → ((l.set a.used (some entry))[i]?).join =
        if i = a.used then some entry else a.element i := fun l hl hlt => by
    rw [element_set]
    by_cases hiu : i = a.used
    · rw [if_pos ⟨hiu.symm, hlt⟩, if_pos hiu]
    · rw [if_neg fun hc => hiu hc.1.symm, if_neg hiu, DataArray.element]
      rcases hl with rfl | rfl
      · rfl
      · rw [List.getElem?_append_left (h.lt_length (by omega))]
  refine hgrow (if a.data.length = a.used then a.data ++ List.replicate 16 none else a.data) ?_ ?_
  · split_ifs
    · exact .inr rfl
    · exact .inl rfl
  · split_ifs with hfull
    · simp
      omega
    · omega

theorem arrayInsertAt_indexed {entry : DataUnset V} {pos : ℕ} (h : Indexed a)
    (hplace : Place (fun i => bufferCaselessCompare entry.key.string (a.keyAt i)) a.sorted pos) :
    Indexed (arrayInsertAt a entry pos) := by
  have helem := h.element_arrayInsertAt entry pos
  have hold : ∀ i ∈ a.sorted, (arrayInsertAt a entry pos).keyAt i = a.keyAt i := fun i hi => by
    have hlt := h.mem_sorted.mp hi
    rw [DataArray.keyAt, helem i (by omega), if_neg (by omega), DataArray.keyAt]
  have hnew : (arrayInsertAt a entry pos).keyAt a.used = entry.key.string := by
    rw [DataArray.keyAt, helem a.used (by omega), if_pos rfl]
    rfl
  refine ⟨?_, ?_, fun i hi => ?_⟩
  · change (a.sorted.take pos ++ a.used :: a.sorted.drop pos).Perm (List.range (a.used + 1))
    rw [List.range_succ]
    refine List.perm_middle.trans ?_
    rw [List.take_append_drop]
    exact (List.Perm.cons _ h.perm).trans (List.perm_append_singleton _ _).symm
  · change (a.sorted.take pos ++ a.used :: a.sorted.drop pos).Pairwise _
    have hbefore : ∀ i ∈ a.sorted.take pos, (arrayInsertAt a entry pos).Before i a.used :=
      fun i hi => by
        rw [DataArray.Before, hnew, hold i (List.mem_of_mem_take hi)]
        exact bufferCaselessCompare_pos.mp (hplace.before i hi)
    have hbehind : ∀ i ∈ a.sorted.drop pos, (arrayInsertAt a entry pos).Before a.used i :=
      fun i hi => by
        rw [DataArray.Before, hnew, hold i (List.mem_of_mem_drop hi)]
        exact bufferCaselessCompare_lt_zero.mp (hplace.behind i hi)
    have hsorted : a.sorted.Pairwise (arrayInsertAt a entry pos).Before :=
      h.increasing.imp_of_mem fun hi hj hij => by
        rwa [DataArray.Before, hold _ hi, hold _ hj]
    rw [List.pairwise_append, List.pairwise_cons]
    refine ⟨hsorted.sublist (List.take_sublist _ _),
      ⟨hbehind, hsorted.sublist (List.drop_sublist _ _)⟩, fun i hi j hj => ?_⟩
    rcases List.mem_cons.mp hj with rfl | hj
    · exact hbefore i hi
    · exact (hbefore i hi).trans (hbehind j hj)
  · rw [helem i hi]
    split_ifs with hiu
    · rfl
    · exact h.filled i (by change i < a.used + 1 at hi; omega)

/-- The element with the key of the entry, if there is one, is where `array_find_or_insert`
says. -/
theorem arrayFindOrInsert_spec (h : Indexed a) (entry : DataUnset V) :
    Indexed (arrayFindOrInsert a entry).2.2 ∧ ∀ ndx, (arrayFindOrInsert a entry).2.1 = some ndx →
      ndx < (arrayFindOrInsert a entry).2.2.used ∧
        CaseEq (arrayFindOrInsert a entry).1.key.string
          ((arrayFindOrInsert a entry).2.2.keyAt ndx) := by
  have hgen := h.generateKey_indexed entry
  unfold arrayFindOrInsert
  dsimp only
  rcases hgen.arrayGetIndex_spec (generateKey a entry).1.key.string with
    ⟨ndx, pos, hget, -, hlt, hkey⟩ | ⟨pos, hget, hplace⟩
  · rw [hget]
    refine ⟨hgen, fun ndx' hn => ?_⟩
    cases hn
    exact ⟨hlt, hkey⟩
  · rw [hget]
    exact ⟨hgen.arrayInsertAt_indexed hplace, fun _ hn => by simp at hn⟩

theorem arrayReplace_indexed (h : Indexed a) (entry : DataUnset V) :
    Indexed (arrayReplace a entry) := by
  obtain ⟨hi, hfound⟩ := h.arrayFindOrInsert_spec entry
  unfold arrayReplace
  split
  · next heq => simpa [heq] using hi
  · next heq =>
    rw [heq] at hi hfound
    exact hi.set_element (hfound _ rfl).2

theorem arrayInsertUniqueElement_indexed (h : Indexed a) {entry : DataUnset V}
    (hins : arrayInsertUniqueElement m a entry = some b) : Indexed b := by
  obtain ⟨hi, hfound⟩ := h.arrayFindOrInsert_spec entry
  unfold arrayInsertUniqueElement at hins
  split at hins
  · next heq =>
    cases hins
    simpa [heq] using hi
  · next ndx a' heq =>
    rw [heq] at hi
    unfold insertDupAt at hins
    split at hins
    · next old hold =>
      split_ifs at hins
      cases hins
      refine hi.set_element ?_
      rw [DataArray.keyAt, hold]
      exact .refl _
    · simp at hins

theorem arrayGetUnusedElement_indexed (h : Indexed a) (t : DataType) :
    Indexed (arrayGetUnusedElement a t).2 := by
  unfold arrayGetUnusedElement
  split
  · next i hfind =>
    have hi := List.mem_of_find?_eq_some hfind
    rw [List.mem_range'_1] at hi
    refine h.congr_element rfl rfl fun j hj => ?_
    change (((a.data.set i _).set a.used none)[j]?).join = _
    rw [element_set, element_set, if_neg (by omega), if_neg (by omega)]
    rfl
  · exact h

theorem arraySetKeyValue_indexed (h : Indexed a) {value : V}
    (hset : arraySetKeyValue m a key value = some b) : Indexed b := by
  unfold arraySetKeyValue at hset
  rcases h.arrayGetIndex_spec key with ⟨ndx, pos, hget, -, hlt, -⟩ | ⟨pos, hget, -⟩
  · obtain ⟨e, he, hk⟩ := h.element_eq_some hlt
    rw [hget] at hset
    simp only [he, Option.map_some, Option.some.injEq] at hset
    cases hset
    exact h.set_element (by rw [hk]; exact .refl _)
  · rw [hget] at hset
    exact (h.arrayGetUnusedElement_indexed .string).arrayInsertUniqueElement_indexed hset

theorem arrayReset_indexed (m : ElementMethods V) (a : DataArray V) : Indexed (arrayReset m a) :=
  ⟨.refl _, .nil, fun i hi => absurd hi (Nat.not_lt_zero i)⟩

end Indexed

/-! ## Extracting -/

/-- Lists that differ at one position only are the same without it. -/
theorem eraseIdx_congr {α : Type*} {l l' : List α} {n : ℕ} (h : ∀ j ≠ n, l[j]? = l'[j]?) :
    l.eraseIdx n = l'.eraseIdx n := by
  refine List.ext_getElem? fun j => ?_
  rw [List.getElem?_eraseIdx, List.getElem?_eraseIdx]
  split_ifs with hj
  · exact h j (by omega)
  · exact h (j + 1) (by omega)

/-- The positions of an extraction: the element is at `ndx` in `data` and at `pos` in `sorted`, and
the last element is at `lastPos` in `sorted`. -/
structure Extraction (a : DataArray V) (ndx pos lastPos : ℕ) : Prop where
  pos : a.sorted[pos]? = some ndx
  lastPos : a.sorted[lastPos]? = some (a.used - 1)

namespace Extraction

variable {ndx pos lastPos : ℕ}

theorem pos_lt (x : Extraction a ndx pos lastPos) : pos < a.sorted.length :=
  (List.getElem?_eq_some_iff.mp x.pos).1

theorem ndx_lt (x : Extraction a ndx pos lastPos) (h : Indexed a) : ndx < a.used :=
  h.mem_sorted.mp (List.mem_of_getElem? x.pos)

/-- The position in `data` of an element that is neither extracted nor moved. -/
theorem other (x : Extraction a ndx pos lastPos) (h : Indexed a) {j : ℕ}
    (hi : a.sorted[j]? = some i) (hpos : j ≠ pos) (hlast : j ≠ lastPos) :
    i ≠ ndx ∧ i < a.used - 1 := by
  have hne : ∀ k n, a.sorted[k]? = some n → j ≠ k → i ≠ n := fun k n hk hjk hin => by
    subst hin
    exact hjk ((List.getElem?_inj (List.getElem?_eq_some_iff.mp hi).1 h.nodup_sorted).mp
      (hi.trans hk.symm))
  have hlt := h.mem_sorted.mp (List.mem_of_getElem? hi)
  have := hne _ _ x.lastPos hlast
  exact ⟨hne _ _ x.pos hpos, by omega⟩

/-- The moved element is extracted itself, or comes to lie before the end. -/
theorem ndx_lt_of_ne (x : Extraction a ndx pos lastPos) (h : Indexed a) (hne : lastPos ≠ pos) :
    ndx < a.used - 1 := by
  have hlt := x.ndx_lt h
  have : ndx ≠ a.used - 1 := fun heq => by
    have hlen := (List.getElem?_eq_some_iff.mp x.lastPos).1
    refine hne ((List.getElem?_inj hlen h.nodup_sorted).mp ?_)
    rw [x.lastPos, x.pos, heq]
  omega

theorem element_removeAt (x : Extraction a ndx pos lastPos) (h : Indexed a) (hi : i < a.used - 1) :
    (arrayRemoveAt a ndx pos lastPos).element i =
      if i = ndx then a.element (a.used - 1) else a.element i := by
  have hlt := h.lt_length (x.ndx_lt h)
  change (((a.data.set ndx _).set (a.used - 1) none)[i]?).join = _
  rw [element_set, element_set, if_neg (by omega)]
  by_cases hin : i = ndx
  · rw [if_pos ⟨hin.symm, hlt⟩, if_pos hin]
  · rw [if_neg fun hc => hin hc.1.symm, if_neg hin]
    rfl

/-- The elements in order are those from before without the one that was extracted. -/
theorem ordered_removeAt (x : Extraction a ndx pos lastPos) (h : Indexed a) :
    (arrayRemoveAt a ndx pos lastPos).ordered = a.ordered.eraseIdx pos := by
  change ((a.sorted.set lastPos ndx).eraseIdx pos).map _ = _
  rw [← List.eraseIdx_map]
  refine eraseIdx_congr fun j hj => ?_
  rw [List.getElem?_map, DataArray.ordered, List.getElem?_map, List.getElem?_set]
  by_cases hjl : lastPos = j
  · have hlen := (List.getElem?_eq_some_iff.mp x.lastPos).1
    subst hjl
    rw [if_pos rfl, if_pos hlen, x.lastPos, Option.map_some, Option.map_some,
      x.element_removeAt h (x.ndx_lt_of_ne h hj), if_pos rfl]
  · rw [if_neg hjl]
    cases hs : a.sorted[j]? with
    | none => rfl
    | some i =>
      obtain ⟨hne, hlt⟩ := x.other h hs hj (Ne.symm hjl)
      rw [Option.map_some, Option.map_some, x.element_removeAt h hlt, if_neg hne]

theorem removeAt_indexed (x : Extraction a ndx pos lastPos) (h : Indexed a) :
    Indexed (arrayRemoveAt a ndx pos lastPos) := by
  have hincreasing : (arrayRemoveAt a ndx pos lastPos).sorted.Pairwise
      (arrayRemoveAt a ndx pos lastPos).Before := by
    let keyOf : Option (DataUnset V) → Bytes := fun e => (e.map fun e => e.key.string).getD []
    have hordered : a.ordered.Pairwise fun e e' => foldKey (keyOf e) < foldKey (keyOf e') :=
      List.pairwise_map.mpr h.increasing
    have herase := hordered.sublist (List.eraseIdx_sublist a.ordered pos)
    rw [← x.ordered_removeAt h, DataArray.ordered, List.pairwise_map] at herase
    exact herase
  have hsubset : (arrayRemoveAt a ndx pos lastPos).sorted ⊆ List.range (a.used - 1) := by
    intro i hi
    obtain ⟨j, hj, hji⟩ := List.mem_eraseIdx_iff_getElem?.mp hi
    rw [List.mem_range]
    rw [List.getElem?_set] at hji
    split_ifs at hji with hjl
    · cases hji
      subst hjl
      exact x.ndx_lt_of_ne h hj
    · exact (x.other h hji hj (Ne.symm hjl)).2
  have hlength : (arrayRemoveAt a ndx pos lastPos).sorted.length = a.used - 1 := by
    change ((a.sorted.set lastPos ndx).eraseIdx pos).length = _
    rw [List.length_eraseIdx_of_lt (by simpa using x.pos_lt), List.length_set, h.length_sorted]
  refine ⟨?_, hincreasing, fun i hi => ?_⟩
  · have hnodup : (arrayRemoveAt a ndx pos lastPos).sorted.Nodup :=
      hincreasing.imp fun hij heq => (heq ▸ hij).ne rfl
    exact (List.subperm_of_subset hnodup hsubset).perm_of_length_le (by
      rw [List.length_range]
      exact hlength.ge)
  · rw [x.element_removeAt h hi]
    change i < a.used - 1 at hi
    split_ifs
    · exact h.filled _ (by omega)
    · exact h.filled _ (by omega)

/-- The elements in use are the extracted one and those in use afterwards. -/
theorem live_removeAt (x : Extraction a ndx pos lastPos) (h : Indexed a)
    (he : a.element ndx = some e) : a.live.Perm (e :: (arrayRemoveAt a ndx pos lastPos).live) := by
  have hlt : pos < a.ordered.length := by
    rw [DataArray.ordered, List.length_map]
    exact x.pos_lt
  have hget : a.ordered[pos] = some e := by
    have hsome : a.ordered[pos]? = some (some e) := by
      rw [DataArray.ordered, List.getElem?_map, x.pos, Option.map_some, he]
    exact (List.getElem?_eq_some_iff.mp hsome).2
  have hperm := (List.getElem_cons_eraseIdx_perm hlt).symm.filterMap id
  rw [hget, ← x.ordered_removeAt h] at hperm
  refine h.live_perm.trans (hperm.trans ?_)
  exact ((x.removeAt_indexed h).live_perm.symm.cons e)

end Extraction

/-- What `array_extract_element_klen` does when the key is found; its assertion holds. -/
theorem Indexed.arrayExtract_found (h : Indexed a) {ndx pos : ℕ}
    (hget : arrayGetIndex a key = (some ndx, pos)) :
    ∃ lastPos, Extraction a ndx pos lastPos ∧ arrayExtractElementKlen a key =
      some (a.element ndx, arrayRemoveAt a ndx pos lastPos) := by
  obtain ⟨hpos, hlt⟩ : a.sorted[pos]? = some ndx ∧ ndx < a.used := by
    rcases h.arrayGetIndex_spec key with ⟨ndx', pos', hget', hpos, hlt, -⟩ | ⟨pos', hget', -⟩
    · rw [hget'] at hget
      cases hget
      exact ⟨hpos, hlt⟩
    · rw [hget'] at hget
      cases hget
  unfold arrayExtractElementKlen
  rw [hget]
  dsimp only
  by_cases hlast : ndx = a.used - 1
  · have x : Extraction a ndx pos pos := ⟨hpos, hlast ▸ hpos⟩
    have hsame : arrayRemoveAt a ndx pos pos =
        { a with
          data := a.data.set ndx none
          sorted := a.sorted.eraseIdx pos
          used := a.used - 1 } := by
      obtain ⟨hl, hp⟩ := List.getElem?_eq_some_iff.mp hpos
      unfold arrayRemoveAt
      rw [← hlast, List.set_set]
      congr
      conv_lhs => rw [← hp]
      exact List.set_getElem_self hl
    rw [if_pos hlast, ← hsame]
    exact ⟨pos, x, rfl⟩
  · rcases h.arrayGetIndex_spec (a.keyAt (a.used - 1)) with
      ⟨last, lastPos, hget', hpos', hlt', hkey⟩ | ⟨lastPos, hget', hplace⟩
    · have hlast' : last = a.used - 1 := (h.eq_of_caseEq (by omega) hlt' hkey).symm
      subst hlast'
      rw [if_neg hlast, hget', if_pos rfl]
      exact ⟨lastPos, ⟨hpos, hpos'⟩, rfl⟩
    · exact absurd (bufferCaselessCompare_eq_zero.mpr (.refl _))
        (hplace.ne_zero _ (h.mem_sorted.mpr (by omega)))

/-- `array_extract_element_klen` takes out the element with the key. -/
theorem Indexed.arrayExtract_spec (h : Indexed a) (key : Bytes) :
    (arrayGetElementKlen a key = none ∧ arrayExtractElementKlen a key = some (none, a)) ∨
      ∃ e b, arrayGetElementKlen a key = some e ∧ arrayExtractElementKlen a key = some (some e, b) ∧
        Indexed b ∧ a.live.Perm (e :: b.live) := by
  rcases h.arrayGetIndex_spec key with ⟨ndx, pos, hget, hpos, hlt, -⟩ | ⟨pos, hget, -⟩
  · obtain ⟨e, he, -⟩ := h.element_eq_some hlt
    have hfound : arrayGetElementKlen a key = some e := by
      rw [arrayGetElementKlen, hget, Option.bind_some, he]
    obtain ⟨lastPos, x, hx⟩ := h.arrayExtract_found hget
    rw [hx, he]
    exact .inr ⟨e, _, hfound, rfl, x.removeAt_indexed h, x.live_removeAt h he⟩
  · refine .inl ⟨by rw [arrayGetElementKlen, hget, Option.bind_none], ?_⟩
    rw [arrayExtractElementKlen, hget]

theorem Indexed.apply (h : Indexed a) {op : ArrayOp V} (hop : op.apply m a = some b) :
    Indexed b := by
  cases op with
  | insertUnique entry => exact h.arrayInsertUniqueElement_indexed hop
  | replace entry =>
    cases hop
    exact h.arrayReplace_indexed entry
  | setKeyValue key value => exact h.arraySetKeyValue_indexed hop
  | extract key =>
    obtain ⟨r, hr, rfl⟩ := Option.map_eq_some_iff.mp hop
    rcases h.arrayExtract_spec key with ⟨-, hx⟩ | ⟨e, c, -, hx, hc, -⟩
    · rw [hx] at hr
      cases hr
      exact h
    · rw [hx] at hr
      cases hr
      exact hc
  | getUnused t =>
    cases hop
    exact h.arrayGetUnusedElement_indexed t
  | reset =>
    cases hop
    exact Indexed.arrayReset_indexed m a

theorem Indexed.run :
    ∀ {ops : List (ArrayOp V)} {a b : DataArray V}, Indexed a → arrayRun m a ops = some b → Indexed b
  | [], a, b, h, hrun => by
    cases hrun
    exact h
  | op :: ops, a, b, h, hrun => by
    rw [arrayRun, List.foldlM_cons] at hrun
    obtain ⟨c, hc, hrun⟩ := Option.bind_eq_some_iff.mp hrun
    exact Indexed.run (h.apply hc) hrun

theorem Indexed.arrayGetElementKlen_congr (h : Indexed a) (hb : Indexed b)
    (hperm : a.live.Perm (e :: b.live)) (hkey : ¬ CaseEq key e.key.string) :
    arrayGetElementKlen b key = arrayGetElementKlen a key := by
  refine Option.ext fun e' => ?_
  rw [hb.arrayGetElementKlen_eq_some_iff,
    h.arrayGetElementKlen_eq_some_iff, hperm.mem_iff, List.mem_cons]
  refine ⟨fun ⟨hmem, hk⟩ => ⟨.inr hmem, hk⟩, fun ⟨hmem, hk⟩ => ⟨?_, hk⟩⟩
  rcases hmem with rfl | hmem
  · exact absurd hk hkey
  · exact hmem

theorem Indexed.live_pairwise (h : Indexed a) :
    a.live.Pairwise fun e e' => ¬ CaseEq e.key.string e'.key.string := by
  refine List.pairwise_filterMap.mpr (List.nodup_range.imp_of_mem ?_)
  intro i j hi hj hij e he e' he' hk
  refine hij (h.eq_of_caseEq (List.mem_range.mp hi) (List.mem_range.mp hj) ?_)
  rwa [DataArray.keyAt, he, DataArray.keyAt, he']

theorem Indexed.arrayGetElementKlen_extracted (h : Indexed a) (hb : Indexed b)
    (hperm : a.live.Perm (e :: b.live)) (hkey : CaseEq key e.key.string) :
    arrayGetElementKlen b key = none := by
  rw [← Option.not_isSome_iff_eq_none, hb.arrayGetElementKlen_isSome_iff]
  rintro ⟨e', hmem, hk⟩
  have hpair := (hperm.pairwise_iff fun hxy hyx => hxy hyx.symm).mp h.live_pairwise
  exact (List.pairwise_cons.mp hpair).1 e' hmem (hkey.symm.trans hk)

/-! ## The index -/

/-- `buffer_caseless_compare` orders the keys, and takes keys as equal that differ in letter case
only. -/
structure CaselessOrder : Prop where
  zero_iff : ∀ x y, bufferCaselessCompare x y = 0 ↔ CaseEq x y
  flip : ∀ x y, bufferCaselessCompare x y < 0 ↔ 0 < bufferCaselessCompare y x
  trans : ∀ x y z, bufferCaselessCompare x y < 0 → bufferCaselessCompare y z < 0 →
    bufferCaselessCompare x z < 0

theorem caselessOrder : CaselessOrder where
  zero_iff _ _ := bufferCaselessCompare_eq_zero
  flip _ _ := by rw [bufferCaselessCompare_lt_zero, bufferCaselessCompare_pos]
  trans _ _ _ h h' := by
    rw [bufferCaselessCompare_lt_zero] at h h' ⊢
    exact h.trans h'

/-- An extraction returns what a lookup finds, and leaves everything else. -/
structure ExtractsOne (a : DataArray V) (key : Bytes) (e : Option (DataUnset V))
    (b : DataArray V) : Prop where
  returned : e = arrayGetElementKlen a key
  live : a.live.Perm (e.toList ++ b.live)
  gone : arrayGetElementKlen b key = none
  others : ∀ key', ¬ CaseEq key' key → arrayGetElementKlen b key' = arrayGetElementKlen a key'

/-- A case-insensitive index over the elements in use. -/
structure OrderedIndex (a : DataArray V) : Prop where
  perm : a.sorted.Perm (List.range a.used)
  increasing : a.sorted.Pairwise fun i j => bufferCaselessCompare (a.keyAt i) (a.keyAt j) < 0
  finds : ∀ key, (arrayGetElementKlen a key).isSome ↔ ∃ e ∈ a.live, CaseEq key e.key.string
  found : ∀ key e, arrayGetElementKlen a key = some e → e ∈ a.live ∧ CaseEq key e.key.string
  extracts : ∀ key, ∃ e b, arrayExtractElementKlen a key = some (e, b) ∧ ExtractsOne a key e b

theorem Indexed.extracts (h : Indexed a) (key : Bytes) :
    ∃ e b, arrayExtractElementKlen a key = some (e, b) ∧ ExtractsOne a key e b := by
  rcases h.arrayExtract_spec key with ⟨hnone, hx⟩ | ⟨e, b, hsome, hx, hb, hperm⟩
  · exact ⟨none, a, hx, hnone.symm, .refl _, hnone, fun _ _ => rfl⟩
  · have hkey := (h.arrayGetElementKlen_eq_some_iff.mp hsome).2
    exact ⟨some e, b, hx, hsome.symm, hperm, h.arrayGetElementKlen_extracted hb hperm hkey,
      fun key' hne => h.arrayGetElementKlen_congr hb hperm fun hk => hne (hk.trans hkey.symm)⟩

theorem Indexed.orderedIndex (h : Indexed a) : OrderedIndex a where
  perm := h.perm
  increasing := h.increasing.imp fun hij => bufferCaselessCompare_lt_zero.mpr hij
  finds := h.arrayGetElementKlen_isSome_iff
  found _ _ he := h.arrayGetElementKlen_eq_some_iff.mp he
  extracts := h.extracts

/-- After every sequence of operations on a new array, the array is a case-insensitive ordered
index, and the assertion of `array_extract_element_klen` holds. -/
theorem arrayRun_orderedIndex (m : ElementMethods V) (ops : List (ArrayOp V)) (a : DataArray V)
    (hrun : arrayRun m arrayInit ops = some a) : CaselessOrder ∧ OrderedIndex a :=
  ⟨caselessOrder, (indexed_arrayInit.run hrun).orderedIndex⟩

/-- Elements of strings, as `data_string` has them. -/
def stringMethods : ElementMethods Bytes where
  reset e := { e with key := none, value := [] }
  insertDup old entry := if old.value = [] then entry.value else old.value ++ str ", " ++ entry.value
  init := []

theorem arrayRun_orderedIndex_headers :
    CaselessOrder ∧ OrderedIndex (⟨[some ⟨.string, some (str "Host"), false, str "b"⟩] ++
      List.replicate 15 none, [0], 1, 0⟩ : DataArray Bytes) :=
  arrayRun_orderedIndex stringMethods
    [.setKeyValue (str "Accept") (str "a"), .setKeyValue (str "Host") (str "b"),
      .extract (str "accept")] _ (by decide +kernel)

end Lighttpd
