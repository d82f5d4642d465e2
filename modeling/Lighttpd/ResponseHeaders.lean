import Lighttpd.DataArrayIndex
import Lighttpd.Lib.Strtol

/-!
# Response headers

The response headers of a connection are an array of two kinds of elements: those of the
connection itself (`TYPE_RESPONSE`) and references to the fixed headers (`TYPE_FIXED_HEADER`), of
which there is one instance for each type in the whole server. Who writes through an element of
the second kind writes to the instance.

`ResponseHeaders.view` is the array with the instances put in, so that the lookups are those of
`DataArray`. The operations of `http-header-glue.c` are described by what they do to a lookup
(`insertUnique_spec`, `setValueAt_spec`).
-/

namespace Lighttpd

open CString Bisect

/-! ## The fixed headers -/

/-- `http_response_fixed_type_e`. -/
inductive FixedType
  | connectionClose
  | connectionKeepalive
  | connectionUpgrage
  | transferEncodingChunked
  | acceptRangesBytes
  deriving DecidableEq, Repr

/-- The key and the value that `http_response_fixed_header_register` gives to a type. It leaves out
`RESP_FIXED_HEADER_ACCEPT_RANGES_BYTES`. -/
def FixedType.registered : FixedType → Option (Bytes × Bytes)
  | .connectionClose => some (str "Connection", str "close")
  | .connectionKeepalive => some (str "Connection", str "keep-alive")
  | .connectionUpgrage => some (str "Connection", str "upgrade")
  | .transferEncodingChunked => some (str "Transfer-Encoding", str "chunked")
  | .acceptRangesBytes => none

/-- The instance as it is registered; one that is not registered has an empty key and value. -/
def FixedType.instance (t : FixedType) : DataUnset Buffer :=
  ⟨.fixedHeader, t.registered.map Prod.fst, false, t.registered.map Prod.snd⟩

/-- The key of an instance is the registered one, and otherwise empty or generated. -/
def FixedType.HasKey (t : FixedType) (e : DataUnset Buffer) : Prop :=
  e.type = .fixedHeader ∧
    if t.registered.isSome then e.key = t.registered.map Prod.fst ∧ e.isIndexKey = false
    else e.key = none ∨ e.isIndexKey

/-- The instances of the fixed headers. -/
structure FixedHeaders where
  instances : FixedType → DataUnset Buffer
  hasKey : ∀ t : FixedType, t.HasKey (instances t)

variable {t : FixedType}

namespace FixedHeaders

/-- `http_response_fixed_header_register`. -/
def register : FixedHeaders where
  instances := FixedType.instance
  hasKey t := by cases t <;> simp [FixedType.HasKey, FixedType.instance, FixedType.registered]

/-- A write to the value of an instance. -/
def setValue (fixed : FixedHeaders) (t : FixedType) (value : Buffer) : FixedHeaders where
  instances := Function.update fixed.instances t { fixed.instances t with value := value }
  hasKey t' := by
    by_cases h : t' = t
    · subst h
      rw [Function.update_self]
      exact fixed.hasKey t'
    · rw [Function.update_of_ne h]
      exact fixed.hasKey t'

/-- `array_find_or_insert` gives a key to the instance. -/
def setIndexKey (fixed : FixedHeaders) (t : FixedType) (key : Bytes) (h : t.registered = none) :
    FixedHeaders where
  instances := Function.update fixed.instances t
    { fixed.instances t with key := some key, isIndexKey := true }
  hasKey t' := by
    by_cases ht : t' = t
    · subst ht
      rw [Function.update_self]
      exact ⟨(fixed.hasKey t').1, by simp [h]⟩
    · rw [Function.update_of_ne ht]
      exact fixed.hasKey t'

/-- An instance gets a new key only when it was never registered. -/
theorem registered_eq_none (fixed : FixedHeaders)
    (h : (fixed.instances t).key = none ∨ (fixed.instances t).isIndexKey) :
    t.registered = none := by
  by_contra hsome
  have hkey := (fixed.hasKey t).2
  rw [if_pos (Option.isSome_iff_ne_none.mpr hsome)] at hkey
  rcases h with h | h
  · rw [h] at hkey
    exact hsome (Option.map_eq_none_iff.mp hkey.1.symm)
  · exact absurd hkey.2 (by simp [h])

end FixedHeaders

/-! ## The array -/

/-- An element: a `data_string` of the connection, or a fixed header. -/
inductive HeaderRef
  | own (key : Buffer) (isIndexKey : Bool) (value : Buffer)
  | fixed (type : FixedType)
  deriving DecidableEq, Repr

/-- The element behind the reference. -/
def HeaderRef.get (fixed : FixedHeaders) : HeaderRef → DataUnset Buffer
  | .own key isIndexKey value => ⟨.response, key, isIndexKey, value⟩
  | .fixed t => fixed.instances t

/-- The array `response.headers` of a connection. `array_get_unused_element` looks for elements of
`TYPE_STRING`, of which it holds none, so that spare elements are left out. -/
structure HeaderArray where
  data : List HeaderRef
  sorted : List ℕ
  uniqueNdx : ℕ
  deriving DecidableEq, Repr

/-- The headers of a connection with the fixed headers of the server. -/
structure ResponseHeaders where
  fixed : FixedHeaders
  array : HeaderArray

namespace ResponseHeaders

/-- The elements in use. -/
def elements (h : ResponseHeaders) : List (DataUnset Buffer) :=
  h.array.data.map (HeaderRef.get h.fixed)

/-- The array as `array_get_index` reads it. -/
def view (h : ResponseHeaders) : DataArray Buffer :=
  ⟨h.elements.map some, h.array.sorted, h.array.data.length, h.array.uniqueNdx⟩

/-- `array_get_element_klen`. -/
def getElement (h : ResponseHeaders) (key : Bytes) : Option (DataUnset Buffer) :=
  arrayGetElementKlen h.view key

/-- A write to the value of the element at a position. -/
def setValueAt (h : ResponseHeaders) (ndx : ℕ) (value : Buffer) : ResponseHeaders :=
  match h.array.data[ndx]? with
  | some (.own key isIndexKey _) =>
    { h with array := { h.array with data := h.array.data.set ndx (.own key isIndexKey value) } }
  | some (.fixed t) => { h with fixed := h.fixed.setValue t value }
  | none => h

/-- The key that `array_find_or_insert` gives to an element without one of its own. -/
def generateKey (h : ResponseHeaders) : HeaderRef → HeaderRef × ResponseHeaders
  | .own key isIndexKey value =>
    if key = none ∨ isIndexKey then
      (.own (some (str (toString h.array.uniqueNdx))) true value,
        { h with array := { h.array with uniqueNdx := h.array.uniqueNdx + 1 } })
    else (.own key isIndexKey value, h)
  | .fixed t =>
    if hkey : (h.fixed.instances t).key = none ∨ (h.fixed.instances t).isIndexKey then
      (.fixed t,
        { fixed := h.fixed.setIndexKey t (str (toString h.array.uniqueNdx))
            (h.fixed.registered_eq_none hkey)
          array := { h.array with uniqueNdx := h.array.uniqueNdx + 1 } })
    else (.fixed t, h)

/-- The insertion at `pos` in `array_find_or_insert`. -/
def insertAt (h : ResponseHeaders) (entry : HeaderRef) (pos : ℕ) : ResponseHeaders :=
  { h with array := { h.array with
      data := h.array.data ++ [entry]
      sorted := h.array.sorted.take pos ++ h.array.data.length :: h.array.sorted.drop pos } }

end ResponseHeaders

/-- The value that `data_response_insert_dup` leaves in `dst`. When both are the same element the
value that is appended has the line break already. -/
def dataResponseInsertDup (dst : DataUnset Buffer) (src : Buffer) (isSame : Bool) : Buffer :=
  if dst.value ≠ none then
    let value := dst.value.string ++ [CR, LF] ++ dst.key.string ++ str ": "
    some (value ++ if isSame then value else src.string)
  else some src.string

namespace ResponseHeaders

/-- `array_insert_unique`; `none` when the assertion about the types fails. -/
def insertUnique (h : ResponseHeaders) (entry : HeaderRef) : Option ResponseHeaders :=
  let r := h.generateKey entry
  let ds := r.1.get r.2.fixed
  match arrayGetIndex r.2.view ds.key.string with
  | (none, pos) => some (r.2.insertAt r.1 pos)
  | (some ndx, _) =>
    match r.2.view.element ndx with
    | some old =>
      if old.type = ds.type then
        some (r.2.setValueAt ndx (dataResponseInsertDup old ds.value
          (old.type = .fixedHeader ∧ r.2.array.data[ndx]? = some r.1)))
      else none
    | none => none

/-- `array_reset`: no element is in use. -/
def reset (h : ResponseHeaders) : ResponseHeaders := { h with array := ⟨[], [], 0⟩ }

end ResponseHeaders

/-- `response_header_insert`. -/
def responseHeaderInsert (h : ResponseHeaders) (key value : Bytes) : Option ResponseHeaders :=
  h.insertUnique (.own (some key) false (some value))

/-- `response_header_overwrite`. -/
def responseHeaderOverwrite (h : ResponseHeaders) (key value : Bytes) : Option ResponseHeaders :=
  match (arrayGetIndex h.view key).1 with
  | some ndx => some (h.setValueAt ndx (some value))
  | none => responseHeaderInsert h key value

/-- `response_header_fixed_overwrite`. -/
def responseHeaderFixedOverwrite (h : ResponseHeaders) (headerType : FixedType) :
    Option ResponseHeaders :=
  h.insertUnique (.fixed headerType)

/-- The append of `response_header_append` to the element at a position. -/
def appendValueAt (h : ResponseHeaders) (ndx : ℕ) (value : Bytes) : ResponseHeaders :=
  let old : Buffer := (h.view.element ndx).bind DataUnset.value
  h.setValueAt ndx (some (old.string ++ str ", " ++ value))

/-- `response_header_append`. -/
def responseHeaderAppend (h : ResponseHeaders) (key value : Bytes) : Option ResponseHeaders :=
  match (arrayGetIndex h.view key).1 with
  | some ndx => some (appendValueAt h ndx value)
  | none => responseHeaderInsert h key value

/-- `response_header_fixed_append`. -/
def responseHeaderFixedAppend (h : ResponseHeaders) (key value : Bytes)
    (headerType : FixedType) : Option ResponseHeaders :=
  match (arrayGetIndex h.view key).1 with
  | some ndx => some (appendValueAt h ndx value)
  | none => responseHeaderFixedOverwrite h headerType

/-! ## Lookups -/

namespace ResponseHeaders

variable {h h' : ResponseHeaders}

theorem element_view (h : ResponseHeaders) (i : ℕ) : h.view.element i = h.elements[i]? := by
  rw [DataArray.element, view, List.getElem?_map]
  cases h.elements[i]? <;> rfl

theorem getElem?_elements (h : ResponseHeaders) (i : ℕ) :
    h.elements[i]? = (h.array.data[i]?).map (HeaderRef.get h.fixed) := by
  rw [elements, List.getElem?_map]

theorem length_elements (h : ResponseHeaders) : h.elements.length = h.array.data.length := by
  rw [elements, List.length_map]

variable {e : DataUnset Buffer} {key value : Bytes} {entry : HeaderRef}

theorem mem_live_view : e ∈ h.view.live ↔ e ∈ h.elements := by
  rw [Indexed.mem_live]
  constructor
  · rintro ⟨i, -, he⟩
    rw [element_view] at he
    exact List.mem_of_getElem? he
  · intro he
    obtain ⟨i, hi⟩ := List.mem_iff_getElem?.mp he
    refine ⟨i, ?_, by rw [element_view, hi]⟩
    rw [show h.view.used = h.elements.length from h.length_elements.symm]
    exact (List.getElem?_eq_some_iff.mp hi).1

theorem getElement_eq_some_iff (hi : Indexed h.view) :
    h.getElement key = some e ↔ e ∈ h.elements ∧ CaseEq key e.key.string := by
  rw [getElement, hi.arrayGetElementKlen_eq_some_iff, mem_live_view]

theorem getElement_congr (hi : Indexed h.view) {name : Bytes} (hk : CaseEq key name) :
    h.getElement key = h.getElement name :=
  Option.ext fun e => by
    rw [getElement_eq_some_iff hi, getElement_eq_some_iff hi]
    exact and_congr_right fun _ => ⟨hk.symm.trans, hk.trans⟩

theorem getElement_eq_none_iff (hi : Indexed h.view) :
    h.getElement key = none ↔ ∀ e ∈ h.elements, ¬ CaseEq key e.key.string := by
  rw [Option.eq_none_iff_forall_ne_some]
  simp only [ne_eq, getElement_eq_some_iff hi, not_and]

/-- The position that `array_get_index` returns is that of the element found. -/
theorem arrayGetIndex_fst (hi : Indexed h.view) (key : Bytes) :
    (∃ ndx e, (arrayGetIndex h.view key).1 = some ndx ∧ h.elements[ndx]? = some e ∧
        h.getElement key = some e ∧ CaseEq key e.key.string) ∨
      ((arrayGetIndex h.view key).1 = none ∧ h.getElement key = none) := by
  rcases hi.arrayGetIndex_spec key with ⟨ndx, pos, hget, -, hlt, hkey⟩ | ⟨pos, hget, -⟩
  · obtain ⟨e, he, hk⟩ := hi.element_eq_some hlt
    refine .inl ⟨ndx, e, by rw [hget], by rwa [← element_view], ?_, hk ▸ hkey⟩
    rw [getElement, arrayGetElementKlen, hget, Option.bind_some, he]
  · exact .inr ⟨by rw [hget], by rw [getElement, arrayGetElementKlen, hget, Option.bind_none]⟩

theorem indexed_of_keys (hi : Indexed h.view) (hs : h'.array.sorted = h.array.sorted)
    (hk : h'.elements.map DataUnset.key = h.elements.map DataUnset.key) : Indexed h'.view := by
  have hlen : h'.elements.length = h.elements.length := by simpa using congrArg List.length hk
  have hused : h'.view.used = h.view.used := by
    change h'.array.data.length = h.array.data.length
    rw [← length_elements, ← length_elements, hlen]
  have hkey : ∀ i : ℕ, (h'.elements[i]?).map DataUnset.key = (h.elements[i]?).map DataUnset.key := by
    intro i
    rw [← List.getElem?_map, ← List.getElem?_map, hk]
  refine hi.congr hs hused (fun i _ => ?_) fun i hlt => ?_
  · have hat : ∀ (o : Option (DataUnset Buffer)),
        (o.map fun e => e.key.string).getD [] = ((o.map DataUnset.key).getD none).getD [] := by
      intro o
      cases o <;> rfl
    rw [DataArray.keyAt, DataArray.keyAt, element_view, element_view, hat, hat, hkey i]
  · rw [element_view, Option.isSome_iff_ne_none, ne_eq, List.getElem?_eq_none_iff, hlen,
      length_elements]
    exact not_le_of_gt hlt

theorem eq_of_key (hi : Indexed h.view) {i j : ℕ} {e' : DataUnset Buffer}
    (hei : h.elements[i]? = some e) (hej : h.elements[j]? = some e')
    (hk : CaseEq e.key.string e'.key.string) : i = j := by
  have hlt : ∀ (i : ℕ) (e : DataUnset Buffer), h.elements[i]? = some e → i < h.view.used := by
    intro i e hh
    rw [show h.view.used = h.elements.length from h.length_elements.symm]
    exact (List.getElem?_eq_some_iff.mp hh).1
  refine hi.eq_of_caseEq (hlt i e hei) (hlt j e' hej) ?_
  rwa [DataArray.keyAt, DataArray.keyAt, element_view, element_view, hei, hej]

theorem elements_setValueAt (hi : Indexed h.view) {ndx : ℕ} (he : h.elements[ndx]? = some e)
    (value : Buffer) :
    (h.setValueAt ndx value).elements = h.elements.set ndx { e with value := value } := by
  rw [getElem?_elements] at he
  obtain ⟨ref, href, rfl⟩ := Option.map_eq_some_iff.mp he
  unfold setValueAt
  rw [href]
  cases ref with
  | own key isIndexKey v =>
    change (h.array.data.set ndx _).map _ = _
    rw [List.map_set]
    rfl
  | fixed t =>
    refine List.ext_getElem? fun i => ?_
    rw [getElem?_elements, List.getElem?_set, getElem?_elements]
    change (h.array.data[i]?).map (HeaderRef.get (h.fixed.setValue t value)) = _
    by_cases hni : ndx = i
    · subst hni
      rw [if_pos rfl, if_pos (by rw [length_elements]; exact (List.getElem?_eq_some_iff.mp href).1),
        href]
      simp [HeaderRef.get, FixedHeaders.setValue]
    · rw [if_neg hni]
      rcases href' : h.array.data[i]? with _ | ref'
      · rfl
      · cases ref' with
        | own key isIndexKey v => rfl
        | fixed t' =>
          have he₁ : h.elements[ndx]? = some (h.fixed.instances t) := by
            rw [getElem?_elements, href]
            rfl
          have hne : t' ≠ t := fun ht => by
            have he₂ : h.elements[i]? = some (h.fixed.instances t) := by
              rw [getElem?_elements, href', ht]
              rfl
            exact hni (eq_of_key hi he₁ he₂ (.refl _))
          simp [HeaderRef.get, FixedHeaders.setValue, Function.update_of_ne hne]

theorem sorted_setValueAt (h : ResponseHeaders) (ndx : ℕ) (value : Buffer) :
    (h.setValueAt ndx value).array.sorted = h.array.sorted := by
  unfold setValueAt
  split <;> rfl

theorem uniqueNdx_setValueAt (h : ResponseHeaders) (ndx : ℕ) (value : Buffer) :
    (h.setValueAt ndx value).array.uniqueNdx = h.array.uniqueNdx := by
  unfold setValueAt
  split <;> rfl

/-- What a header operation leaves under the other keys, and the order of the array. -/
structure ChangedAt (key : Bytes) (h h' : ResponseHeaders) : Prop where
  indexed : Indexed h'.view
  others : ∀ name, ¬ CaseEq name key → h'.getElement name = h.getElement name
  uniqueNdx : h'.array.uniqueNdx = h.array.uniqueNdx

theorem setValueAt_spec (hi : Indexed h.view) {ndx : ℕ} (he : h.elements[ndx]? = some e)
    (hkey : CaseEq key e.key.string) (value : Buffer) :
    ChangedAt key h (h.setValueAt ndx value) ∧
      (h.setValueAt ndx value).getElement key = some { e with value := value } := by
  have helems := elements_setValueAt hi he value
  have hlt := (List.getElem?_eq_some_iff.mp he).1
  have hi' : Indexed (h.setValueAt ndx value).view := by
    refine indexed_of_keys hi (h.sorted_setValueAt ndx value) ?_
    rw [helems, List.map_set]
    refine List.ext_getElem? fun i => ?_
    rw [List.getElem?_set]
    split_ifs with hni hlen
    · subst hni
      rw [List.getElem?_map, he]
      rfl
    · rw [List.getElem?_eq_none (by omega)]
    · rfl
  refine ⟨⟨hi', fun name hne => ?_, h.uniqueNdx_setValueAt ndx value⟩, ?_⟩
  · refine Option.ext fun e' => ?_
    rw [getElement_eq_some_iff hi', getElement_eq_some_iff hi, helems]
    constructor
    · rintro ⟨hmem, hk⟩
      rcases List.mem_or_eq_of_mem_set hmem with hmem | rfl
      · exact ⟨hmem, hk⟩
      · exact absurd (hk.trans hkey.symm) hne
    · rintro ⟨hmem, hk⟩
      refine ⟨?_, hk⟩
      obtain ⟨i, hei⟩ := List.mem_iff_getElem?.mp hmem
      refine List.mem_iff_getElem?.mpr ⟨i, ?_⟩
      rw [List.getElem?_set, if_neg, hei]
      rintro rfl
      rw [he] at hei
      cases hei
      exact hne (hk.trans hkey.symm)
  · rw [getElement_eq_some_iff hi', helems]
    exact ⟨List.mem_of_getElem? (i := ndx) (by rw [List.getElem?_set, if_pos rfl, if_pos hlt]), hkey⟩

/-! ## Inserting -/

/-- An entry that keeps its key. -/
def Settled (fixed : FixedHeaders) (entry : HeaderRef) : Prop :=
  ¬ ((entry.get fixed).key = none ∨ (entry.get fixed).isIndexKey)

theorem generateKey_of_settled (hs : Settled h.fixed entry) : h.generateKey entry = (entry, h) := by
  cases entry with
  | own key isIndexKey value => exact if_neg hs
  | fixed t => exact dif_neg hs

theorem settled_fixed (fixed : FixedHeaders) (ht : t.registered ≠ none) :
    Settled fixed (.fixed t) := fun h => ht (fixed.registered_eq_none h)

theorem elements_insertAt (h : ResponseHeaders) (entry : HeaderRef) (pos : ℕ) :
    (h.insertAt entry pos).elements = h.elements ++ [entry.get h.fixed] := by
  simp [insertAt, elements]

theorem indexed_insertAt (hi : Indexed h.view) {pos : ℕ}
    (hplace : Place (fun i => bufferCaselessCompare (entry.get h.fixed).key.string
      (h.view.keyAt i)) h.view.sorted pos) : Indexed (h.insertAt entry pos).view := by
  have hused : (h.insertAt entry pos).view.used = h.view.used + 1 := by
    simp [insertAt, view]
  refine (hi.arrayInsertAt_indexed hplace).congr_element rfl hused fun i hlt => ?_
  have hlt' : i < h.view.used + 1 := hlt
  have hlen : h.view.used = h.elements.length := h.length_elements.symm
  rw [hi.element_arrayInsertAt _ pos i hlt', element_view, element_view, elements_insertAt]
  split_ifs with hiu
  · rw [hiu, hlen, List.getElem?_append_right le_rfl]
    simp
  · rw [List.getElem?_append_left (by omega)]

/-- The new element is the one that a lookup of its key finds. -/
theorem insertAt_spec (hi : Indexed h.view) {pos : ℕ}
    (hplace : Place (fun i => bufferCaselessCompare (entry.get h.fixed).key.string
      (h.view.keyAt i)) h.view.sorted pos) :
    ChangedAt (entry.get h.fixed).key.string h (h.insertAt entry pos) ∧
      (h.insertAt entry pos).getElement (entry.get h.fixed).key.string =
        some (entry.get h.fixed) := by
  have hi' := indexed_insertAt hi hplace
  refine ⟨⟨hi', fun name hne => Option.ext fun e' => ?_, rfl⟩, ?_⟩
  · rw [getElement_eq_some_iff hi', getElement_eq_some_iff hi, elements_insertAt, List.mem_append,
      List.mem_singleton]
    refine ⟨fun ⟨hmem, hk⟩ => ⟨?_, hk⟩, fun ⟨hmem, hk⟩ => ⟨.inl hmem, hk⟩⟩
    rcases hmem with hmem | rfl
    · exact hmem
    · exact absurd hk hne
  · rw [getElement_eq_some_iff hi', elements_insertAt]
    exact ⟨List.mem_append_right _ (List.mem_singleton_self _), .refl _⟩

/-- `array_insert_unique` behind the choice of a key: it adds the element when there is none with
its key, merges it into one of its type, and fails on one of the other type. -/
theorem insertUnique_generated {h₁ : ResponseHeaders} (hi : Indexed h₁.view)
    (hgen : h.generateKey entry = (entry, h₁)) :
    match h₁.getElement (entry.get h₁.fixed).key.string with
    | none => ∃ h', h.insertUnique entry = some h' ∧
        ChangedAt (entry.get h₁.fixed).key.string h₁ h' ∧
        h'.getElement (entry.get h₁.fixed).key.string = some (entry.get h₁.fixed)
    | some old =>
      if old.type = (entry.get h₁.fixed).type then
        ∃ h' v, h.insertUnique entry = some h' ∧
          ChangedAt (entry.get h₁.fixed).key.string h₁ h' ∧
          h'.getElement (entry.get h₁.fixed).key.string = some { old with value := v }
      else h.insertUnique entry = none := by
  rw [insertUnique]
  simp only [hgen]
  rcases hi.arrayGetIndex_spec (entry.get h₁.fixed).key.string with
    ⟨ndx, pos, hget, -, hlt, hkey⟩ | ⟨pos, hget, hplace⟩
  · obtain ⟨old, hold, hk⟩ := hi.element_eq_some hlt
    have hfound : h₁.getElement (entry.get h₁.fixed).key.string = some old := by
      rw [getElement, arrayGetElementKlen, hget, Option.bind_some, hold]
    have helem : h₁.elements[ndx]? = some old := by rw [← element_view, hold]
    rw [hfound, hget]
    dsimp only
    rw [hold]
    dsimp only
    split_ifs with htype
    · exact ⟨_, _, rfl, setValueAt_spec hi helem (hk ▸ hkey) _⟩
    · rfl
  · rw [getElement, arrayGetElementKlen, hget, Option.bind_none]
    exact ⟨_, rfl, insertAt_spec hi hplace⟩

theorem insertUnique_spec (hi : Indexed h.view) {entry : HeaderRef} (hs : Settled h.fixed entry) :
    match h.getElement (entry.get h.fixed).key.string with
    | none => ∃ h', h.insertUnique entry = some h' ∧
        ChangedAt (entry.get h.fixed).key.string h h' ∧
        h'.getElement (entry.get h.fixed).key.string = some (entry.get h.fixed)
    | some old =>
      if old.type = (entry.get h.fixed).type then
        ∃ h' v, h.insertUnique entry = some h' ∧ ChangedAt (entry.get h.fixed).key.string h h' ∧
          h'.getElement (entry.get h.fixed).key.string = some { old with value := v }
      else h.insertUnique entry = none :=
  insertUnique_generated hi (generateKey_of_settled hs)

/-- `response_header_insert` does not fail where no fixed header has the name. -/
theorem insert_changedAt (hi : Indexed h.view) (value : Bytes)
    (hown : ∀ e, h.getElement key = some e → e.type = .response) :
    ∃ h', responseHeaderInsert h key value = some h' ∧ ChangedAt key h h' := by
  have hspec := @insertUnique_spec h hi (.own (some key) false (some value))
    (by simp [Settled, HeaderRef.get])
  change (match h.getElement key with | none => _ | some old => _) at hspec
  rcases hfound : h.getElement key with _ | old
  · rw [hfound] at hspec
    obtain ⟨h', hins, hc, -⟩ := hspec
    exact ⟨h', hins, hc⟩
  · rw [hfound] at hspec
    obtain ⟨h', v, hins, hc, -⟩ := (if_pos (hown old hfound)).mp hspec
    exact ⟨h', hins, hc⟩

/-- `response_header_overwrite` never fails. -/
theorem overwrite_changedAt (hi : Indexed h.view) (key value : Bytes) :
    ∃ h', responseHeaderOverwrite h key value = some h' ∧ ChangedAt key h h' := by
  unfold responseHeaderOverwrite
  rcases arrayGetIndex_fst hi key with ⟨ndx, e, hget, helem, -, hk⟩ | ⟨hget, hnone⟩
  · rw [hget]
    exact ⟨_, rfl, (setValueAt_spec hi helem hk _).1⟩
  · rw [hget]
    exact insert_changedAt hi value fun e he => by rw [hnone] at he; cases he

theorem ChangedAt.isSome_getElement (hc : ChangedAt key h h') (hkey : (h'.getElement key).isSome)
    (name : Bytes) :
    (h'.getElement name).isSome = (decide (CaseEq name key) || (h.getElement name).isSome) := by
  by_cases hk : CaseEq name key
  · rw [getElement_congr hc.indexed hk, hkey]
    simp [hk]
  · rw [hc.others name hk]
    simp [hk]

/-! ## Headers of the connection only -/

/-- A header of the connection with a key of its own. -/
def IsOwn (e : DataUnset Buffer) : Prop := e.type = .response ∧ e.key ≠ none

/-- An array in order whose elements are the connection's own, none with a generated key. -/
structure OwnHeaders (h : ResponseHeaders) : Prop where
  indexed : Indexed h.view
  own : ∀ e ∈ h.elements, IsOwn e
  uniqueNdx : h.array.uniqueNdx = 0

theorem ownHeaders_reset (h : ResponseHeaders) : OwnHeaders h.reset :=
  ⟨⟨.refl _, .nil, fun i hi => absurd hi (Nat.not_lt_zero i)⟩, fun e he => (by cases he), rfl⟩

theorem getElement_reset (h : ResponseHeaders) (key : Bytes) : h.reset.getElement key = none := by
  rw [getElement_eq_none_iff (ownHeaders_reset h).indexed]
  exact fun e he => by cases he

theorem OwnHeaders.changed (ho : OwnHeaders h) (hc : ChangedAt key h h')
    (he : h'.getElement key = some e) (hown : IsOwn e) :
    OwnHeaders h' where
  indexed := hc.indexed
  uniqueNdx := hc.uniqueNdx.trans ho.uniqueNdx
  own e' hmem := by
    have hfound : h'.getElement e'.key.string = some e' :=
      (getElement_eq_some_iff hc.indexed).mpr ⟨hmem, .refl _⟩
    by_cases hk : CaseEq e'.key.string key
    · rw [getElement_congr hc.indexed hk, he] at hfound
      cases hfound
      exact hown
    · rw [hc.others _ hk] at hfound
      exact ho.own e' ((getElement_eq_some_iff ho.indexed).mp hfound).1

/-- `response_header_insert` cannot fail on headers of the connection. -/
theorem OwnHeaders.insert (ho : OwnHeaders h) (key value : Bytes) :
    ∃ h', responseHeaderInsert h key value = some h' ∧ OwnHeaders h' ∧ ChangedAt key h h' ∧
      (h'.getElement key).isSome ∧
      (h.getElement key = none → ∃ e, h'.getElement key = some e ∧ e.value = some value) := by
  have hs : Settled h.fixed (.own (some key) false (some value)) := by
    simp [Settled, HeaderRef.get]
  have hspec := insertUnique_spec ho.indexed hs
  change (match h.getElement key with | none => _ | some old => _) at hspec
  rcases hfound : h.getElement key with _ | old
  · rw [hfound] at hspec
    obtain ⟨h', hins, hc, he⟩ := hspec
    exact ⟨h', hins, ho.changed hc he ⟨rfl, by simp [HeaderRef.get]⟩, hc,
      Option.isSome_iff_exists.mpr ⟨_, he⟩, fun _ => ⟨_, he, rfl⟩⟩
  · rw [hfound] at hspec
    have hold := ho.own old ((getElement_eq_some_iff ho.indexed).mp hfound).1
    obtain ⟨h', v, hins, hc, he⟩ := (if_pos hold.1).mp hspec
    exact ⟨h', hins, ho.changed hc he hold, hc, Option.isSome_iff_exists.mpr ⟨_, he⟩,
      fun hnone => by simp at hnone⟩

/-- `response_header_overwrite` on headers of the connection. -/
theorem OwnHeaders.overwrite (ho : OwnHeaders h) (key value : Bytes) :
    ∃ h' e, responseHeaderOverwrite h key value = some h' ∧ OwnHeaders h' ∧ ChangedAt key h h' ∧
      h'.getElement key = some e ∧ e.value = some value := by
  unfold responseHeaderOverwrite
  rcases arrayGetIndex_fst ho.indexed key with ⟨ndx, old, hget, helem, hfound, hk⟩ | ⟨hget, hnone⟩
  · rw [hget]
    obtain ⟨hc, he⟩ := setValueAt_spec ho.indexed helem hk (some value)
    have hold := ho.own old ((getElement_eq_some_iff ho.indexed).mp hfound).1
    exact ⟨_, _, rfl, ho.changed hc he hold, hc, he, rfl⟩
  · rw [hget]
    obtain ⟨h', hins, ho', hc, -, hv⟩ := ho.insert key value
    obtain ⟨e, he, hval⟩ := hv hnone
    exact ⟨h', e, hins, ho', hc, he, hval⟩

/-- `response_header_fixed_overwrite` of a registered header. -/
theorem fixedOverwrite_spec (hi : Indexed h.view) (ht : t.registered = some (key, value)) :
    match h.getElement key with
    | none => ∃ h', responseHeaderFixedOverwrite h t = some h' ∧ ChangedAt key h h' ∧
        h'.getElement key = some (h.fixed.instances t)
    | some old =>
      if old.type = .fixedHeader then
        ∃ h' v, responseHeaderFixedOverwrite h t = some h' ∧ ChangedAt key h h' ∧
          h'.getElement key = some { old with value := v }
      else responseHeaderFixedOverwrite h t = none := by
  have hs : Settled h.fixed (.fixed t) := settled_fixed h.fixed (by simp [ht])
  have hkey : (h.fixed.instances t).key.string = key := by
    have hk := (h.fixed.hasKey t).2
    rw [if_pos (by simp [ht]), ht] at hk
    rw [hk.1]
    rfl
  have hspec := insertUnique_spec hi hs
  change (match h.getElement (h.fixed.instances t).key.string with | none => _ | some old => _)
    at hspec
  rw [show (HeaderRef.fixed t).get h.fixed = h.fixed.instances t from rfl, hkey,
    (h.fixed.hasKey t).1] at hspec
  exact hspec

/-- A registered header that was inserted changes its own name only. -/
theorem changedAt_fixedOverwrite (hi : Indexed h.view) (ht : t.registered = some (key, value))
    (hins : responseHeaderFixedOverwrite h t = some h') : ChangedAt key h h' := by
  have hspec := fixedOverwrite_spec hi ht
  rcases hfound : h.getElement key with _ | old <;> rw [hfound] at hspec
  · obtain ⟨h₁, hins', hc, -⟩ := hspec
    rw [hins] at hins'
    cases hins'
    exact hc
  · dsimp only at hspec
    split_ifs at hspec
    · obtain ⟨h₁, v, hins', hc, -⟩ := hspec
      rw [hins] at hins'
      cases hins'
      exact hc
    · rw [hins] at hspec
      cases hspec

/-- The assertion fails on a header of the connection with the same name. -/
theorem fixedOverwrite_eq_none_iff (hi : Indexed h.view) (ht : t.registered = some (key, value)) :
    responseHeaderFixedOverwrite h t = none ↔
      ∃ old, h.getElement key = some old ∧ old.type ≠ .fixedHeader := by
  have hspec := fixedOverwrite_spec hi ht
  rcases hfound : h.getElement key with _ | old <;> rw [hfound] at hspec
  · obtain ⟨h₁, hins, -⟩ := hspec
    simp [hins]
  · dsimp only at hspec
    split_ifs at hspec with htype
    · obtain ⟨h₁, v, hins, -⟩ := hspec
      simp [hins, htype]
    · simp [hspec, htype]

end ResponseHeaders

end Lighttpd
