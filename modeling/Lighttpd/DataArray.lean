import Lighttpd.Buffer
import Lighttpd.Lib.Bisect
import Mathlib.Data.List.Lex

/-!
# Arrays of named elements

The `array` of `array.c`: the elements in `data`, in use up to `used` and spare behind, and
their positions in `sorted`, in the order of the keys. Two keys that differ in letter case only
are the same key, so that the order is that of `foldKey`.

Elements are values here. The type of an element says what its methods do to it, so that these are
a parameter (`ElementMethods`).
-/

namespace Lighttpd

open CString Bisect

/-- `buffer_caseless_compare`. -/
def bufferCaselessCompare : Bytes → Bytes → ℤ
  | [], [] => 0
  | [], _ :: _ => -1
  | _ :: _, [] => 1
  | a :: as, b :: bs =>
    if a = b then bufferCaselessCompare as bs
    else if toLower a = toLower b then bufferCaselessCompare as bs
    else (toLower a).toNat - (toLower b).toNat

/-- A key in lower case, as numbers. -/
def foldKey (k : Bytes) : List ℕ := k.map fun c => (toLower c).toNat

variable {a b : Bytes}

theorem foldKey_eq_iff : foldKey a = foldKey b ↔ CaseEq a b := by
  have h : ∀ k, foldKey k = (k.map toLower).map UInt8.toNat := fun k => by simp [foldKey]
  rw [h, h, List.map_inj_right fun _ _ hc => UInt8.toNat_inj.mp hc]
  rfl

theorem bufferCaselessCompare_spec :
    ∀ a b : Bytes, (bufferCaselessCompare a b = 0 ∧ foldKey a = foldKey b) ∨
      (bufferCaselessCompare a b < 0 ∧ foldKey a < foldKey b) ∨
      (0 < bufferCaselessCompare a b ∧ foldKey b < foldKey a)
  | [], [] => .inl ⟨rfl, rfl⟩
  | [], b :: bs => .inr (.inl ⟨by simp [bufferCaselessCompare], by simp [foldKey]⟩)
  | a :: as, [] => .inr (.inr ⟨by simp [bufferCaselessCompare], by simp [foldKey]⟩)
  | a :: as, b :: bs => by
    have ih := bufferCaselessCompare_spec as bs
    have hlower : ¬ (toLower a = toLower b) → (toLower a).toNat ≠ (toLower b).toNat :=
      fun h h' => h (UInt8.toNat_inj.mp h')
    rw [bufferCaselessCompare]
    simp only [foldKey, List.map_cons, List.cons_lt_cons_iff, List.cons.injEq] at ih ⊢
    split_ifs with heq hcase
    · subst heq
      simpa using ih
    · simpa [hcase] using ih
    · have := hlower hcase
      omega

theorem bufferCaselessCompare_lt_zero : bufferCaselessCompare a b < 0 ↔ foldKey a < foldKey b := by
  rcases bufferCaselessCompare_spec a b with ⟨h, hk⟩ | ⟨h, hk⟩ | ⟨h, hk⟩
  · simp [h, hk]
  · simp [h, hk]
  · simp only [not_lt_of_gt h, not_lt_of_gt hk]

theorem bufferCaselessCompare_pos : 0 < bufferCaselessCompare a b ↔ foldKey b < foldKey a := by
  rcases bufferCaselessCompare_spec a b with ⟨h, hk⟩ | ⟨h, hk⟩ | ⟨h, hk⟩
  · simp [h, hk]
  · simp only [not_lt_of_gt h, not_lt_of_gt hk]
  · simp [h, hk]

theorem bufferCaselessCompare_eq_zero : bufferCaselessCompare a b = 0 ↔ CaseEq a b := by
  rw [← foldKey_eq_iff]
  rcases bufferCaselessCompare_spec a b with ⟨h, hk⟩ | ⟨h, hk⟩ | ⟨h, hk⟩
  · simp [h, hk]
  · simp [h.ne, hk.ne]
  · simp [h.ne', hk.ne']

/-- `data_type_t`. -/
inductive DataType
  | unset | string | response | fixedHeader | auth | array | integer | config
  deriving DecidableEq, Repr

/-- An element with a value of one of the types. -/
structure DataUnset (V : Type*) where
  type : DataType
  key : Buffer
  isIndexKey : Bool
  value : V
  deriving DecidableEq, Repr

/-- What the methods of the types do: `reset` changes a spare element, `insert_dup` gives the value
that the first element has after the second was merged into it, and `init` is the value of a new
element. -/
structure ElementMethods (V : Type*) where
  reset : DataUnset V → DataUnset V
  insertDup : DataUnset V → DataUnset V → V
  init : V

/-- An `array`. What `sorted` has behind `used` entries is never read and left out. -/
structure DataArray (V : Type*) where
  data : List (Option (DataUnset V))
  sorted : List ℕ
  used : ℕ
  uniqueNdx : ℕ
  deriving DecidableEq, Repr

namespace DataArray

variable {V : Type*}

/-- The element at a position. -/
def element (a : DataArray V) (i : ℕ) : Option (DataUnset V) := (a.data[i]?).join

/-- The key of the element at a position. -/
def keyAt (a : DataArray V) (i : ℕ) : Bytes := ((a.element i).map fun e => e.key.string).getD []

/-- The elements in use. -/
def live (a : DataArray V) : List (DataUnset V) := (List.range a.used).filterMap a.element

end DataArray

variable {V : Type*} (m : ElementMethods V)

/-! ## Operations -/

/-- `array_init`. -/
def arrayInit : DataArray V := ⟨[], [], 0, 0⟩

/-- `array_get_index`: the position in `data`, if the key was found, and the one in `sorted`. -/
def arrayGetIndex (a : DataArray V) (key : Bytes) : Option ℕ × ℕ :=
  let r := bisect (fun i => bufferCaselessCompare key (a.keyAt i)) a.sorted a.used 0 a.used
  (if r.1 then a.sorted[r.2]? else none, r.2)

/-- `array_get_element_klen`. -/
def arrayGetElementKlen (a : DataArray V) (key : Bytes) : Option (DataUnset V) :=
  (arrayGetIndex a key).1.bind a.element

/-- `array_reset`. -/
def arrayReset (a : DataArray V) : DataArray V :=
  { data := (a.data.take a.used).map (Option.map m.reset) ++ a.data.drop a.used
    sorted := []
    used := 0
    uniqueNdx := 0 }

/-- The end of `array_extract_element_klen`: `entry` is at `ndx` in `data` and at `pos` in
`sorted`, and the last element, which is at `lastPos`, takes its place. -/
def arrayRemoveAt (a : DataArray V) (ndx pos lastPos : ℕ) : DataArray V :=
  { a with
    data := (a.data.set ndx (a.element (a.used - 1))).set (a.used - 1) none
    sorted := (a.sorted.set lastPos ndx).eraseIdx pos
    used := a.used - 1 }

/-- `array_extract_element_klen`: the element and the array, or `none` when the assertion about the
last element fails. -/
def arrayExtractElementKlen (a : DataArray V) (key : Bytes) :
    Option (Option (DataUnset V) × DataArray V) :=
  match arrayGetIndex a key with
  | (none, _) => some (none, a)
  | (some ndx, pos) =>
    if ndx = a.used - 1 then
      some (a.element ndx, { a with
        data := a.data.set ndx none
        sorted := a.sorted.eraseIdx pos
        used := a.used - 1 })
    else
      match arrayGetIndex a (a.keyAt (a.used - 1)) with
      | (last, lastPos) =>
        if last = some (a.used - 1) then some (a.element ndx, arrayRemoveAt a ndx pos lastPos)
        else none

/-- `array_get_unused_element`: the first spare element of a type, out of the array. -/
def arrayGetUnusedElement (a : DataArray V) (t : DataType) : Option (DataUnset V) × DataArray V :=
  match (List.range' a.used (a.data.length - a.used)).find? fun i =>
      (a.element i).any fun e => e.type = t with
  | some i =>
    (a.element i, { a with data := (a.data.set i (a.element a.used)).set a.used none })
  | none => (none, a)

/-- The key that `array_find_or_insert` gives to an element without one of its own. -/
def generateKey (a : DataArray V) (entry : DataUnset V) : DataUnset V × DataArray V :=
  if entry.key = none ∨ entry.isIndexKey then
    ({ entry with key := some (str (toString a.uniqueNdx)), isIndexKey := true },
      { a with uniqueNdx := a.uniqueNdx + 1 })
  else (entry, a)

/-- The insertion at `pos` in `array_find_or_insert`. -/
def arrayInsertAt (a : DataArray V) (entry : DataUnset V) (pos : ℕ) : DataArray V :=
  let data := if a.data.length = a.used then a.data ++ List.replicate 16 none else a.data
  { a with
    data := data.set a.used (some entry)
    sorted := a.sorted.take pos ++ a.used :: a.sorted.drop pos
    used := a.used + 1 }

/-- `array_find_or_insert`: the entry with its key, the position of the element that has this key
already, and the array. -/
def arrayFindOrInsert (a : DataArray V) (entry : DataUnset V) :
    DataUnset V × Option ℕ × DataArray V :=
  let r := generateKey a entry
  match arrayGetIndex r.2 r.1.key.string with
  | (some ndx, _) => (r.1, some ndx, r.2)
  | (none, pos) => (r.1, none, arrayInsertAt r.2 r.1 pos)

/-- `array_replace`. -/
def arrayReplace (a : DataArray V) (entry : DataUnset V) : DataArray V :=
  match arrayFindOrInsert a entry with
  | (_, none, a) => a
  | (entry, some ndx, a) => { a with data := a.data.set ndx (some entry) }

/-- `insert_dup` on the element at `ndx`, when it has the type of the entry. -/
def insertDupAt (a : DataArray V) (ndx : ℕ) (entry : DataUnset V) : Option (DataArray V) :=
  match a.element ndx with
  | some old =>
    if old.type = entry.type then
      some { a with data := a.data.set ndx (some { old with value := m.insertDup old entry }) }
    else none
  | none => none

/-- `array_insert_unique`; `none` when the assertion about the types fails. -/
def arrayInsertUniqueElement (a : DataArray V) (entry : DataUnset V) : Option (DataArray V) :=
  match arrayFindOrInsert a entry with
  | (_, none, a) => some a
  | (entry, some ndx, a) => insertDupAt m a ndx entry

/-- `array_set_key_value`. -/
def arraySetKeyValue (a : DataArray V) (key : Bytes) (value : V) : Option (DataArray V) :=
  match (arrayGetIndex a key).1 with
  | some ndx =>
    some { a with data := a.data.set ndx ((a.element ndx).map fun e => { e with value := value }) }
  | none =>
    let r := arrayGetUnusedElement a .string
    let ds := r.1.getD ⟨.string, none, false, m.init⟩
    arrayInsertUniqueElement m r.2 { ds with key := some key, value := value }

/-- The operations, with the entries that are given to them. -/
inductive ArrayOp (V : Type*)
  | insertUnique (entry : DataUnset V)
  | replace (entry : DataUnset V)
  | setKeyValue (key : Bytes) (value : V)
  | extract (key : Bytes)
  | getUnused (type : DataType)
  | reset

/-- The array after an operation; `none` when an assertion fails. -/
def ArrayOp.apply (a : DataArray V) : ArrayOp V → Option (DataArray V)
  | .insertUnique entry => arrayInsertUniqueElement m a entry
  | .replace entry => some (arrayReplace a entry)
  | .setKeyValue key value => arraySetKeyValue m a key value
  | .extract key => (arrayExtractElementKlen a key).map Prod.snd
  | .getUnused type => some (arrayGetUnusedElement a type).2
  | .reset => some (arrayReset m a)

/-- The array after a sequence of operations. -/
def arrayRun (a : DataArray V) (ops : List (ArrayOp V)) : Option (DataArray V) :=
  ops.foldlM (ArrayOp.apply m) a

end Lighttpd
