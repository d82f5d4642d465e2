import Lighttpd.Alias
import Lighttpd.DataArrayKeys

/-!
# The content type of a name

`stat_cache_mimetype_by_ext` looks through a short table for the first key that the name ends with.
In a table of 16 entries or more it looks up the extensions of the name, the longest first. An entry
that has nothing to do with a name changes the type of the name when it makes the table long, unless
the two ways agree on the table (`statCacheMimetypeByExt_added_iff`).
-/

namespace Lighttpd

open CString

/-- `.` -/
abbrev DOT : UInt8 := 46

/-! ## The function -/

/-- The test for a key at the end of the name. -/
def suffixMatches (name : Bytes) (ds : DataUnset Buffer) : Bool :=
  let klen := ds.key.string.length
  klen ≤ name.length && strncmpEq true (name.drop (name.length - klen)) ds.key.string klen

/-- `s` goes back from an offset to the start of the name or a slash. -/
def basenameStart (name : Bytes) : ℕ → ℕ
  | 0 => 0
  | s + 1 => if name.getD (s + 1) 0 = slashChar then s + 1 else basenameStart name s

/-- The bytes from `s` on once `s` is at the last component of the name. -/
def mimetypeBasename (name : Bytes) : Bytes :=
  if name.length = 0 then name
  else
    let s := basenameStart name (name.length - 1)
    name.drop (if name.getD s 0 = slashChar then s + 1 else s)

/-- `array_get_element_klen(con->conf.mimetypes, s, end - s)`, and its value. -/
def mimetypeGet (a : DataArray Buffer) (key : Bytes) : Option Buffer :=
  (arrayGetElementKlen a key).map fun ds => ds.value

/-- The loop over the extensions, with the bytes from `s` on, in `fuel` turns at most. -/
def mimetypeExtLoop (a : DataArray Buffer) : ℕ → Bytes → Option Buffer
  | 0, _ => none
  | fuel + 1, s =>
    match s.tail.dropWhile (· ≠ DOT) with
    | [] => none
    | dot :: rest =>
      match mimetypeGet a (dot :: rest) with
      | some value => some value
      | none =>
        match rest with
        | [] => none
        | c :: _ =>
          if c = DOT then mimetypeExtLoop a fuel (dot :: rest)
          else
            match mimetypeGet a rest with
            | some value => some value
            | none => mimetypeExtLoop a fuel rest

/-- `stat_cache_mimetype_by_ext` -/
def statCacheMimetypeByExt (a : DataArray Buffer) (name : Bytes) : Option Buffer :=
  if a.used < 16 then (a.live.find? (suffixMatches name)).map fun ds => ds.value
  else
    let s := mimetypeBasename name
    match mimetypeGet a s with
    | some value => some value
    | none =>
      match mimetypeExtLoop a s.length s with
      | some value => some value
      | none => mimetypeGet a []

/-- The ends of a name behind a byte that begin with a dot or follow one. -/
def extensionsFrom : UInt8 → Bytes → List Bytes
  | _, [] => []
  | prev, c :: s => (if c = DOT ∨ prev = DOT then [c :: s] else []) ++ extensionsFrom c s

/-- What counts as an extension of a name, the longest first : the last component, each end of it
that begins with a dot or follows one behind its first byte, and the empty end. -/
def extensions (name : Bytes) : List Bytes :=
  mimetypeBasename name :: extensionsFrom 0 (mimetypeBasename name).tail ++ [[]]

/-- An element of the table has a key that is an end of the name, in any letter case. -/
def IsSuffixKey (name : Bytes) (ds : DataUnset Buffer) : Prop :=
  ∃ x, x <:+ name ∧ CaseEq x ds.key.string

/-- The first element in the order of the table whose key is an end of the name. -/
def FirstSuffix (a : DataArray Buffer) (name : Bytes) (ds : DataUnset Buffer) : Prop :=
  ∃ before behind, a.live = before ++ ds :: behind ∧ IsSuffixKey name ds ∧
    ∀ e ∈ before, ¬ IsSuffixKey name e

/-- The element whose key is an extension of the name, when no longer one is in the table. -/
def LongestExtension (a : DataArray Buffer) (name : Bytes) (ds : DataUnset Buffer) : Prop :=
  ds ∈ a.live ∧ ∃ longer x shorter, extensions name = longer ++ x :: shorter ∧
    CaseEq x ds.key.string ∧ ∀ y ∈ longer, ¬ a.HasKey y

theorem extensionsFrom_of_ne {prev : UInt8} (h : prev ≠ DOT) (s : Bytes) :
    extensionsFrom prev s =
      match s.dropWhile (· ≠ DOT) with
      | [] => []
      | dot :: rest => (dot :: rest) :: extensionsFrom DOT rest := by
  induction s generalizing prev with
  | nil => rfl
  | cons c s ih =>
    by_cases hc : c = DOT
    · subst hc
      simp [extensionsFrom]
    · rw [extensionsFrom, if_neg (by simp [hc, h]), List.nil_append, ih hc,
        List.dropWhile_cons_of_pos (by simpa using hc)]

variable {s name : Bytes} {ds : DataUnset Buffer}

theorem dropWhile_head {rest : Bytes} {dot : UInt8} (h : s.dropWhile (· ≠ DOT) = dot :: rest) :
    dot = DOT := by
  have hhead := List.head?_dropWhile_not (fun c => decide (c ≠ DOT)) s
  rw [h] at hhead
  simpa using hhead

theorem mimetypeExtLoop_eq (a : DataArray Buffer) {fuel : ℕ} (h : s.length ≤ fuel) :
    mimetypeExtLoop a fuel s = (extensionsFrom 0 s.tail).findSome? (mimetypeGet a) := by
  induction fuel generalizing s with
  | zero =>
    obtain rfl := List.length_eq_zero_iff.mp (Nat.le_zero.mp h)
    rfl
  | succ fuel ih =>
    have hle : (s.tail.dropWhile (· ≠ DOT)).length ≤ fuel := by
      have := (List.dropWhile_suffix (l := s.tail) (· ≠ DOT)).length_le
      rw [List.length_tail] at this
      omega
    rw [mimetypeExtLoop, extensionsFrom_of_ne (by decide)]
    cases hdrop : s.tail.dropWhile (· ≠ DOT) with
    | nil => rfl
    | cons dot rest =>
      obtain rfl := dropWhile_head hdrop
      rw [hdrop, List.length_cons] at hle
      dsimp only
      rw [List.findSome?_cons]
      cases mimetypeGet a (DOT :: rest) with
      | some value => rfl
      | none =>
        cases rest with
        | nil => rfl
        | cons c rest =>
          dsimp only
          by_cases hc : c = DOT
          · rw [if_pos hc, ih (by simpa using hle), List.tail_cons]
            subst hc
            rfl
          · rw [if_neg hc, extensionsFrom, if_pos (.inr rfl), List.singleton_append,
              List.findSome?_cons]
            cases mimetypeGet a (c :: rest) with
            | some value => rfl
            | none =>
              dsimp only
              rw [ih (by simp at hle ⊢; omega), List.tail_cons, extensionsFrom_of_ne hc,
                extensionsFrom_of_ne (by decide)]

/-- In a long table the extensions are looked up in their order. -/
theorem statCacheMimetypeByExt_long {a : DataArray Buffer} (h : ¬ a.used < 16) (name : Bytes) :
    statCacheMimetypeByExt a name = (extensions name).findSome? (mimetypeGet a) := by
  rw [statCacheMimetypeByExt, if_neg h, extensions, List.cons_append, List.findSome?_cons,
    List.findSome?_append]
  dsimp only
  rw [mimetypeExtLoop_eq a le_rfl]
  cases mimetypeGet a (mimetypeBasename name) with
  | some value => rfl
  | none =>
    dsimp only
    cases (extensionsFrom 0 (mimetypeBasename name).tail).findSome? (mimetypeGet a) with
    | some value => rfl
    | none =>
      simp only [List.findSome?_cons, List.findSome?_nil]
      cases mimetypeGet a [] <;> rfl

theorem suffix_of_mem_extensionsFrom {prev : UInt8} {x : Bytes} (h : x ∈ extensionsFrom prev s) :
    x <:+ s := by
  induction s generalizing prev with
  | nil => simp [extensionsFrom] at h
  | cons c s ih =>
    rw [extensionsFrom] at h
    rcases List.mem_append.mp h with h | h
    · split_ifs at h
      · rw [List.mem_singleton.mp h]
      · simp at h
    · exact (ih h).trans (List.suffix_cons c s)

theorem suffix_of_mem_extensions {x : Bytes} (h : x ∈ extensions name) : x <:+ name := by
  have hbase : mimetypeBasename name <:+ name := by
    unfold mimetypeBasename
    split_ifs
    · exact List.suffix_refl _
    · exact List.drop_suffix _ _
  rw [extensions, List.cons_append] at h
  rcases List.mem_cons.mp h with rfl | h
  · exact hbase
  · rcases List.mem_append.mp h with h | h
    · exact ((suffix_of_mem_extensionsFrom h).trans (List.tail_suffix _)).trans hbase
    · rw [List.mem_singleton.mp h]
      exact List.nil_suffix

/-! ## Both ways in terms of the table -/

/-- Keys as a configuration gives them : without a NUL. -/
def NulFree (ds : DataUnset Buffer) : Prop := 0 ∉ ds.key.string

theorem suffixMatches_iff (h : NulFree ds) : suffixMatches name ds ↔ IsSuffixKey name ds := by
  have hkey : (cstr ds.key.string).take ds.key.string.length = ds.key.string := by
    rw [cstr_of_notMem h, List.take_length]
  unfold suffixMatches
  simp only [Bool.and_eq_true, decide_eq_true_eq, strncmpEq, if_true, hkey]
  constructor
  · rintro ⟨hle, hcase⟩
    have hlen : (name.drop (name.length - ds.key.string.length)).length =
        ds.key.string.length := by
      rw [List.length_drop]
      omega
    have hfull := hcase.length_eq
    have hpre : List.IsPrefix (cstr (name.drop (name.length - ds.key.string.length)))
        (name.drop (name.length - ds.key.string.length)) := List.takeWhile_prefix _
    have hcstr := hpre.eq_of_length_le (by rw [List.length_take] at hfull; omega)
    rw [hcstr, List.take_of_length_le hlen.le] at hcase
    exact ⟨_, List.drop_suffix _ _, hcase⟩
  · rintro ⟨x, ⟨front, rfl⟩, hcase⟩
    have hlen := hcase.length_eq
    have hcstr : CaseEq (cstr x) ds.key.string := by
      have := hcase.cstr
      rwa [cstr_of_notMem h] at this
    rw [List.length_append, ← hlen, Nat.add_sub_cancel, List.drop_left,
      List.take_of_length_le (by rw [hcstr.length_eq, hlen])]
    exact ⟨by omega, hcstr⟩

variable {a b : DataArray Buffer}

theorem mimetypeGet_eq_some_iff (h : Indexed a) {key : Bytes} {value : Buffer} :
    mimetypeGet a key = some value ↔ ∃ e ∈ a.live, CaseEq key e.key.string ∧ e.value = value := by
  simp only [mimetypeGet, Option.map_eq_some_iff, h.arrayGetElementKlen_eq_some_iff, and_assoc]

theorem mimetypeGet_eq_none_iff (h : Indexed a) {key : Bytes} :
    mimetypeGet a key = none ↔ ¬ a.HasKey key := by
  rw [mimetypeGet, Option.map_eq_none_iff, ← Option.not_isSome_iff_eq_none,
    h.arrayGetElementKlen_isSome_iff]
  rfl

theorem findSome_extensions_eq_some_iff (h : Indexed a) {value : Buffer} :
    (extensions name).findSome? (mimetypeGet a) = some value ↔
      ∃ e, LongestExtension a name e ∧ e.value = value := by
  rw [List.findSome?_eq_some_iff]
  constructor
  · rintro ⟨longer, x, shorter, heq, hx, hlonger⟩
    obtain ⟨e, he, hkey, hvalue⟩ := (mimetypeGet_eq_some_iff h).mp hx
    exact ⟨e, ⟨he, longer, x, shorter, heq, hkey, fun y hy =>
      (mimetypeGet_eq_none_iff h).mp (hlonger y hy)⟩, hvalue⟩
  · rintro ⟨e, ⟨he, longer, x, shorter, heq, hkey, hlonger⟩, hvalue⟩
    exact ⟨longer, x, shorter, heq, (mimetypeGet_eq_some_iff h).mpr ⟨e, he, hkey, hvalue⟩,
      fun y hy => (mimetypeGet_eq_none_iff h).mpr (hlonger y hy)⟩

theorem find_suffixMatches_eq_some_iff (hnul : ∀ e ∈ a.live, NulFree e) :
    a.live.find? (suffixMatches name) = some ds ↔ FirstSuffix a name ds := by
  rw [List.find?_eq_some_iff_append]
  constructor
  · rintro ⟨hds, before, behind, heq, hbefore⟩
    refine ⟨before, behind, heq, (suffixMatches_iff (hnul ds (by simp [heq]))).mp hds,
      fun e he hsuf => ?_⟩
    have := hbefore e he
    rw [(suffixMatches_iff (hnul e (by simp [heq, he]))).mpr hsuf] at this
    exact absurd this (by decide)
  · rintro ⟨before, behind, heq, hds, hbefore⟩
    refine ⟨(suffixMatches_iff (hnul ds (by simp [heq]))).mpr hds, before, behind, heq,
      fun e he => ?_⟩
    have hnot := mt (suffixMatches_iff (hnul e (by simp [heq, he]))).mp (hbefore e he)
    simpa using hnot

theorem findSome_congr {α β : Type*} {f g : α → Option β} {l : List α} (h : ∀ x ∈ l, f x = g x) :
    l.findSome? f = l.findSome? g := by
  induction l with
  | nil => rfl
  | cons x l ih =>
    rw [List.findSome?_cons, List.findSome?_cons, h x List.mem_cons_self,
      ih fun y hy => h y (List.mem_cons_of_mem x hy)]

/-- Lookups of extensions do not find an entry whose key is no end of the name. -/
theorem findSome_extensions_added (ha : Indexed a) (hb : Indexed b) {entry : DataUnset Buffer}
    (hlive : b.live = a.live ++ [entry]) (hnot : ¬ IsSuffixKey name entry) :
    (extensions name).findSome? (mimetypeGet b) = (extensions name).findSome? (mimetypeGet a) := by
  refine findSome_congr fun x hx => Option.ext fun value => ?_
  rw [mimetypeGet_eq_some_iff ha, mimetypeGet_eq_some_iff hb, hlive]
  constructor
  · rintro ⟨e, he, hkey, hvalue⟩
    rcases List.mem_append.mp he with he | he
    · exact ⟨e, he, hkey, hvalue⟩
    · rw [List.mem_singleton.mp he] at hkey
      exact absurd ⟨x, suffix_of_mem_extensions hx, hkey⟩ hnot
  · rintro ⟨e, he, hrest⟩
    exact ⟨e, List.mem_append_left _ he, hrest⟩

/-- An entry whose key is no end of a name leaves the type of the name as it was, if and only if it
is not the sixteenth, or the first element whose key is an end of the name has the type of the one
that is the longest extension. -/
theorem statCacheMimetypeByExt_added_iff {m : ElementMethods Buffer} (ha : Indexed a)
    {entry : DataUnset Buffer} {key : Bytes} (hkey : entry.key = some key)
    (hindex : entry.isIndexKey = false) (hfree : ¬ a.HasKey key)
    (hins : arrayInsertUniqueElement m a entry = some b) (hnul : ∀ e ∈ b.live, NulFree e)
    (name : Bytes) (hnot : ¬ IsSuffixKey name entry) :
    statCacheMimetypeByExt b name = statCacheMimetypeByExt a name ↔
      (a.used = 15 → ∀ e, FirstSuffix a name e →
        ∃ e', LongestExtension a name e' ∧ e'.value = e.value) := by
  have hgen := generateKey_keyed (a := a) hkey hindex
  have hstring : entry.key.string = key := by rw [hkey]; rfl
  have hlive : b.live = a.live ++ [entry] := by
    obtain ⟨b', hb', hlive⟩ := ha.arrayInsertUniqueElement_free (m := m)
      (show ¬ a.HasKey (generateKey a entry).1.key.string by rw [hgen, hstring]; exact hfree)
    rw [hins, Option.some.injEq] at hb'
    rw [hb', hlive, hgen]
  have hb := ha.arrayInsertUniqueElement_indexed hins
  have hused : b.used = a.used + 1 := by
    rw [← hb.length_live, ← ha.length_live, hlive, List.length_append, List.length_singleton]
  have hnula : ∀ e ∈ a.live, NulFree e := fun e he => hnul e (by simp [hlive, he])
  have hfind : b.live.find? (suffixMatches name) = a.live.find? (suffixMatches name) := by
    have hentry : suffixMatches name entry = false := by
      simpa using mt (suffixMatches_iff (hnul entry (by simp [hlive]))).mp hnot
    rw [hlive, List.find?_append, List.find?_singleton, hentry]
    simp
  have hsearch := findSome_extensions_added ha hb hlive hnot
  rcases Nat.lt_trichotomy a.used 15 with hlt | heq | hgt
  · rw [statCacheMimetypeByExt, statCacheMimetypeByExt, if_pos (by omega), if_pos (by omega), hfind]
    exact ⟨fun _ h => by omega, fun _ => rfl⟩
  · rw [statCacheMimetypeByExt_long (by omega), hsearch, statCacheMimetypeByExt, if_pos (by omega)]
    constructor
    · intro h _ e he
      rw [(find_suffixMatches_eq_some_iff hnula).mpr he] at h
      exact (findSome_extensions_eq_some_iff ha).mp h
    · intro h
      cases hfirst : a.live.find? (suffixMatches name) with
      | some e =>
        exact (findSome_extensions_eq_some_iff ha).mpr
          (h heq e ((find_suffixMatches_eq_some_iff hnula).mp hfirst))
      | none =>
        refine List.findSome?_eq_none_iff.mpr fun x hx => (mimetypeGet_eq_none_iff ha).mpr ?_
        rintro ⟨e, he, hcase⟩
        have hmatch := (suffixMatches_iff (hnula e he)).mpr ⟨x, suffix_of_mem_extensions hx, hcase⟩
        exact List.find?_eq_none.mp hfirst e he hmatch
  · rw [statCacheMimetypeByExt_long (by omega), statCacheMimetypeByExt_long (by omega), hsearch]
    exact ⟨fun _ h => by omega, fun _ => rfl⟩

/-- Fifteen entries, with the end of a longer key in front of it. -/
def fifteenTypes : List (Bytes × Bytes) :=
  [(str ".gz", str "gzip"), (str ".tar.gz", str "gtar"), (str ".a", []), (str ".b", []),
    (str ".c", []), (str ".d", []), (str ".e", []), (str ".f", []), (str ".g", []), (str ".h", []),
    (str ".i", []), (str ".j", []), (str ".k", []), (str ".l", []), (str ".m", [])]

theorem not_isSuffixKey (h : NulFree ds) (hno : suffixMatches name ds = false) :
    ¬ IsSuffixKey name ds := fun hsuf => by
  rw [(suffixMatches_iff h).mpr hsuf] at hno
  cases hno

/-- A sixteenth entry, and a name that it has nothing to do with. -/
theorem statCacheMimetypeByExt_added_iff_gz :
    statCacheMimetypeByExt (stringTable (fifteenTypes ++ [(str ".n", [])])) (str "x.tar.gz") =
        statCacheMimetypeByExt (stringTable fifteenTypes) (str "x.tar.gz") ↔
      ((stringTable fifteenTypes).used = 15 →
        ∀ e, FirstSuffix (stringTable fifteenTypes) (str "x.tar.gz") e →
          ∃ e', LongestExtension (stringTable fifteenTypes) (str "x.tar.gz") e' ∧
            e'.value = e.value) :=
  let entry : DataUnset Buffer := ⟨.string, some (str ".n"), false, some []⟩
  have hkey : entry.key = some (str ".n") := rfl
  statCacheMimetypeByExt_added_iff (m := dataStringMethods) (indexed_stringTable _) hkey rfl
    (by simp only [DataArray.HasKey]; decide +kernel) (by decide +kernel)
    (by simp only [NulFree]; decide +kernel) (str "x.tar.gz")
    (not_isSuffixKey (by simp only [NulFree]; decide +kernel) (by decide +kernel))

/-- The type of `x.tar.gz` is the one of `.gz` before the sixteenth entry, and the one of `.tar.gz`
behind it. -/
theorem statCacheMimetypeByExt_depends :
    ¬ ∀ (m : ElementMethods Buffer) (a b : DataArray Buffer) (entry : DataUnset Buffer)
        (key : Bytes), Indexed a → entry.key = some key → entry.isIndexKey = false →
      ¬ a.HasKey key → arrayInsertUniqueElement m a entry = some b →
      (∀ e ∈ b.live, NulFree e) → ∀ name, ¬ IsSuffixKey name entry →
        statCacheMimetypeByExt b name = statCacheMimetypeByExt a name := by
  intro h
  have heq := h dataStringMethods (stringTable fifteenTypes)
    (stringTable (fifteenTypes ++ [(str ".n", [])])) ⟨.string, some (str ".n"), false, some []⟩
    (str ".n") (indexed_stringTable _) rfl rfl (by simp only [DataArray.HasKey]; decide +kernel)
    (by decide +kernel) (by simp only [NulFree]; decide +kernel) (str "x.tar.gz")
    (not_isSuffixKey (by simp only [NulFree]; decide +kernel) (by decide +kernel))
  exact absurd heq (by decide +kernel)

end Lighttpd
