import Lighttpd.DataArray
import Lighttpd.ResponsePrepare

/-!
# Aliases

`mod_alias`: the part of the physical path behind the document root is compared with the keys of
the table, and the value of the first key that it starts with takes the place of the document
root and the key. The value and the rest are put together as they are, so that the last segment
of the one and the first of the other become one segment (`modAliasPhysicalHandler_dots_iff`).

`physical.path` is never a buffer without a string, because `http_response_prepare` has appended
to it.
-/

namespace Lighttpd

open CString PathSegments

/-- `array_is_kvstring`. -/
def arrayIsKvstring (a : DataArray Buffer) : Bool :=
  a.live.all fun du => !du.isIndexKey && du.type = .string

/-- The inner loop of `mod_alias_set_defaults`: a key behind the `j`th that starts with it comes
later in the table. -/
def aliasNeverMatches (a : DataArray Buffer) (j : ℕ) : List ℕ → Bool
  | [] => false
  | k :: ks =>
    if (a.keyAt k).length < (a.keyAt j).length then false
    else if (a.keyAt k).take (a.keyAt j).length ≠ a.keyAt j then false
    else if j < k then true
    else aliasNeverMatches a j ks

/-- The outer loop of `mod_alias_set_defaults`. -/
def aliasOrderIsValid (a : DataArray Buffer) : List ℕ → Bool
  | [] => true
  | j :: ks => !aliasNeverMatches a j ks && aliasOrderIsValid a ks

/-- `mod_alias_set_defaults` accepts a table. -/
def modAliasSetDefaults (a : DataArray Buffer) : Bool :=
  arrayIsKvstring a && (a.used < 2 || aliasOrderIsValid a a.sorted)

/-- `strncmp(a, b, n)` returns zero, or `strncasecmp` does. -/
def strncmpEq (caseless : Bool) (a b : Bytes) (n : ℕ) : Bool :=
  if caseless then decide (CaseEq ((cstr a).take n) ((cstr b).take n))
  else (cstr a).take n = (cstr b).take n

/-- The bytes of the memory in front of the strings of `physical.basedir` and `physical.path`. -/
structure FrontBytes where
  basedir : UInt8
  path : UInt8
  deriving DecidableEq, Repr

/-- `uri_ptr`. The slash at the end of the document root belongs to it; without a document root,
the byte that is looked at is one in front of the buffer. -/
def aliasUri (front : FrontBytes) (physical : Physical) : Bytes :=
  match physical.basedir.string.getLast? with
  | none => if front.basedir = slashChar then front.path :: physical.path else physical.path
  | some c =>
    let basedirLen := physical.basedir.string.length
    physical.path.drop (if c = slashChar then basedirLen - 1 else basedirLen)

/-- The path starts with the key of an alias. -/
def aliasMatches (conf : ResponseConf) (uri : Bytes) (ds : DataUnset Buffer) : Bool :=
  ds.key.string.length ≤ uri.length && ds.key.isSome &&
    strncmpEq conf.forceLowercaseFilenames uri ds.key.string ds.key.string.length

/-- The alias that is taken. -/
def aliasFor (conf : ResponseConf) (aliases : DataArray Buffer) (uri : Bytes) :
    Option (DataUnset Buffer) :=
  aliases.live.find? (aliasMatches conf uri)

/-- `uri_ptr + alias_len`, as `buffer_append_string` reads it. -/
def aliasRest (uri : Bytes) (ds : DataUnset Buffer) : Bytes :=
  cstr (uri.drop ds.key.string.length)

/-- `mod_alias_physical_handler`. -/
def modAliasPhysicalHandler (conf : ResponseConf) (aliases : DataArray Buffer) (front : FrontBytes)
    (physical : Physical) : Physical :=
  let uri := aliasUri front physical
  match aliasFor conf aliases uri with
  | none => physical
  | some ds =>
    { physical with
      basedir := ds.value
      path := ds.value.string ++ aliasRest uri ds }

variable {b : Bytes} {conf : ResponseConf}

theorem bufferAppendSlash_of_ne_nil (h : b ≠ []) :
    bufferAppendSlash b = (if b.getLast? = some slashChar then b.dropLast else b) ++ [slashChar] := by
  unfold bufferAppendSlash
  by_cases hl : b.getLast? = some slashChar
  · obtain ⟨a, rfl⟩ := List.getLast?_eq_some_iff.mp hl
    simp
  · simp [h, hl]

theorem bufferAppendSlash_ne_nil (h : b ≠ []) : bufferAppendSlash b ≠ [] := by
  rw [bufferAppendSlash_of_ne_nil h]
  simp

theorem bufferAppendSlash_append {a : Bytes} (h : a.getLast? = some slashChar) :
    bufferAppendSlash (a ++ b) = a ++ bufferAppendSlash b := by
  cases b with
  | nil => simp [bufferAppendSlash, h]
  | cons c b =>
    have hlast : (a ++ c :: b).getLast? = (c :: b).getLast? := by
      rw [List.getLast?_append, List.getLast?_cons]
      rfl
    unfold bufferAppendSlash
    rw [hlast]
    split_ifs with h1 h2 h2
    · simp
    · exact absurd ⟨by simp, h1.2⟩ h2
    · exact absurd ⟨by simp, h2.2⟩ h1
    · rfl

theorem getLast?_bufferAppendSlash (h : b ≠ []) :
    (bufferAppendSlash b).getLast? = some slashChar := by
  rw [bufferAppendSlash_of_ne_nil h]
  simp

/-- Behind a document root stands the path with its slash; without one, there may be a byte of
the memory in front of it. -/
theorem aliasUri_requestPhysical (conf : ResponseConf) (front : FrontBytes) (path : Bytes) :
    aliasUri front (requestPhysical conf path) = belowRoot conf path ∨
      ∃ c, aliasUri front (requestPhysical conf path) = c :: belowRoot conf path := by
  unfold aliasUri
  simp only [requestPhysical]
  generalize conf.documentRoot.string = root
  cases hlast : root.getLast? with
  | none =>
    rw [List.getLast?_eq_none_iff.mp hlast]
    simp only [bufferAppendSlash, ne_eq, not_true_eq_false, false_and, if_false, List.nil_append]
    split_ifs
    · exact .inr ⟨front.path, rfl⟩
    · exact .inl rfl
  | some c =>
    refine .inr ⟨slashChar, ?_⟩
    obtain ⟨a, rfl⟩ := List.getLast?_eq_some_iff.mp hlast
    rw [bufferAppendSlash_of_ne_nil (by simp), hlast]
    by_cases hc : c = slashChar
    · simp [hc]
    · have hlen : (a ++ [c]).length = a.length + 1 := by simp
      simp [hc]

theorem notMem_belowRoot {path : Bytes} (h : (0 : UInt8) ∉ path) :
    (0 : UInt8) ∉ belowRoot conf path := by
  have hrel : (0 : UInt8) ∉ relPath conf path := by
    unfold relPath bufferToLower
    split_ifs
    · intro h0
      obtain ⟨c, hc, h0⟩ := List.mem_map.mp h0
      exact h ((toLower_eq_zero_iff c).mp h0 ▸ hc)
    · exact h
  unfold belowRoot
  split_ifs
  · exact fun h0 => hrel (List.mem_of_mem_tail h0)
  · exact hrel

/-- What is appended to the value of an alias has `..` segments of its own nowhere but at its
start. -/
theorem dots_notMem_tail_aliasRest {front : FrontBytes} {path : Bytes} (hnul : (0 : UInt8) ∉ path)
    (hdots : ¬ HasDotDot path) (ds : DataUnset Buffer) :
    str ".." ∉ ((aliasRest (aliasUri front (requestPhysical conf path)) ds).splitOn
      slashChar).tail := by
  have hnul' : (0 : UInt8) ∉ belowRoot conf path := notMem_belowRoot hnul
  have hbelow := not_hasDotDot_belowRoot conf hdots
  have hdrop : ∀ n, str ".." ∉ ((cstr ((belowRoot conf path).drop n)).splitOn slashChar).tail := by
    intro n hmem
    rw [cstr_of_notMem fun h0 => hnul' (List.mem_of_mem_drop h0)] at hmem
    have := tail_splitOn_subset ((belowRoot conf path).take n) _ hmem
    rw [List.take_append_drop] at this
    exact hbelow this
  unfold aliasRest
  rcases aliasUri_requestPhysical conf front path with h | ⟨c, h⟩
  · rw [h]
    exact hdrop _
  · rw [h]
    cases ds.key.string.length with
    | succ n => exact hdrop n
    | zero =>
      by_cases hc : c = 0
      · simp [hc, cstr, List.splitOn_nil]
      · have hcstr : cstr (c :: belowRoot conf path) = c :: belowRoot conf path := by
          refine cstr_of_notMem fun h0 => ?_
          rcases List.mem_cons.mp h0 with h0 | h0
          · exact hc h0.symm
          · exact hnul' h0
        rw [List.drop_zero, hcstr]
        exact fun hmem => hbelow (tail_splitOn_cons_subset c _ hmem)

/-- The value ends and the rest starts with the two halves of a `..` segment. -/
def MeetInDots (value rest : Bytes) : Prop :=
  lastSegment slashChar value = [] ∧ firstSegment slashChar rest = str ".." ∨
    lastSegment slashChar value = str "." ∧ firstSegment slashChar rest = str "."

theorem meetInDots_iff (value rest : Bytes) :
    MeetInDots value rest ↔
      ¬ (lastSegment slashChar value ++ firstSegment slashChar rest = str ".." →
        lastSegment slashChar value = str "..") := by
  unfold MeetInDots
  generalize lastSegment slashChar value = u
  generalize firstSegment slashChar rest = v
  have hdots : str ".." = [dotChar, dotChar] := by decide
  have hdot : str "." = [dotChar] := by decide
  rw [hdots, hdot]
  rcases u with _ | ⟨a, _ | ⟨b, _ | ⟨c, u⟩⟩⟩
  · simp
  · simp
  · simp +contextual
  · simp

/-- The `..` segments of the rewritten path are those of the value of the alias. -/
def StaysBelow (value path : Bytes) : Prop :=
  ∀ i : ℕ, (path.splitOn slashChar)[i]? = some (str "..") →
    (value.splitOn slashChar)[i]? = some (str "..")

/-- For a path of a request without `..` segments that an alias rewrites: its value and the rest
of the path make up a path without a further `..` segment, unless they meet in one. -/
theorem modAliasPhysicalHandler_dots_iff (conf : ResponseConf) (aliases : DataArray Buffer)
    (front : FrontBytes) (path : Bytes) (ds : DataUnset Buffer)
    (hnul : (0 : UInt8) ∉ path) (hdots : ¬ HasDotDot path)
    (hds : aliasFor conf aliases (aliasUri front (requestPhysical conf path)) = some ds) :
    StaysBelow ds.value.string
        (modAliasPhysicalHandler conf aliases front (requestPhysical conf path)).path ↔
      ¬ MeetInDots ds.value.string
        (aliasRest (aliasUri front (requestPhysical conf path)) ds) := by
  have hpath : (modAliasPhysicalHandler conf aliases front (requestPhysical conf path)).path =
      ds.value.string ++ aliasRest (aliasUri front (requestPhysical conf path)) ds := by
    simp only [modAliasPhysicalHandler, hds]
  rw [hpath, meetInDots_iff, not_not]
  exact splitOn_append_iff (dots_notMem_tail_aliasRest hnul hdots ds)

/-- An alias of the table. -/
def aliasElement (key value : Bytes) : DataUnset Buffer :=
  ⟨.string, some key, false, some value⟩

/-- A table with one alias. -/
def oneAlias (key value : Bytes) : DataArray Buffer :=
  ⟨[some (aliasElement key value)], [0], 1, 0⟩

/-- On an alias that ends in a slash as its value does. -/
theorem modAliasPhysicalHandler_dots_slash :
    StaysBelow (aliasElement (str "/a/") (str "/var/../www/")).value.string
        (modAliasPhysicalHandler (srvConf false) (oneAlias (str "/a/") (str "/var/../www/")) ⟨0, 0⟩
          (requestPhysical (srvConf false) (str "/a/..b"))).path ↔
      ¬ MeetInDots (aliasElement (str "/a/") (str "/var/../www/")).value.string
        (aliasRest (aliasUri ⟨0, 0⟩ (requestPhysical (srvConf false) (str "/a/..b")))
          (aliasElement (str "/a/") (str "/var/../www/"))) :=
  modAliasPhysicalHandler_dots_iff (srvConf false) (oneAlias (str "/a/") (str "/var/../www/"))
    ⟨0, 0⟩ (str "/a/..b") (aliasElement (str "/a/") (str "/var/../www/")) (by decide +kernel)
    (by decide +kernel) (by decide +kernel)

/-- An alias without a slash at the end, whose value has one, takes a request out of the target
directory. -/
theorem modAliasPhysicalHandler_not_staysBelow :
    ¬ ∀ (conf : ResponseConf) (aliases : DataArray Buffer) (front : FrontBytes) (path : Bytes)
        (ds : DataUnset Buffer), modAliasSetDefaults aliases = true →
      path.head? = some slashChar →
      (∀ seg ∈ path.splitOn slashChar, seg ≠ str "." ∧ seg ≠ str "..") →
      aliasFor conf aliases (aliasUri front (requestPhysical conf path)) = some ds →
      StaysBelow ds.value.string
        (modAliasPhysicalHandler conf aliases front (requestPhysical conf path)).path := by
  intro h
  have := h (srvConf false) (oneAlias (str "/foo") (str "/var/www/")) ⟨0, 0⟩ (str "/foo../x")
    (aliasElement (str "/foo") (str "/var/www/")) (by decide +kernel)
    (by decide +kernel) (by decide +kernel) (by decide +kernel)
  have hdots := this 3 (by decide +kernel)
  exact absurd hdots (by decide +kernel)

end Lighttpd
