import Lighttpd.Alias

/-!
# The Destination of COPY and MOVE

`mod_webdav` makes the physical path of the Destination from the one of the source: where the
physical path of the source ends as its `rel_path` does, behind the directory that both URIs have in
common, the rest of the Destination takes the place of that end. Behind an alias the end may begin
within the target of the alias, which is when the target ends as the key does by accident
(`CutsTarget`).
-/

namespace Lighttpd

open CString PathSegments

/-- `p->uri.authority` and `p->uri.path_raw`. -/
def destinationParts (destination : Bytes) : Option (Bytes × Bytes) :=
  match strstr destination (str "://") with
  | none => none
  | some sep =>
    let start := (cstr destination).drop (sep + 3)
    match strchr start slashChar with
    | none => none
    | some sep =>
      let login := start.take sep
      let authority := match memchr login 64 with
        | none => login
        | some sep2 => login.drop (sep2 + 1)
      let rest := start.drop (sep + 1)
      some (authority, match strchr rest 63 with
        | none => rest
        | some sep => rest.take sep)

/-- `buffer_is_equal_right_len` of two strings. -/
def bufferIsEqualRightLen (b1 b2 : Bytes) (len : ℕ) : Bool :=
  len = 0 || len ≤ b1.length && len ≤ b2.length &&
    b1.drop (b1.length - len) = b2.drop (b2.length - len)

/-- `for (i = 0; sep[i] && sep[i] == sep2[i]; ++i)`. -/
def commonLength : Bytes → Bytes → ℕ
  | c :: sep, c' :: sep2 => if c ≠ 0 ∧ c = c' then commonLength sep sep2 + 1 else 0
  | _, _ => 0

/-- `while (i != 0 && sep[--i] != '/')`. -/
def backToSlash (sep : Bytes) : ℕ → ℕ
  | 0 => 0
  | i + 1 => if charAt sep i = slashChar then i else backToSlash sep i

/-- The length of the directory that two paths have in common. -/
def commonDir (path dst : Bytes) : ℕ := backToSlash path (commonLength path dst)

/-- The Destination is the source or lies in it. -/
def destinationNested (path dst : Bytes) : Bool :=
  let i := commonLength path dst
  charAt path i = 0 && (charAt dst i = 0 || charAt dst i = slashChar ||
    (0 < i && charAt path (i - 1) = slashChar))

/-- The physical path of the source ends as its `rel_path` does from position `i` on. -/
def endsAsRelPath (conf : ResponseConf) (physical : Physical) (i remain : ℕ) : Bool :=
  if conf.forceLowercaseFilenames then
    remain ≤ physical.path.length &&
      strncmpEq true (physical.path.drop (physical.path.length - remain)) (physical.relPath.drop i)
        remain
  else bufferIsEqualRightLen physical.path physical.relPath remain

/-- `p->physical` for the Destination path `dst` and a source with path `path`. -/
def destinationPhysical (conf : ResponseConf) (physical : Physical) (path dst : Bytes) : Physical :=
  let i := commonDir path dst
  let remain := path.length - i
  let rel := relPath conf dst
  if endsAsRelPath conf physical i remain then
    { docRoot := physical.docRoot
      basedir := some (bufferAppendSlash physical.basedir.string)
      relPath := rel
      path := physical.path.take (physical.path.length - remain) ++ rel.drop i }
  else
    { docRoot := physical.docRoot
      basedir := some (bufferAppendSlash physical.docRoot.string)
      relPath := rel
      path := bufferAppendSlash physical.docRoot.string ++ belowRoot conf dst }

/-- The part of `mod_webdav_subrequest_handler_huge` that makes `p->uri.path` and `p->physical` of
the Destination, or ends with a status. -/
def webdavDestination (conf : ResponseConf) (uri : RequestUri) (physical : Physical)
    (destination : Bytes) : Except ℕ (Bytes × Physical) :=
  match destinationParts destination with
  | none => .error 400
  | some (authority, pathRaw) =>
    if ¬ bufferIsEqual (some authority) uri.authority then .error 502
    else
      let dst := bufferPathSimplify (bufferUrldecodePath pathRaw)
      if destinationNested uri.path dst then .error 403
      else .ok (dst, destinationPhysical conf physical uri.path dst)

/-! ## What two paths have in common -/

theorem commonLength_spec : ∀ path dst : Bytes, commonLength path dst ≤ path.length ∧
    path.take (commonLength path dst) = dst.take (commonLength path dst)
  | [], dst => by simp [commonLength]
  | c :: path, [] => by simp [commonLength]
  | c :: path, c' :: dst => by
    obtain ⟨hle, htake⟩ := commonLength_spec path dst
    unfold commonLength
    split_ifs with h
    · rw [h.2]
      exact ⟨Nat.succ_le_succ hle, by rw [List.take_succ_cons, List.take_succ_cons, htake]⟩
    · simp

theorem backToSlash_le (sep : Bytes) : ∀ i, backToSlash sep i ≤ i
  | 0 => le_rfl
  | i + 1 => by
    unfold backToSlash
    split_ifs
    · exact Nat.le_succ i
    · exact (backToSlash_le sep i).trans (Nat.le_succ i)

theorem take_commonDir (path dst : Bytes) :
    path.take (commonDir path dst) = dst.take (commonDir path dst) := by
  have hle : commonDir path dst ≤ commonLength path dst := backToSlash_le path _
  have h := congrArg (List.take (commonDir path dst)) (commonLength_spec path dst).2
  rwa [List.take_take, List.take_take, min_eq_left hle] at h

theorem length_relPath (conf : ResponseConf) (path : Bytes) :
    (relPath conf path).length = path.length := by
  unfold relPath bufferToLower
  split_ifs
  · exact List.length_map _
  · rfl

theorem take_relPath (conf : ResponseConf) (path : Bytes) (i : ℕ) :
    (relPath conf path).take i = relPath conf (path.take i) := by
  unfold relPath bufferToLower
  split_ifs
  · exact List.map_take.symm
  · rfl

theorem take_commonDir_relPath (conf : ResponseConf) (path dst : Bytes) :
    (relPath conf path).take (commonDir path dst) =
      (relPath conf dst).take (commonDir path dst) := by
  rw [take_relPath, take_relPath, take_commonDir]

theorem head_relPath {conf : ResponseConf} {path : Bytes} (h : path.head? = some slashChar) :
    (relPath conf path).head? = some slashChar := by
  unfold relPath bufferToLower
  split_ifs
  · rw [List.head?_map, h]
    rfl
  · exact h

/-- The document root without the slash at its end. -/
def rootDir (conf : ResponseConf) : Bytes :=
  let root := conf.documentRoot.string
  if root.getLast? = some slashChar then root.dropLast else root

/-- The document root with the path behind it. -/
def InRoot (conf : ResponseConf) (dst path : Bytes) : Prop :=
  path = rootDir conf ++ relPath conf dst ∨
    path = bufferAppendSlash conf.documentRoot.string ++ belowRoot conf dst

variable {conf : ResponseConf} {path dst : Bytes} {n : ℕ} {physical : Physical}
  {ds : DataUnset Buffer}

/-- A path with a slash in front comes behind the document root. -/
theorem appendSlash_belowRoot (hroot : conf.documentRoot.string ≠ [])
    (h : path.head? = some slashChar) :
    bufferAppendSlash conf.documentRoot.string ++ belowRoot conf path =
      rootDir conf ++ relPath conf path := by
  obtain ⟨rest, hrest⟩ := List.head?_eq_some_iff.mp (@head_relPath conf _ h)
  rw [bufferAppendSlash_of_ne_nil hroot, belowRoot, hrest]
  simp [rootDir]

theorem aliasUri_eq_relPath (hroot : conf.documentRoot.string ≠ []) (front : FrontBytes)
    (h : path.head? = some slashChar) :
    aliasUri front (requestPhysical conf path) = relPath conf path := by
  have happend := appendSlash_belowRoot hroot h
  obtain ⟨c, hc⟩ : ∃ c, conf.documentRoot.string.getLast? = some c :=
    ⟨_, List.getLast?_eq_some_getLast hroot⟩
  have hlen : (rootDir conf).length =
      if c = slashChar then conf.documentRoot.string.length - 1
      else conf.documentRoot.string.length := by
    simp only [rootDir, hc, Option.some.injEq]
    split_ifs <;> simp
  simp only [aliasUri, requestPhysical, hc]
  rw [happend, ← hlen, List.drop_left]

/-- A path in the document root has `..` segments where the document root has. -/
theorem InRoot.hasDotDot_iff (h : InRoot conf dst path) (hroot : conf.documentRoot.string ≠ [])
    (hdst : dst = [] ∨ dst.head? = some slashChar) (hdots : ¬ HasDotDot dst) :
    HasDotDot path ↔ HasDotDot conf.documentRoot.string := by
  have hslash : ∀ v : Bytes, HasDotDot (v ++ [slashChar]) ↔ HasDotDot v := by
    intro v
    rw [HasDotDot, List.splitOn_append_cons_self, List.mem_append]
    exact or_iff_left (by decide)
  have hdir : HasDotDot (rootDir conf) ↔ HasDotDot conf.documentRoot.string := by
    unfold rootDir
    dsimp only
    split_ifs with hlast
    · obtain ⟨a, ha⟩ := List.getLast?_eq_some_iff.mp hlast
      rw [ha, List.dropLast_concat]
      exact (hslash a).symm
    · exact Iff.rfl
  have hrel : ¬ HasDotDot (relPath conf dst) := by
    unfold relPath
    split_ifs
    · exact not_hasDotDot_bufferToLower hdots
    · exact hdots
  rw [← hdir]
  rcases hdst with rfl | hhead
  · have hnil : relPath conf [] = [] ∧ belowRoot conf [] = [] := by
      simp [belowRoot, relPath, bufferToLower]
    rw [InRoot, hnil.1, hnil.2, List.append_nil, List.append_nil,
      bufferAppendSlash_of_ne_nil hroot] at h
    rcases h with rfl | rfl
    · exact Iff.rfl
    · exact hslash _
  · rw [InRoot, appendSlash_belowRoot hroot hhead, or_self] at h
    obtain ⟨rest, hrest⟩ := List.head?_eq_some_iff.mp (@head_relPath conf _ hhead)
    rw [hrest] at h hrel
    rw [h, HasDotDot, List.splitOn_append_cons_self, List.mem_append]
    exact or_iff_left (not_hasDotDot_tail hrel)

/-! ## Behind an alias -/

/-- What an alias target has in front of as many bytes as the key has behind position `i`. -/
def targetFront (target : Bytes) (n i : ℕ) : Bytes := target.take (target.length - (n - i))

/-- The target ends as the key of length `n`, with which `rel` starts, does from position `i` on. -/
def CutsTarget (conf : ResponseConf) (target rel : Bytes) (n i : ℕ) : Prop :=
  n - i ≤ target.length ∧
    if conf.forceLowercaseFilenames then
      CaseEq (target.drop (target.length - (n - i))) ((rel.take n).drop i)
    else target.drop (target.length - (n - i)) = (rel.take n).drop i

theorem drop_length_sub {u v : Bytes} {k : ℕ} (hv : v.length = k) :
    (u ++ v).drop ((u ++ v).length - k) = v := by
  rw [← hv, List.length_append, Nat.add_sub_cancel, List.drop_left]

theorem cutsTarget_of_append {target front rel : Bytes} {i : ℕ} (hn : n ≤ rel.length)
    (h : target = front ++ (rel.take n).drop i) : CutsTarget conf target rel n i := by
  have hkey : ((rel.take n).drop i).length = n - i := by simp [hn]
  have hdrop : target.drop (target.length - (n - i)) = (rel.take n).drop i := by
    rw [h, drop_length_sub hkey]
  refine ⟨?_, ?_⟩
  · rw [h, List.length_append, hkey]
    exact Nat.le_add_left _ _
  · rw [hdrop]
    split_ifs <;> rfl

theorem strncmpEq_caseless {a b : Bytes} (ha : a.length = n) (hb : b.length = n)
    (hnul : (0 : UInt8) ∉ b) : strncmpEq true a b n = true ↔ CaseEq a b := by
  have hbn : (cstr b).take n = b := by rw [cstr_of_notMem hnul, ← hb, List.take_length]
  simp only [strncmpEq, if_true, decide_eq_true_eq, hbn]
  by_cases hn : (0 : UInt8) ∈ a
  · have hcase : ∀ a' : Bytes, (0 : UInt8) ∈ a' → ¬ CaseEq a' b := by
      intro a' h0 hc
      have hmem : (0 : UInt8) ∈ b.map toLower := hc ▸ List.mem_map.mpr ⟨0, h0, rfl⟩
      obtain ⟨c, hc, h0⟩ := List.mem_map.mp hmem
      exact hnul ((toLower_eq_zero_iff c).mp h0 ▸ hc)
    refine iff_of_false (fun hc => ?_) (hcase a hn)
    have hlen := hc.length_eq
    have hshort : (cstr a).length < a.length := by
      refine lt_of_le_of_ne (List.takeWhile_prefix _).length_le fun he => ?_
      have := (List.takeWhile_prefix (fun c : UInt8 => decide (c ≠ 0))).eq_of_length he
      exact notMem_cstr a (by rw [cstr, this]; exact hn)
    rw [List.length_take, hb] at hlen
    omega
  · rw [cstr_of_notMem hn, ← ha, List.take_length]

/-- A path that ends with the rest of `rel_path`. -/
theorem endsAsRelPath_of_append {conf : ResponseConf} {physical : Physical} {u : Bytes} {i : ℕ}
    (hpath : physical.path = u ++ physical.relPath.drop i) :
    endsAsRelPath conf physical i (physical.relPath.length - i) = true := by
  have hlen : (physical.relPath.drop i).length = physical.relPath.length - i := List.length_drop
  have hdrop : physical.path.drop (physical.path.length - (physical.relPath.length - i)) =
      physical.relPath.drop i := by rw [hpath, drop_length_sub hlen]
  have hle : physical.relPath.length - i ≤ physical.path.length := by
    rw [hpath, List.length_append, hlen]
    exact Nat.le_add_left _ _
  unfold endsAsRelPath
  split_ifs
  · simp [hdrop, hle, strncmpEq, CaseEq]
  · have hrel : physical.relPath.drop (physical.relPath.length - (physical.relPath.length - i)) =
        physical.relPath.drop i := by
      rcases le_total i physical.relPath.length with hi | hi
      · rw [Nat.sub_sub_self hi]
      · rw [Nat.sub_eq_zero_of_le hi, Nat.sub_zero, List.drop_length, List.drop_eq_nil_of_le hi]
    simp [bufferIsEqualRightLen, hdrop, hle, hrel]

/-- Whether the physical path of an aliased source ends as its `rel_path` does. -/
theorem endsAsRelPath_alias {target rel : Bytes} {i : ℕ}
    (hpath : physical.path = target ++ rel.drop n) (hrel : physical.relPath = rel)
    (hnul : (0 : UInt8) ∉ rel) (hn : n ≤ rel.length) (hi : i < n) :
    endsAsRelPath conf physical i (rel.length - i) = true ↔ CutsTarget conf target rel n i := by
  have hkey : ((rel.take n).drop i).length = n - i := by simp [hn]
  have hsplit : rel.drop i = (rel.take n).drop i ++ rel.drop n := by
    have h := List.take_append_drop (n - i) (rel.drop i)
    rwa [← List.drop_take, List.drop_drop, Nat.add_sub_cancel' hi.le, eq_comm] at h
  have hremain : (rel.drop i).length = rel.length - i := List.length_drop
  have hlen : physical.path.length = target.length + (rel.length - n) := by
    rw [hpath, List.length_append, List.length_drop]
  by_cases hle : n - i ≤ target.length
  · have hend : physical.path.drop (physical.path.length - (rel.length - i)) =
        target.drop (target.length - (n - i)) ++ rel.drop n := by
      rw [hlen, show target.length + (rel.length - n) - (rel.length - i) =
        target.length - (n - i) by omega, hpath, List.drop_append_of_le_length (Nat.sub_le _ _)]
    have hfits : rel.length - i ≤ physical.path.length := by omega
    have hendlen : (target.drop (target.length - (n - i)) ++ rel.drop n).length =
        rel.length - i := by
      rw [List.length_append, List.length_drop, List.length_drop]
      omega
    unfold endsAsRelPath CutsTarget
    split_ifs
    · have hnul' : (0 : UInt8) ∉ rel.drop i := fun h0 => hnul (List.mem_of_mem_drop h0)
      simp only [hrel, hfits, hle, decide_true, Bool.true_and, true_and]
      rw [hend, strncmpEq_caseless hendlen hremain hnul', hsplit]
      simp only [CaseEq, List.map_append, List.append_cancel_right_eq]
    · have hpos : rel.length - i ≠ 0 := by omega
      have hback : rel.length - (rel.length - i) = i := by omega
      simp only [bufferIsEqualRightLen, hpos, hfits, hle, hend, hback, hrel, Nat.sub_le,
        decide_true, decide_false, Bool.false_or, Bool.true_and, true_and, decide_eq_true_eq]
      rw [hsplit]
      exact List.append_left_inj _
  · have hfits : ¬ rel.length - i ≤ physical.path.length := by omega
    have hpos : rel.length - i ≠ 0 := by omega
    simp [endsAsRelPath, CutsTarget, bufferIsEqualRightLen, hfits, hle, hpos]

theorem destinationPhysical_path (conf : ResponseConf) (physical : Physical) (path dst : Bytes) :
    (destinationPhysical conf physical path dst).path =
      if endsAsRelPath conf physical (commonDir path dst) (path.length - commonDir path dst) then
        physical.path.take (physical.path.length - (path.length - commonDir path dst)) ++
          (relPath conf dst).drop (commonDir path dst)
      else bufferAppendSlash physical.docRoot.string ++ belowRoot conf dst := by
  unfold destinationPhysical
  dsimp only
  split_ifs <;> rfl

section Source

variable {conf : ResponseConf} {physical : Physical} {front target path dst : Bytes} {n : ℕ}

/-- The physical path ends with the rest of `rel_path`, and it has the rest of the Destination in
its place. -/
theorem destinationPhysical_of_append
    (hpath : physical.path = front ++ (relPath conf path).drop (commonDir path dst))
    (hrel : physical.relPath = relPath conf path) :
    (destinationPhysical conf physical path dst).path =
      front ++ (relPath conf dst).drop (commonDir path dst) := by
  have hends := @endsAsRelPath_of_append conf _ _ _ (hrel ▸ hpath)
  have hlen : ((relPath conf path).drop (commonDir path dst)).length =
      path.length - commonDir path dst := by rw [List.length_drop, length_relPath]
  rw [hrel, length_relPath] at hends
  rw [destinationPhysical_path, if_pos hends, hpath, ← hlen, List.length_append,
    Nat.add_sub_cancel, List.take_left]

variable (hpath : physical.path = target ++ (relPath conf path).drop n)
  (hrel : physical.relPath = relPath conf path) (hn : n ≤ path.length)
include hpath hrel

theorem destinationPhysical_behindKey (h : n ≤ commonDir path dst) :
    (relPath conf dst).take n = (relPath conf path).take n ∧
      (destinationPhysical conf physical path dst).path = target ++ (relPath conf dst).drop n := by
  have htake := take_commonDir_relPath conf path dst
  have hsplit : ∀ rel : Bytes, rel.drop n =
      (rel.take (commonDir path dst)).drop n ++ rel.drop (commonDir path dst) := by
    intro rel
    have h' := List.take_append_drop (commonDir path dst - n) (rel.drop n)
    rwa [← List.drop_take, List.drop_drop, Nat.add_sub_cancel' h, eq_comm] at h'
  refine ⟨?_, ?_⟩
  · have := congrArg (List.take n) htake
    rw [List.take_take, List.take_take, min_eq_left h] at this
    exact this.symm
  · rw [hsplit, ← List.append_assoc] at hpath
    rw [destinationPhysical_of_append hpath hrel, hsplit (relPath conf dst), htake,
      List.append_assoc]

include hn

/-- The target ends as the key does, and the destination path starts in front of that. -/
theorem destinationPhysical_cut (hnul : (0 : UInt8) ∉ relPath conf path)
    (h : commonDir path dst < n)
    (hcut : CutsTarget conf target (relPath conf path) n (commonDir path dst)) :
    (destinationPhysical conf physical path dst).path =
      targetFront target n (commonDir path dst) ++ (relPath conf dst).drop (commonDir path dst) := by
  have hends := (endsAsRelPath_alias hpath hrel hnul (length_relPath conf path ▸ hn) h).mpr hcut
  rw [length_relPath] at hends
  have hlen : physical.path.length = target.length + (path.length - n) := by
    rw [hpath, List.length_append, List.length_drop, length_relPath]
  have hfront : target.length + (path.length - n) - (path.length - commonDir path dst) =
      target.length - (n - commonDir path dst) := by omega
  rw [destinationPhysical_path, if_pos hends, hlen, hfront, hpath, targetFront,
    List.take_append_of_le_length (Nat.sub_le _ _)]

/-- The target does not end as the key does, and the destination path lies in the document root. -/
theorem destinationPhysical_not_cut (hnul : (0 : UInt8) ∉ relPath conf path)
    (h : commonDir path dst < n)
    (hcut : ¬ CutsTarget conf target (relPath conf path) n (commonDir path dst)) :
    (destinationPhysical conf physical path dst).path =
      bufferAppendSlash physical.docRoot.string ++ belowRoot conf dst := by
  have hends := (endsAsRelPath_alias hpath hrel hnul (length_relPath conf path ▸ hn) h).not.mpr hcut
  rw [length_relPath] at hends
  rw [destinationPhysical_path, if_neg hends]

end Source

/-! ## Staying inside -/

/-- What is claimed of the destination path: it is in the document root, or below the target of the
alias of the source when the Destination starts with its key as well, and it has no `..` segment. -/
def StaysInside (conf : ResponseConf) (aliased : Option (DataUnset Buffer)) (path dst : Bytes)
    (physicalPath : Bytes) : Prop :=
  (InRoot conf dst physicalPath ∨ ∃ ds ∈ aliased,
    (relPath conf dst).take ds.key.string.length = (relPath conf path).take ds.key.string.length ∧
      physicalPath = ds.value.string ++ (relPath conf dst).drop ds.key.string.length) ∧
    ¬ HasDotDot physicalPath

/-- The Destination starts with the key of the alias, and what is cut off the target, if anything,
is the same as what is put back. -/
def BehindKey (conf : ResponseConf) (ds : DataUnset Buffer) (path dst : Bytes) : Prop :=
  let n := ds.key.string.length
  let i := commonDir path dst
  (relPath conf dst).take n = (relPath conf path).take n ∧
    (n ≤ i ∨ ds.value.string = targetFront ds.value.string n i ++ ((relPath conf path).take n).drop i)

/-- The common directory ends within the key, and the target of the alias does not end as the key
does, or it has in front of that end what the document root has. -/
def BesideKey (conf : ResponseConf) (ds : DataUnset Buffer) (path dst : Bytes) : Prop :=
  let n := ds.key.string.length
  let i := commonDir path dst
  i < n ∧ (¬ CutsTarget conf ds.value.string (relPath conf path) n i ∨
    targetFront ds.value.string n i = rootDir conf ++ (relPath conf path).take i ∨
    dst = [] ∧ targetFront ds.value.string n i = bufferAppendSlash conf.documentRoot.string)

/-- The condition on the alias of the source and on the two paths. -/
def DestinationFits (conf : ResponseConf) (aliased : Option (DataUnset Buffer)) (path dst : Bytes) :
    Prop :=
  match aliased with
  | none => ¬ HasDotDot conf.documentRoot.string
  | some ds =>
    BehindKey conf ds path dst ∧
      str ".." ∉ (ds.value.string.splitOn slashChar).dropLast ∧
      lastSegment slashChar ds.value.string ++
        firstSegment slashChar ((relPath conf dst).drop ds.key.string.length) ≠ str ".." ∨
    BesideKey conf ds path dst ∧ ¬ HasDotDot conf.documentRoot.string

theorem notMem_relPath {conf : ResponseConf} {path : Bytes} (h : (0 : UInt8) ∉ path) :
    (0 : UInt8) ∉ relPath conf path := by
  unfold relPath bufferToLower
  split_ifs
  · intro h0
    obtain ⟨c, hc, h0⟩ := List.mem_map.mp h0
    exact h ((toLower_eq_zero_iff c).mp h0 ▸ hc)
  · exact h

theorem not_hasDotDot_relPath (h : ¬ HasDotDot path) : ¬ HasDotDot (relPath conf path) := by
  unfold relPath
  split_ifs
  · exact not_hasDotDot_bufferToLower h
  · exact h

theorem hasDotDot_target_iff (hdots : ¬ HasDotDot dst) (target : Bytes) (n : ℕ) :
    ¬ HasDotDot (target ++ (relPath conf dst).drop n) ↔
      str ".." ∉ (target.splitOn slashChar).dropLast ∧
        lastSegment slashChar target ++ firstSegment slashChar ((relPath conf dst).drop n) ≠
          str ".." := by
  have htail : str ".." ∉ (((relPath conf dst).drop n).splitOn slashChar).tail := by
    intro hmem
    have := tail_splitOn_subset ((relPath conf dst).take n) _ hmem
    rw [List.take_append_drop] at this
    exact not_hasDotDot_relPath hdots this
  rw [HasDotDot, mem_splitOn_append_iff htail, not_or]

/-- What is left of the target has the place of the common directory in the document root. -/
theorem inRoot_cut_iff {conf : ResponseConf} (hroot : conf.documentRoot.string ≠ [])
    {path dst front : Bytes} (hdst : dst = [] ∨ dst.head? = some slashChar) :
    InRoot conf dst (front ++ (relPath conf dst).drop (commonDir path dst)) ↔
      front = rootDir conf ++ (relPath conf path).take (commonDir path dst) ∨
        dst = [] ∧ front = bufferAppendSlash conf.documentRoot.string := by
  have hcancel : front ++ (relPath conf dst).drop (commonDir path dst) =
      rootDir conf ++ relPath conf dst ↔
      front = rootDir conf ++ (relPath conf path).take (commonDir path dst) := by
    rw [take_commonDir_relPath]
    nth_rewrite 2 [← List.take_append_drop (commonDir path dst) (relPath conf dst)]
    rw [← List.append_assoc]
    exact List.append_left_inj _
  rw [InRoot, hcancel]
  rcases hdst with rfl | hhead
  · simp [belowRoot, relPath, bufferToLower]
  · have hne : dst ≠ [] := by
      rintro rfl
      cases hhead
    rw [appendSlash_belowRoot hroot hhead, hcancel]
    simp [hne]

/-- The path of the alias handler that the destination path is made from. -/
theorem modAliasPhysicalHandler_relPath {aliases : DataArray Buffer} {front : FrontBytes}
    (hroot : conf.documentRoot.string ≠ []) (hhead : path.head? = some slashChar)
    (hnul : (0 : UInt8) ∉ path)
    (hds : aliasFor conf aliases (aliasUri front (requestPhysical conf path)) = some ds) :
    ds.key.string.length ≤ path.length ∧
      modAliasPhysicalHandler conf aliases front (requestPhysical conf path) =
        { requestPhysical conf path with
          basedir := ds.value
          path := ds.value.string ++ (relPath conf path).drop ds.key.string.length } := by
  have huri := aliasUri_eq_relPath hroot front hhead
  have hlen : ds.key.string.length ≤ (relPath conf path).length := by
    have hmatch := List.find?_some (huri ▸ hds)
    simp only [aliasMatches, Bool.and_eq_true, decide_eq_true_eq] at hmatch
    exact hmatch.1.1
  rw [length_relPath] at hlen
  refine ⟨hlen, ?_⟩
  rw [huri] at hds
  simp only [modAliasPhysicalHandler, aliasRest, huri, hds]
  rw [cstr_of_notMem fun h0 => notMem_relPath hnul (List.mem_of_mem_drop h0)]

theorem destinationPhysical_unaliased {conf : ResponseConf}
    (hroot : conf.documentRoot.string ≠ []) {path dst : Bytes}
    (hhead : path.head? = some slashChar) :
    InRoot conf dst (destinationPhysical conf (requestPhysical conf path) path dst).path := by
  refine .inl ?_
  have hpath : (requestPhysical conf path).path =
      (rootDir conf ++ (relPath conf path).take (commonDir path dst)) ++
        (relPath conf path).drop (commonDir path dst) := by
    rw [List.append_assoc, List.take_append_drop]
    exact appendSlash_belowRoot hroot hhead
  rw [destinationPhysical_of_append hpath rfl, take_commonDir_relPath, List.append_assoc,
    List.take_append_drop]

/-- For a source that the alias `ds` rewrites. -/
theorem destinationPhysical_aliased_iff (hroot : conf.documentRoot.string ≠ [])
    (hdoc : physical.docRoot = conf.documentRoot) (hpath : physical.path =
      ds.value.string ++ (relPath conf path).drop ds.key.string.length)
    (hrel : physical.relPath = relPath conf path) (hn : ds.key.string.length ≤ path.length)
    (hnul : (0 : UInt8) ∉ path) (hdst : dst = [] ∨ dst.head? = some slashChar)
    (hdots : ¬ HasDotDot dst) :
    StaysInside conf (some ds) path dst (destinationPhysical conf physical path dst).path ↔
      DestinationFits conf (some ds) path dst := by
  have hnul' := @notMem_relPath conf _ hnul
  simp only [StaysInside, DestinationFits, BehindKey, BesideKey, Option.mem_def, Option.some.injEq,
    exists_eq_left']
  rcases le_or_gt ds.key.string.length (commonDir path dst) with hi | hi
  · obtain ⟨htake, hpath'⟩ := destinationPhysical_behindKey hpath hrel hi
    rw [hpath', hasDotDot_target_iff hdots]
    simp [htake, hi]
  have hkey : (relPath conf dst).take ds.key.string.length =
      (relPath conf path).take ds.key.string.length →
      (relPath conf dst).drop (commonDir path dst) =
        ((relPath conf path).take ds.key.string.length).drop (commonDir path dst) ++
          (relPath conf dst).drop ds.key.string.length := by
    intro htake
    have h := List.take_append_drop (ds.key.string.length - commonDir path dst)
      ((relPath conf dst).drop (commonDir path dst))
    rwa [← List.drop_take, List.drop_drop, Nat.add_sub_cancel' hi.le, htake, eq_comm] at h
  by_cases hcut : CutsTarget conf ds.value.string (relPath conf path) ds.key.string.length
      (commonDir path dst)
  · rw [destinationPhysical_cut hpath hrel hn hnul' hi hcut]
    have hroot_iff := @inRoot_cut_iff conf hroot path dst
      (targetFront ds.value.string ds.key.string.length (commonDir path dst)) hdst
    have hbehind : (relPath conf dst).take ds.key.string.length =
        (relPath conf path).take ds.key.string.length →
        (targetFront ds.value.string ds.key.string.length (commonDir path dst) ++
            (relPath conf dst).drop (commonDir path dst) =
          ds.value.string ++ (relPath conf dst).drop ds.key.string.length ↔
        ds.value.string = targetFront ds.value.string ds.key.string.length (commonDir path dst) ++
          ((relPath conf path).take ds.key.string.length).drop (commonDir path dst)) := by
      intro htake
      rw [hkey htake, ← List.append_assoc, List.append_left_inj, eq_comm]
    simp only [hi, hi.not_ge, hcut, not_true_eq_false, false_or, true_and]
    rw [← hroot_iff]
    constructor
    · rintro ⟨hin | ⟨htake, heq⟩, hno⟩
      · exact .inr ⟨hin, fun h => hno ((hin.hasDotDot_iff hroot hdst hdots).mpr h)⟩
      · refine .inl ⟨⟨htake, (hbehind htake).mp heq⟩, ?_⟩
        rwa [heq, hasDotDot_target_iff hdots] at hno
    · rintro (⟨⟨htake, heq⟩, hno⟩ | ⟨hin, hno⟩)
      · have hpath' := (hbehind htake).mpr heq
        refine ⟨.inr ⟨htake, hpath'⟩, ?_⟩
        rw [hpath']
        exact (hasDotDot_target_iff hdots _ _).mpr hno
      · exact ⟨.inl hin, fun h => hno ((hin.hasDotDot_iff hroot hdst hdots).mp h)⟩
  · have hin : InRoot conf dst (destinationPhysical conf physical path dst).path :=
      .inr (hdoc ▸ destinationPhysical_not_cut hpath hrel hn hnul' hi hcut)
    have hbehind : ds.value.string ≠ targetFront ds.value.string ds.key.string.length
        (commonDir path dst) ++
          ((relPath conf path).take ds.key.string.length).drop (commonDir path dst) := fun h =>
      hcut (cutsTarget_of_append (length_relPath conf path ▸ hn) h)
    rw [hin.hasDotDot_iff hroot hdst hdots]
    simp [hin, hi, hcut, hbehind, hi.not_ge]

/-- For every accepted Destination of a request: the destination path stays inside exactly if it
fits the alias of the source. -/
theorem webdavDestination_staysInside_iff {conf : ResponseConf} {aliases : DataArray Buffer}
    {front : FrontBytes} {uri : RequestUri} {destination dst : Bytes} {physical : Physical}
    (hroot : conf.documentRoot.string ≠ []) (hhead : uri.path.head? = some slashChar)
    (hnul : (0 : UInt8) ∉ uri.path)
    (h : webdavDestination conf uri
      (modAliasPhysicalHandler conf aliases front (requestPhysical conf uri.path)) destination =
        .ok (dst, physical)) :
    StaysInside conf (aliasFor conf aliases (aliasUri front (requestPhysical conf uri.path)))
        uri.path dst physical.path ↔
      DestinationFits conf (aliasFor conf aliases (aliasUri front (requestPhysical conf uri.path)))
        uri.path dst := by
  obtain ⟨w, rfl, rfl⟩ : ∃ w, dst = bufferPathSimplify w ∧ physical = destinationPhysical conf
      (modAliasPhysicalHandler conf aliases front (requestPhysical conf uri.path)) uri.path dst := by
    unfold webdavDestination at h
    split at h
    · cases h
    · dsimp only at h
      split_ifs at h
      obtain ⟨rfl, rfl⟩ := Prod.mk.inj (Except.ok.inj h)
      exact ⟨_, rfl, rfl⟩
  have hdots : ¬ HasDotDot (bufferPathSimplify w) := dots_notMem_bufferPathSimplify w
  have hdst : bufferPathSimplify w = [] ∨ (bufferPathSimplify w).head? = some slashChar := by
    by_cases hw : w = []
    · exact Or.inl (by rw [hw]; rfl)
    · exact Or.inr (head_bufferPathSimplify hw)
  cases hds : aliasFor conf aliases (aliasUri front (requestPhysical conf uri.path)) with
  | none =>
    have hphys : modAliasPhysicalHandler conf aliases front (requestPhysical conf uri.path) =
        requestPhysical conf uri.path := by simp only [modAliasPhysicalHandler, hds]
    have hin := @destinationPhysical_unaliased conf hroot _ (bufferPathSimplify w) hhead
    rw [hphys]
    simp [StaysInside, DestinationFits, hin, hin.hasDotDot_iff hroot hdst hdots]
  | some ds =>
    obtain ⟨hn, hphys⟩ := modAliasPhysicalHandler_relPath hroot hhead hnul hds
    rw [hphys]
    exact destinationPhysical_aliased_iff hroot rfl rfl rfl hn hnul hdst hdots

/-- `con->uri` of a request for a path of the host `h`. -/
def davUri (path : Bytes) : RequestUri := ⟨some (str "http"), some (str "h"), path, path, none⟩

/-- The Destination below the alias of the source. -/
theorem webdavDestination_staysInside_below :
    StaysInside (srvConf false) (aliasFor (srvConf false) (oneAlias (str "/dav/") (str "/data/dav/"))
        (aliasUri ⟨0, 0⟩ (requestPhysical (srvConf false) (str "/dav/f")))) (str "/dav/f")
        (str "/dav/g") (str "/data/dav/g") ↔
      DestinationFits (srvConf false)
        (aliasFor (srvConf false) (oneAlias (str "/dav/") (str "/data/dav/"))
          (aliasUri ⟨0, 0⟩ (requestPhysical (srvConf false) (str "/dav/f")))) (str "/dav/f")
        (str "/dav/g") :=
  @webdavDestination_staysInside_iff (srvConf false) (oneAlias (str "/dav/") (str "/data/dav/"))
    ⟨0, 0⟩ (davUri (str "/dav/f")) (str "http://h/dav/./g") (str "/dav/g")
    ⟨some (str "/srv"), some (str "/data/dav/"), str "/dav/g", str "/data/dav/g"⟩
    (by decide +kernel) (by decide +kernel) (by decide +kernel) (by decide +kernel)

/-- The target of the alias ends in the key, and the Destination is put in its place. -/
theorem not_webdavDestination_staysInside :
    ¬ ∀ (conf : ResponseConf) (aliases : DataArray Buffer) (front : FrontBytes) (uri : RequestUri)
        (destination dst : Bytes) (physical : Physical), conf.documentRoot.string ≠ [] →
      uri.path.head? = some slashChar → (0 : UInt8) ∉ uri.path →
      webdavDestination conf uri
        (modAliasPhysicalHandler conf aliases front (requestPhysical conf uri.path)) destination =
          .ok (dst, physical) →
      StaysInside conf (aliasFor conf aliases (aliasUri front (requestPhysical conf uri.path)))
        uri.path dst physical.path := by
  intro h
  have hin := (h (srvConf false) (oneAlias (str "/dav/") (str "/data/dav/")) ⟨0, 0⟩
    (davUri (str "/dav/f")) (str "http://h/x/g") (str "/x/g")
    ⟨some (str "/srv"), some (str "/data/dav/"), str "/x/g", str "/data/x/g"⟩ (by decide +kernel)
    (by decide +kernel) (by decide +kernel) (by decide +kernel)).1
  have halias : aliasFor (srvConf false) (oneAlias (str "/dav/") (str "/data/dav/"))
      (aliasUri ⟨0, 0⟩ (requestPhysical (srvConf false) (str "/dav/f"))) =
      some (aliasElement (str "/dav/") (str "/data/dav/")) := by
    decide +kernel
  rcases hin with (hroot | hroot) | ⟨ds, hds, htake, -⟩
  · exact absurd hroot (by decide +kernel)
  · exact absurd hroot (by decide +kernel)
  · obtain rfl := Option.some.inj (halias.symm.trans hds)
    exact absurd htake (by decide +kernel)

end Lighttpd
