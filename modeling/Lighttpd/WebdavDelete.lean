import Lighttpd.Alias
import Lighttpd.SockAddr

/-!
# The report of a DELETE

`webdav_delete_dir` removes what is in a directory. It returns a flag that every entry sets anew,
and fills a buffer with a `D:response` element for each entry that it could not remove, where the
status line is copied over what the buffer holds. The report is right exactly when there is nothing
to report (`deleteReports_iff`).
-/

namespace Lighttpd

open CString

/-- The errors that `webdav_delete_dir` tells apart. -/
inductive RemoveError
  | eacces
  | eperm
  | other
  deriving DecidableEq, Repr

/-- An entry of a directory, in the order of `readdir`, with what `unlink` and `rmdir` say. `lost` is
an entry of which `stat` fails; `opens` says whether `opendir` succeeds. -/
inductive DirEntry
  | lost (name : Bytes)
  | file (name : Bytes) (unlink : Option RemoveError)
  | dir (name : Bytes) (opens : Bool) (entries : List DirEntry) (rmdir : Option RemoveError)

/-- The path of an entry. -/
def entryRel (rel name : Bytes) : Bytes := bufferAppendSlash rel ++ name

mutual

/-- The entry is there behind the request. A directory is only removed when nothing is in it. -/
def DirEntry.remains : DirEntry → Bool
  | .lost _ => true
  | .file _ unlink => unlink.isSome
  | .dir _ opens entries rmdir =>
    rmdir.isSome || if opens then anyRemains entries else !entries.isEmpty

/-- Some entry is there behind the request. -/
def anyRemains : List DirEntry → Bool
  | [] => false
  | e :: es => e.remains || anyRemains es

end

/-- What `rmdir` says. -/
def rmdirResult (opens : Bool) (entries : List DirEntry) (rmdir : Option RemoveError) :
    Option RemoveError :=
  match rmdir with
  | some e => some e
  | none =>
    if (if opens then anyRemains entries else !entries.isEmpty) then some .other else none

mutual

/-- The entries that are there behind the request, in the order in which they are visited. -/
def DirEntry.remaining (rel : Bytes) : DirEntry → List Bytes
  | .lost name => [entryRel rel name]
  | .file name unlink => if unlink.isSome then [entryRel rel name] else []
  | .dir name opens entries rmdir =>
    (if opens then allRemaining (entryRel rel name) entries else []) ++
      if (rmdirResult opens entries rmdir).isSome then [entryRel rel name] else []

/-- Those of the entries of a directory. -/
def allRemaining (rel : Bytes) : List DirEntry → List Bytes
  | [] => []
  | e :: es => e.remaining rel ++ allRemaining rel es

end

/-! ## The functions -/

/-- What `webdav_delete_dir` reads besides: whether the request is HTTP/1.1, and whether the module
is built with `USE_PROPPATCH` and `stmt_delete_uri` is null. -/
structure DeleteConf where
  http11 : Bool
  noStatement : Bool

/-- `get_http_status_name` for the status of an entry. -/
def getHttpStatusName (status : ℕ) : Bytes :=
  if status = 403 then str "Forbidden" else str "Not Implemented"

/-- The status of an entry that is not removed. -/
def removeStatus : RemoveError → ℕ
  | .eacces => 403
  | .eperm => 403
  | .other => 501

/-- `buffer_copy_string_len`: what the buffer holds is lost. -/
def bufferCopyStringLen (_ : Bytes) (s : Bytes) : Bytes := s

/-- The beginning of an element. -/
def responseStart (rel : Bytes) : Bytes :=
  str "<D:response xmlns:ns0=\"urn:uuid:c2f41010-65b3-11d1-a29f-00aa00c14882/\">\n" ++
    str "<D:href>\n" ++ rel ++ str "</D:href>\n" ++ str "<D:status>\n"

/-- The version in a status line. -/
def statusVersion (conf : DeleteConf) : Bytes :=
  if conf.http11 then str "HTTP/1.1 " else str "HTTP/1.0 "

/-- What is behind the version. -/
def responseEnd (status : ℕ) : Bytes :=
  itostr status ++ str " " ++ getHttpStatusName status ++ str "</D:status>\n" ++
    str "</D:response>\n"

/-- `webdav_gen_response_status_tag`. -/
def webdavGenResponseStatusTag (conf : DeleteConf) (rel : Bytes) (status : ℕ) (b : Bytes) : Bytes :=
  bufferCopyStringLen (b ++ responseStart rel) (statusVersion conf) ++ responseEnd status

/-- `webdav_delete_file`: the flag and the buffer. -/
def webdavDeleteFile (conf : DeleteConf) (rel : Bytes) (unlink : Option RemoveError) (b : Bytes) :
    Bool × Bytes :=
  match unlink with
  | some e => (true, webdavGenResponseStatusTag conf rel (removeStatus e) b)
  | none =>
    if conf.noStatement then (true, webdavGenResponseStatusTag conf rel 403 b) else (false, b)

mutual

/-- A turn of the loop of `webdav_delete_dir`, on `have_multi_status` and the buffer. -/
def deleteTurn (conf : DeleteConf) (rel : Bytes) : DirEntry → Bool × Bytes → Bool × Bytes
  | .lost _, r => r
  | .file name unlink, r => webdavDeleteFile conf (entryRel rel name) unlink r.2
  | .dir name opens entries rmdir, r =>
    let r := if opens then deleteTurns conf (entryRel rel name) entries (false, r.2)
      else (false, r.2)
    match rmdirResult opens entries rmdir with
    | some e =>
      (true, webdavGenResponseStatusTag conf (entryRel rel name) (removeStatus e) r.2)
    | none => r

/-- The loop. -/
def deleteTurns (conf : DeleteConf) (rel : Bytes) : List DirEntry → Bool × Bytes → Bool × Bytes
  | [], r => r
  | e :: es, r => deleteTurns conf rel es (deleteTurn conf rel e r)

end

/-- `webdav_delete_dir` on a directory that `opendir` opens: what it returns, and the buffer. -/
def webdavDeleteDirStatus (conf : DeleteConf) (rel : Bytes) (entries : List DirEntry) (b : Bytes) :
    Bool × Bytes := deleteTurns conf rel entries (false, b)

/-- An element of the report. -/
def responseElement (conf : DeleteConf) (rel : Bytes) (status : ℕ) : Bytes :=
  responseStart rel ++ statusVersion conf ++ responseEnd status

/-- The flag says whether something remains, and then the buffer holds an element for each entry that
does. -/
def DeleteReports (conf : DeleteConf) (rel : Bytes) (entries : List DirEntry) : Prop :=
  let r := webdavDeleteDirStatus conf rel entries []
  (r.1 = true ↔ allRemaining rel entries ≠ []) ∧
    (r.1 = true → ∃ statuses : List ℕ, statuses.length = (allRemaining rel entries).length ∧
      r.2 = (List.zipWith (responseElement conf) (allRemaining rel entries) statuses).flatten)

mutual

/-- The last of the files and the directories without entries that are visited is a file. -/
def DirEntry.endsWithFile : DirEntry → Bool
  | .lost _ => false
  | .file _ _ => true
  | .dir _ opens entries _ => opens && lastIsFile false entries

/-- The same for the entries of a directory; the first argument is for those before. -/
def lastIsFile (before : Bool) : List DirEntry → Bool
  | [] => before
  | e :: es => lastIsFile e.endsWithFile es

end

theorem rmdirResult_isSome (opens : Bool) (entries : List DirEntry) (rmdir : Option RemoveError) :
    (rmdirResult opens entries rmdir).isSome =
      (rmdir.isSome || if opens then anyRemains entries else !entries.isEmpty) := by
  unfold rmdirResult
  cases rmdir with
  | some e => rfl
  | none => split_ifs <;> simp_all

mutual

theorem DirEntry.remaining_eq_nil_iff (rel : Bytes) : ∀ e : DirEntry,
    e.remaining rel = [] ↔ e.remains = false
  | .lost name => by simp [DirEntry.remaining, DirEntry.remains]
  | .file name unlink => by
    cases unlink <;> simp [DirEntry.remaining, DirEntry.remains]
  | .dir name opens entries rmdir => by
    have ih := allRemaining_eq_nil_iff (entryRel rel name) entries
    have hrmdir := rmdirResult_isSome opens entries rmdir
    rw [DirEntry.remaining, DirEntry.remains, ← hrmdir, List.append_eq_nil_iff]
    cases hsome : (rmdirResult opens entries rmdir).isSome with
    | true => simp
    | false =>
      rw [hsome] at hrmdir
      cases opens with
      | false => simp
      | true =>
        simp only [if_true, Bool.false_eq_true, if_false, and_true, iff_true, ih]
        exact (Bool.or_eq_false_iff.mp hrmdir.symm).2

theorem allRemaining_eq_nil_iff (rel : Bytes) : ∀ es : List DirEntry,
    allRemaining rel es = [] ↔ anyRemains es = false
  | [] => by simp [allRemaining, anyRemains]
  | e :: es => by
    rw [allRemaining, anyRemains, List.append_eq_nil_iff, Bool.or_eq_false_iff,
      e.remaining_eq_nil_iff rel, allRemaining_eq_nil_iff rel es]

end

/-! ## The buffer -/

/-- The buffer is as it was, or begins with a version. -/
def BufferKept (b b' : Bytes) : Prop := b' = b ∨ b'.head? = some 72

theorem BufferKept.refl (b : Bytes) : BufferKept b b := .inl rfl

theorem BufferKept.trans {b b' b'' : Bytes} (h : BufferKept b b') (h' : BufferKept b' b'') : BufferKept b b'' := by
  rcases h' with rfl | h'
  · exact h
  · exact .inr h'

theorem bufferKept_webdavGenResponseStatusTag (conf : DeleteConf) (rel : Bytes) (status : ℕ) (b : Bytes) :
    BufferKept b (webdavGenResponseStatusTag conf rel status b) := by
  refine .inr ?_
  unfold webdavGenResponseStatusTag bufferCopyStringLen statusVersion
  split_ifs <;> rfl

theorem bufferKept_webdavDeleteFile (conf : DeleteConf) (rel : Bytes) (unlink : Option RemoveError)
    (b : Bytes) : BufferKept b (webdavDeleteFile conf rel unlink b).2 := by
  unfold webdavDeleteFile
  cases unlink with
  | some e => exact bufferKept_webdavGenResponseStatusTag ..
  | none =>
    dsimp only
    split_ifs
    · exact bufferKept_webdavGenResponseStatusTag ..
    · exact BufferKept.refl b

mutual

theorem bufferKept_deleteTurn (conf : DeleteConf) (rel : Bytes) : ∀ (e : DirEntry) (r : Bool × Bytes),
    BufferKept r.2 (deleteTurn conf rel e r).2
  | .lost name, r => BufferKept.refl r.2
  | .file name unlink, r => bufferKept_webdavDeleteFile conf (entryRel rel name) unlink r.2
  | .dir name opens entries rmdir, r => by
    have hentries : BufferKept r.2 (if opens then deleteTurns conf (entryRel rel name) entries (false, r.2)
        else (false, r.2)).2 := by
      split_ifs
      · exact bufferKept_deleteTurns conf (entryRel rel name) entries (false, r.2)
      · exact BufferKept.refl r.2
    rw [deleteTurn]
    cases rmdirResult opens entries rmdir with
    | some e => exact hentries.trans (bufferKept_webdavGenResponseStatusTag ..)
    | none => exact hentries

theorem bufferKept_deleteTurns (conf : DeleteConf) (rel : Bytes) : ∀ (es : List DirEntry)
    (r : Bool × Bytes), BufferKept r.2 (deleteTurns conf rel es r).2
  | [], r => BufferKept.refl r.2
  | e :: es, r => (bufferKept_deleteTurn conf rel e r).trans
      (bufferKept_deleteTurns conf rel es (deleteTurn conf rel e r))

end

mutual

/-- With nothing left, the flag of an entry tells of a missing statement only. -/
theorem deleteTurn_flag (conf : DeleteConf) (rel : Bytes) : ∀ (e : DirEntry) (r : Bool × Bytes),
    e.remains = false → (deleteTurn conf rel e r).1 = (conf.noStatement && e.endsWithFile)
  | .lost name, r, h => by simp [DirEntry.remains] at h
  | .file name unlink, r, h => by
    cases unlink with
    | some e => simp [DirEntry.remains] at h
    | none =>
      rw [deleteTurn, webdavDeleteFile, DirEntry.endsWithFile, Bool.and_true]
      cases conf.noStatement <;> rfl
  | .dir name opens entries rmdir, r, h => by
    rw [DirEntry.remains, ← rmdirResult_isSome] at h
    have hnone : rmdirResult opens entries rmdir = none := by simpa using h
    rw [rmdirResult_isSome, Bool.or_eq_false_iff] at h
    rw [deleteTurn, hnone, DirEntry.endsWithFile]
    cases opens with
    | false => simp
    | true =>
      have hflag := deleteTurns_flag conf (entryRel rel name) entries false r.2 (by simpa using h.2)
      simpa using hflag

theorem deleteTurns_flag (conf : DeleteConf) (rel : Bytes) : ∀ (es : List DirEntry) (before : Bool)
    (b : Bytes), anyRemains es = false →
    (deleteTurns conf rel es (conf.noStatement && before, b)).1 =
      (conf.noStatement && lastIsFile before es)
  | [], before, b, _ => by rw [deleteTurns, lastIsFile]
  | e :: es, before, b, h => by
    rw [anyRemains, Bool.or_eq_false_iff] at h
    have hflag := deleteTurn_flag conf rel e (conf.noStatement && before, b) h.1
    have hrest := deleteTurns_flag conf rel es e.endsWithFile
      (deleteTurn conf rel e (conf.noStatement && before, b)).2 h.2
    rw [deleteTurns, lastIsFile, ← hrest, ← hflag]

end

theorem head?_flatten_elements (conf : DeleteConf) {rels : List Bytes} {statuses : List ℕ}
    (hlen : statuses.length = rels.length) (h : rels ≠ []) :
    (List.zipWith (responseElement conf) rels statuses).flatten.head? = some 60 := by
  cases rels with
  | nil => exact absurd rfl h
  | cons rel rels =>
    cases statuses with
    | nil => simp at hlen
    | cons status statuses => rfl

/-- The report of a DELETE is right exactly when every entry is removed and, where the statement for
the database is missing, the last that is visited is no file. -/
theorem deleteReports_iff (conf : DeleteConf) (rel : Bytes) (entries : List DirEntry) :
    DeleteReports conf rel entries ↔
      allRemaining rel entries = [] ∧ ¬ (conf.noStatement = true ∧ lastIsFile false entries = true) := by
  unfold DeleteReports webdavDeleteDirStatus
  have hkept := bufferKept_deleteTurns conf rel entries (false, [])
  by_cases hnil : allRemaining rel entries = []
  · have hflag := deleteTurns_flag conf rel entries false []
      ((allRemaining_eq_nil_iff rel entries).mp hnil)
    rw [Bool.and_false] at hflag
    simp only [hflag, hnil, Bool.and_eq_true, ne_eq, not_true_eq_false, iff_false, true_and]
    refine ⟨fun h => h.1, fun h => ⟨h, fun h' => absurd h' h⟩⟩
  · refine iff_of_false ?_ fun h => hnil h.1
    rintro ⟨hiff, hbuffer⟩
    obtain ⟨statuses, hlen, heq⟩ := hbuffer (hiff.mpr hnil)
    have hhead := head?_flatten_elements conf hlen hnil
    rw [← heq] at hhead
    rcases hkept with hk | hk
    · rw [hk] at hhead
      cases hhead
    · rw [hk] at hhead
      cases hhead

/-- A directory with a file that must not be removed, and one that may. -/
def partlyRemoved : List DirEntry := [.file (str "a") (some .eacces), .file (str "b") none]

/-- The file `b` sets the flag back, and nothing is reported. -/
theorem not_deleteReports :
    ¬ ∀ (conf : DeleteConf) (rel : Bytes) (entries : List DirEntry),
      DeleteReports conf rel entries := by
  intro h
  obtain ⟨hflag, -⟩ := h ⟨true, false⟩ (str "/d/") partlyRemoved
  exact absurd (hflag.mpr (by decide)) (by decide)

end Lighttpd
