import Lighttpd.WebdavCopy

/-!
# What COPY and MOVE keep

A system call changes the files at one path at most (`OnlyAt`), so that copying a directory changes
them below the destination (`webdavCopyDir_spec`) and deleting one below the source. A directory
that lies apart from its destination is therefore copied from what it was, and it is copied
completely when every entry is found out and the destination has no entries of its own
(`webdavCopyDir_copies`). A file is copied from what it was when its place in the destination is
another one (`moveCopyFile_keeps`).
-/

namespace Lighttpd

open CString PathSegments FileTree

/-! ## What a system call changes -/

/-- The files are the same at all paths but one. -/
def OnlyAt (p : List FileName) (t t' : Files) : Prop := ∀ q, q ≠ p → t'.get q = t.get q

theorem OnlyAt.refl (p : List FileName) (t : Files) : OnlyAt p t t := fun _ _ => rfl

theorem OnlyAt.trans {p : List FileName} {t₁ t₂ t₃ : Files} (h₁ : OnlyAt p t₁ t₂)
    (h₂ : OnlyAt p t₂ t₃) : OnlyAt p t₁ t₃ := fun q hq => (h₂ q hq).trans (h₁ q hq)

theorem onlyAt_set (t : Files) (p : List FileName) (x : Node Bytes) : OnlyAt p t (t.set p x) :=
  fun _ hq => t.get_set_of_ne x hq

theorem onlyAt_remove (t : Files) (p : List FileName) : OnlyAt p t (t.remove p) :=
  fun _ hq => t.get_remove_of_ne hq

section Calls

variable {α : Type} {env : DavEnv} {c : DavCall} {s : Disk}

/-- A call that changes the files fails, or it comes to what it comes to. -/
theorem change_cases (env : DavEnv) (c : DavCall) (f : Files → Except Errno Files) (s : Disk) :
    (∃ e, s.change env c f = (.error e, ⟨s.files, s.calls + 1⟩)) ∨
      ∃ t, f s.files = .ok t ∧ s.change env c f = (.ok (), ⟨t, s.calls + 1⟩) := by
  unfold Disk.change Disk.call
  cases env.fails s.calls c with
  | some e => exact .inl ⟨e, rfl⟩
  | none =>
    dsimp only
    cases h : f s.files with
    | error e => exact .inl ⟨e, rfl⟩
    | ok t => exact .inr ⟨t, rfl, rfl⟩

/-- A call that looks at the files fails, or it comes to what it comes to. -/
theorem look_cases (env : DavEnv) (c : DavCall) (f : Files → Except Errno α) (s : Disk) :
    (∃ e, s.look env c f = (.error e, ⟨s.files, s.calls + 1⟩)) ∨
      ∃ a, f s.files = .ok a ∧ s.look env c f = (.ok a, ⟨s.files, s.calls + 1⟩) := by
  unfold Disk.look Disk.call
  cases env.fails s.calls c with
  | some e => exact .inl ⟨e, rfl⟩
  | none =>
    dsimp only
    cases h : f s.files with
    | error e => exact .inl ⟨e, rfl⟩
    | ok a => exact .inr ⟨a, rfl, rfl⟩

theorem look_of_fails (f : Files → Except Errno α) (h : env.fails s.calls c = none) :
    s.look env c f = (f s.files, ⟨s.files, s.calls + 1⟩) := by
  unfold Disk.look Disk.call
  rw [h]
  dsimp only
  cases f s.files <;> rfl

theorem change_of_fails (f : Files → Except Errno Files) (h : env.fails s.calls c = none) :
    s.change env c f = (match f s.files with
      | .error e => (.error e, ⟨s.files, s.calls + 1⟩)
      | .ok t => (.ok (), ⟨t, s.calls + 1⟩)) := by
  unfold Disk.change Disk.call
  rw [h]
  dsimp only
  cases f s.files <;> rfl

theorem change_onlyAt {p : List FileName} {f : Files → Except Errno Files}
    (hf : ∀ t, f s.files = .ok t → OnlyAt p s.files t) :
    OnlyAt p s.files (s.change env c f).2.files := by
  rcases change_cases env c f s with ⟨e, h⟩ | ⟨t, ht, h⟩
  · rw [h]
    exact OnlyAt.refl _ _
  · rw [h]
    exact hf t ht

end Calls

variable {t t' : Files} {path c dst src : Bytes} {env : DavEnv} {overwrite move : Bool}
  {s s' : Disk} {p S D P : List FileName} {n name : FileName}
  {copyDir : Bytes → Bytes → Disk → Option (ℕ × Disk)} {status : ℕ}
  {entry : FileName → Disk → Option (ℕ × Disk)} {I : Files → Prop}

theorem Files.mkdir_eq_ok (h : t.mkdir path = .ok t') :
    t.get (pathNames path) = none ∧ t'.get (pathNames path) = some .dir ∧
      OnlyAt (pathNames path) t t' := by
  unfold Files.mkdir at h
  dsimp only at h
  split at h
  · cases h
  · next hget =>
    split_ifs at h with hdir
    obtain rfl := Except.ok.inj h
    have hne : pathNames path ≠ [] := fun h => by rw [h] at hget; cases hget
    exact ⟨hget, Tree.get_set_self _ hne hdir (by rw [hget]; simp),
      onlyAt_set _ _ _⟩

theorem Files.openWrite_eq_ok {excl : Bool} (h : t.openWrite path excl = .ok t') :
    t.get (pathNames path) ≠ some .dir ∧ t'.get (pathNames path) = some (.file []) ∧
      OnlyAt (pathNames path) t t' := by
  have hset : t.get (pathNames path) ≠ some .dir →
      t.get (pathNames path).dropLast = some .dir →
      (t.set (pathNames path) (.file [])).get (pathNames path) = some (.file []) := by
    intro hold hdir
    refine Tree.get_set_self _ (fun h => hold ?_) hdir hold
    rw [h]
    rfl
  unfold Files.openWrite at h
  dsimp only at h
  split at h
  · cases h
  · next c hget =>
    split_ifs at h
    obtain rfl := Except.ok.inj h
    have hold : t.get (pathNames path) ≠ some .dir := by rw [hget]; simp
    have hne : pathNames path ≠ [] := fun h => by rw [h] at hget; cases hget
    have hdir : t.get (pathNames path).dropLast = some .dir := by
      refine Tree.get_parent (n := (pathNames path).getLast hne) ?_
      simp [List.dropLast_append_getLast, hget]
    exact ⟨hold, hset hold hdir, onlyAt_set _ _ _⟩
  · next hget =>
    split_ifs at h with hdir
    obtain rfl := Except.ok.inj h
    have hold : t.get (pathNames path) ≠ some .dir := by rw [hget]; simp
    exact ⟨hold, hset hold (not_not.mp hdir), onlyAt_set _ _ _⟩

theorem Files.append_spec (bytes : Bytes) (h : t.get (pathNames path) = some (.file c)) :
    (t.append path bytes).get (pathNames path) = some (.file (c ++ bytes)) ∧
      OnlyAt (pathNames path) t (t.append path bytes) := by
  have hne : pathNames path ≠ [] := fun hnil => by rw [hnil] at h; cases h
  have hdir : t.get (pathNames path).dropLast = some .dir := by
    refine Tree.get_parent (n := (pathNames path).getLast hne) ?_
    simp [List.dropLast_append_getLast, h]
  simp only [Files.append, h]
  exact ⟨Tree.get_set_self _ hne hdir (by rw [h]; simp), onlyAt_set _ _ _⟩

theorem Files.append_onlyAt (t : Files) (path bytes : Bytes) :
    OnlyAt (pathNames path) t (t.append path bytes) := by
  unfold Files.append
  split
  · exact onlyAt_set _ _ _
  · exact OnlyAt.refl _ _

theorem Files.unlink_onlyAt (h : t.unlink path = .ok t') : OnlyAt (pathNames path) t t' := by
  unfold Files.unlink at h
  split at h
  · obtain rfl := Except.ok.inj h
    exact onlyAt_remove _ _
  · cases h
  · cases h

theorem Files.rmdir_onlyAt (h : t.rmdir path = .ok t') : OnlyAt (pathNames path) t t' := by
  unfold Files.rmdir at h
  dsimp only at h
  split_ifs at h
  obtain rfl := Except.ok.inj h
  exact onlyAt_remove _ _

theorem Files.stat_eq_ok {x : Node Bytes} (h : t.stat path = .ok x) :
    t.get (pathNames path) = some x := by
  unfold Files.stat at h
  split at h
  · cases h
  · next hget =>
    rw [hget, Except.ok.inj h]
  · next c hget =>
    split_ifs at h
    rw [hget, Except.ok.inj h]

/-! ## `webdav_copy_file` -/

theorem writeLoop_onlyAt (env : DavEnv) (dst : Bytes) :
    ∀ (n : ℕ) (piece : Bytes) (s : Disk),
      OnlyAt (pathNames dst) s.files (writeLoop env dst n piece s).2.files
  | 0, _, _ => OnlyAt.refl _ _
  | n + 1, piece, s => by
    unfold writeLoop
    split_ifs
    · exact OnlyAt.refl _ _
    dsimp only
    rcases change_cases env (.write (pathNames dst)) (fun t => .ok (t.append dst
      (piece.take (max 1 (min (env.writeLength s.calls) piece.length))))) s with
      ⟨e, h⟩ | ⟨t, ht, h⟩
    · rw [h]
      exact OnlyAt.refl _ _
    · rw [h]
      obtain rfl := Except.ok.inj ht
      exact (s.files.append_onlyAt dst _).trans (writeLoop_onlyAt env dst n _ _)

theorem writeLoop_content :
    ∀ {n : ℕ} {piece c : Bytes} {s s' : Disk}, piece.length ≤ n →
      s.files.get (pathNames dst) = some (.file c) → writeLoop env dst n piece s = (none, s') →
      s'.files.get (pathNames dst) = some (.file (c ++ piece))
  | 0, piece, c, s, s', hn, hget, h => by
    obtain rfl : s = s' := (Prod.mk.inj h).2
    rw [List.eq_nil_of_length_eq_zero (Nat.le_zero.mp hn), List.append_nil, hget]
  | n + 1, piece, c, s, s', hn, hget, h => by
    unfold writeLoop at h
    split_ifs at h with hnil
    · obtain rfl : s = s' := (Prod.mk.inj h).2
      rw [hnil, List.append_nil, hget]
    dsimp only at h
    generalize hk : max 1 (min (env.writeLength s.calls) piece.length) = k at h
    rcases change_cases env (.write (pathNames dst))
      (fun t => .ok (t.append dst (piece.take k))) s with ⟨e, he⟩ | ⟨t, ht, he⟩
    · rw [he] at h
      cases (Prod.mk.inj h).1
    · rw [he] at h
      obtain rfl := Except.ok.inj ht
      have hlen : (piece.drop k).length ≤ n := by
        rw [List.length_drop]
        omega
      have := writeLoop_content hlen (Files.append_spec (piece.take k) hget).1 h
      rwa [List.append_assoc, List.take_append_drop] at this

theorem le_writeStatus (e : Errno) : 400 ≤ writeStatus e := by
  unfold writeStatus
  split_ifs <;> decide

theorem le_openStatus (e : Errno) : 400 ≤ openStatus e := by
  cases e <;> decide

/-- What the copy functions return: zero or an error. -/
def CopyStatus (status : ℕ) : Prop := status = 0 ∨ 400 ≤ status

theorem copyLoop_spec (env : DavEnv) (src dst : Bytes) : ∀ (n : ℕ) (data : Bytes) (s : Disk),
    OnlyAt (pathNames dst) s.files (copyLoop env src dst n data s).2.files ∧
      CopyStatus (copyLoop env src dst n data s).1
  | 0, _, _ => ⟨OnlyAt.refl _ _, .inl rfl⟩
  | n + 1, data, s => by
    unfold copyLoop
    rcases look_cases env (.read (pathNames src)) (fun _ => .ok ()) s with ⟨e, h⟩ | ⟨a, ha, h⟩
    · rw [h]
      exact ⟨OnlyAt.refl _ _, .inr (show 400 ≤ 403 by decide)⟩
    rw [h]
    dsimp only
    split_ifs
    · exact ⟨OnlyAt.refl _ _, .inl rfl⟩
    generalize max 1 (min (min (env.readLength (s.calls + 1)) 131072) data.length) = k
    have hwrite := writeLoop_onlyAt env dst k (data.take k) ⟨s.files, s.calls + 1⟩
    generalize writeLoop env dst k (data.take k) ⟨s.files, s.calls + 1⟩ = r at hwrite ⊢
    obtain ⟨_ | e, s'⟩ := r
    · have hrest := copyLoop_spec env src dst n (data.drop k) s'
      exact ⟨hwrite.trans hrest.1, hrest.2⟩
    · exact ⟨hwrite, .inr (le_writeStatus e)⟩

theorem copyLoop_content :
    ∀ {n : ℕ} {data c : Bytes} {s s' : Disk}, data.length < n →
      s.files.get (pathNames dst) = some (.file c) → copyLoop env src dst n data s = (0, s') →
      s'.files.get (pathNames dst) = some (.file (c ++ data))
  | n + 1, data, c, s, s', hn, hget, h => by
    unfold copyLoop at h
    rcases look_cases env (.read (pathNames src)) (fun _ => .ok ()) s with ⟨e, he⟩ | ⟨a, ha, he⟩
    · rw [he] at h
      cases (Prod.mk.inj h).1
    rw [he] at h
    dsimp only at h
    split_ifs at h with hnil
    · obtain rfl := (Prod.mk.inj h).2
      rw [hnil, List.append_nil, hget]
    generalize hk : max 1 (min (min (env.readLength (s.calls + 1)) 131072) data.length) = k at h
    cases hw : writeLoop env dst k (data.take k) ⟨s.files, s.calls + 1⟩ with
    | mk r s₁ =>
      rw [hw] at h
      cases r with
      | some e => exact absurd (Prod.mk.inj h).1 (ne_of_gt (Nat.lt_of_lt_of_le (by decide) (le_writeStatus e)))
      | none =>
        have hpos := List.length_pos_of_ne_nil hnil
        have hlen : (data.drop k).length < n := by
          rw [List.length_drop]
          omega
        have hpiece := writeLoop_content (s := ⟨s.files, s.calls + 1⟩)
          (List.length_take_le k data) hget hw
        have := copyLoop_content hlen hpiece h
        rwa [List.append_assoc, List.take_append_drop] at this

theorem webdavCopyFile_spec (env : DavEnv) (overwrite : Bool) (src dst : Bytes) (s : Disk) :
    OnlyAt (pathNames dst) s.files (webdavCopyFile env overwrite src dst s).2.files ∧
      CopyStatus (webdavCopyFile env overwrite src dst s).1 := by
  unfold webdavCopyFile
  rcases look_cases env (.openSource (pathNames src)) (fun t => t.stat src) s with
    ⟨e, h⟩ | ⟨a, ha, h⟩
  · rw [h]
    exact ⟨OnlyAt.refl _ _, .inr (show 400 ≤ 403 by decide)⟩
  rw [h]
  dsimp only
  rcases change_cases env (.openDestination (pathNames dst)) (fun t => t.openWrite dst (!overwrite))
    ⟨s.files, s.calls + 1⟩ with ⟨e, h⟩ | ⟨t, ht, h⟩
  · rw [h]
    exact ⟨OnlyAt.refl _ _, .inr (le_openStatus e)⟩
  rw [h]
  dsimp only
  have hopen := (Files.openWrite_eq_ok ht).2.2
  obtain ⟨hcopy, hzero⟩ := copyLoop_spec env src dst ((t.content src).length + 1) (t.content src)
    ⟨t, s.calls + 1 + 1⟩
  generalize copyLoop env src dst ((t.content src).length + 1) (t.content src)
    ⟨t, s.calls + 1 + 1⟩ = r at hcopy hzero ⊢
  obtain ⟨status, s₁⟩ := r
  rcases look_cases env (.close (pathNames dst)) (fun _ => .ok ()) s₁ with ⟨e, h⟩ | ⟨a, -, h⟩
  · rw [h]
    refine ⟨hopen.trans hcopy, ?_⟩
    dsimp only
    split_ifs
    · exact .inr (le_writeStatus e)
    · exact hzero
  · rw [h]
    exact ⟨hopen.trans hcopy, hzero⟩

/-- A file that was copied with status zero onto another path. -/
theorem webdavCopyFile_content (hsrc : s.files.get (pathNames src) = some (.file c))
    (hne : pathNames src ≠ pathNames dst) (h : webdavCopyFile env overwrite src dst s = (0, s')) :
    s'.files.get (pathNames dst) = some (.file c) := by
  unfold webdavCopyFile at h
  rcases look_cases env (.openSource (pathNames src)) (fun t => t.stat src) s with
    ⟨e, he⟩ | ⟨a, ha, he⟩
  · rw [he] at h
    cases (Prod.mk.inj h).1
  rw [he] at h
  dsimp only at h
  rcases change_cases env (.openDestination (pathNames dst)) (fun t => t.openWrite dst (!overwrite))
    ⟨s.files, s.calls + 1⟩ with ⟨e, he⟩ | ⟨t, ht, he⟩
  · rw [he] at h
    exact absurd (Prod.mk.inj h).1 (ne_of_gt (Nat.lt_of_lt_of_le (by decide) (le_openStatus e)))
  rw [he] at h
  dsimp only at h
  obtain ⟨-, hopen, hsame⟩ := Files.openWrite_eq_ok ht
  have hdata : t.content src = c := by
    rw [Files.content, hsame _ hne, hsrc]
  rw [hdata] at h
  cases hcopy : copyLoop env src dst (c.length + 1) c ⟨t, s.calls + 1 + 1⟩ with
  | mk status s₁ =>
    rw [hcopy] at h
    dsimp only at h
    rcases look_cases env (.close (pathNames dst)) (fun _ => .ok ()) s₁ with ⟨e, he⟩ | ⟨a, -, he⟩
    · rw [he] at h
      dsimp only at h
      split_ifs at h with hstatus
      · exact absurd (Prod.mk.inj h).1 (ne_of_gt (Nat.lt_of_lt_of_le (by decide) (le_writeStatus e)))
      · exact absurd (Prod.mk.inj h).1 hstatus
    · rw [he] at h
      obtain ⟨rfl, rfl⟩ := Prod.mk.inj h
      exact copyLoop_content (Nat.lt_succ_self _) hopen hcopy

/-! ## `webdav_copy_dir` -/

/-- The files are the same at all paths that do not lie at or below a path. -/
def OnlyFrom (p : List FileName) (t t' : Files) : Prop := ∀ q, ¬ p <+: q → t'.get q = t.get q

/-- The files are the same at all paths that do not lie below a path. -/
def OnlyBelow (p : List FileName) (t t' : Files) : Prop :=
  ∀ q, (∀ n, ¬ p ++ [n] <+: q) → t'.get q = t.get q

theorem OnlyFrom.trans {p : List FileName} {t₁ t₂ t₃ : Files} (h₁ : OnlyFrom p t₁ t₂)
    (h₂ : OnlyFrom p t₂ t₃) : OnlyFrom p t₁ t₃ := fun q hq => (h₂ q hq).trans (h₁ q hq)

theorem OnlyBelow.trans {p : List FileName} {t₁ t₂ t₃ : Files} (h₁ : OnlyBelow p t₁ t₂)
    (h₂ : OnlyBelow p t₂ t₃) : OnlyBelow p t₁ t₃ := fun q hq => (h₂ q hq).trans (h₁ q hq)

theorem OnlyAt.onlyFrom (h : OnlyAt p t t') :
    OnlyFrom p t t' := fun q hq => h q fun he => hq (he ▸ List.prefix_refl p)

theorem OnlyBelow.onlyFrom (h : OnlyBelow p t t') :
    OnlyFrom p t t' := fun q hq => h q fun n hn => hq ((List.prefix_append p [n]).trans hn)

theorem OnlyFrom.onlyBelow (h : OnlyFrom (p ++ [n]) t t') :
    OnlyBelow p t t' := fun q hq => h q (hq n)

/-- What an entry changes lies at or below its path in the destination. -/
theorem copyEntry_spec (hrec : ∀ {src dst s s' status}, copyDir src dst s = some (status, s') →
      OnlyBelow (pathNames dst) s.files s'.files ∧ CopyStatus status)
    (h : copyEntry env overwrite copyDir src dst name s = some (status, s')) :
    OnlyFrom (pathNames dst ++ [name]) s.files s'.files ∧ CopyStatus status := by
  unfold copyEntry at h
  dsimp only at h
  rw [← pathNames_entryPath]
  rcases look_cases env (.statEntry (pathNames (entryPath src name)))
    (fun t => t.stat (entryPath src name)) s with ⟨e, he⟩ | ⟨x, hx, he⟩
  · rw [he] at h
    obtain ⟨rfl, rfl⟩ := Prod.mk.inj (Option.some.inj h)
    exact ⟨(OnlyAt.refl _ _).onlyFrom, .inl rfl⟩
  rw [he] at h
  cases x with
  | file c =>
    have := webdavCopyFile_spec env overwrite (entryPath src name) (entryPath dst name)
      ⟨s.files, s.calls + 1⟩
    rw [Option.some.inj h] at this
    exact ⟨this.1.onlyFrom, this.2⟩
  | dir =>
    dsimp only at h
    have hmkdir := @change_onlyAt env (.mkdirEntry (pathNames (entryPath dst name)))
      ⟨s.files, s.calls + 1⟩ _ (fun t => t.mkdir (entryPath dst name))
      fun t ht => (Files.mkdir_eq_ok ht).2.2
    generalize Disk.change env (.mkdirEntry (pathNames (entryPath dst name)))
      (fun t => t.mkdir (entryPath dst name)) ⟨s.files, s.calls + 1⟩ = r at h hmkdir
    obtain ⟨r, s₁⟩ := r
    have hskip : some (0, s₁) = some (status, s') →
        OnlyFrom (pathNames (entryPath dst name)) s.files s'.files ∧ CopyStatus status := by
      intro hskip
      obtain ⟨rfl, rfl⟩ := Prod.mk.inj (Option.some.inj hskip)
      exact ⟨hmkdir.onlyFrom, .inl rfl⟩
    have hgo : (if env.usePropPatch then copyDir (entryPath src name) (entryPath dst name) s₁
        else some (0, s₁)) = some (status, s') →
        OnlyFrom (pathNames (entryPath dst name)) s.files s'.files ∧ CopyStatus status := by
      intro hgo
      split_ifs at hgo
      · exact ⟨hmkdir.onlyFrom.trans (hrec hgo).1.onlyFrom, (hrec hgo).2⟩
      · exact hskip hgo
    rcases r with e | _
    · cases e
      case eexist => exact hgo h
      all_goals exact hskip h
    · exact hgo h

theorem copyEntries_spec (hentry : ∀ {name s s' status}, entry name s = some (status, s') →
      OnlyFrom (p ++ [name]) s.files s'.files ∧ CopyStatus status) :
    ∀ {names : List FileName} {s s' : Disk} {status : ℕ},
      copyEntries entry names s = some (status, s') →
      OnlyBelow p s.files s'.files ∧ CopyStatus status
  | [], s, s', status, h => by
    obtain ⟨rfl, rfl⟩ := Prod.mk.inj (Option.some.inj h)
    exact ⟨fun q _ => rfl, .inl rfl⟩
  | name :: names, s, s', status, h => by
    unfold copyEntries at h
    split at h
    · cases h
    · next r s₁ hr =>
      obtain ⟨hfirst, hzero⟩ := hentry hr
      split_ifs at h
      · obtain ⟨rfl, rfl⟩ := Prod.mk.inj (Option.some.inj h)
        exact ⟨hfirst.onlyBelow, hzero⟩
      · have hrest := copyEntries_spec hentry h
        exact ⟨hfirst.onlyBelow.trans hrest.1, hrest.2⟩

/-- What `webdav_copy_dir` changes lies below the destination. -/
theorem webdavCopyDir_spec : ∀ {n : ℕ} {src dst : Bytes} {s s' : Disk} {status : ℕ},
    webdavCopyDir env overwrite n src dst s = some (status, s') →
      OnlyBelow (pathNames dst) s.files s'.files ∧ CopyStatus status
  | n + 1, src, dst, s, s', status, h => by
    unfold webdavCopyDir at h
    rcases look_cases env (.opendir (pathNames src)) (fun t => t.opendir src) s with
      ⟨e, he⟩ | ⟨names, -, he⟩
    · rw [he] at h
      obtain ⟨rfl, rfl⟩ := Prod.mk.inj (Option.some.inj h)
      exact ⟨fun q _ => rfl, .inl rfl⟩
    · rw [he] at h
      have hentry : ∀ {name s s' status}, copyEntry env overwrite (webdavCopyDir env overwrite n)
          src dst name s = some (status, s') →
          OnlyFrom (pathNames dst ++ [name]) s.files s'.files ∧ CopyStatus status :=
        fun h => copyEntry_spec (fun h => webdavCopyDir_spec h) h
      exact copyEntries_spec hentry (s := ⟨s.files, s.calls + 1⟩) h

theorem deleteEntry_onlyFrom {deleteDir : Bytes → Disk → Option Disk}
    (hrec : ∀ {dst s s'}, deleteDir dst s = some s' → OnlyBelow (pathNames dst) s.files s'.files)
    (h : deleteEntry env deleteDir dst name s = some s') :
    OnlyFrom (pathNames dst ++ [name]) s.files s'.files := by
  unfold deleteEntry at h
  dsimp only at h
  rw [← pathNames_entryPath]
  rcases look_cases env (.deleteStat (pathNames (entryPath dst name)))
    (fun t => t.stat (entryPath dst name)) s with ⟨e, he⟩ | ⟨x, -, he⟩
  · rw [he] at h
    obtain rfl := Option.some.inj h
    exact (OnlyAt.refl _ _).onlyFrom
  rw [he] at h
  cases x with
  | dir =>
    obtain ⟨s₁, hs₁, rfl⟩ := Option.map_eq_some_iff.mp h
    exact (hrec hs₁).onlyFrom.trans
      (change_onlyAt fun t ht => Files.rmdir_onlyAt ht).onlyFrom
  | file c =>
    obtain rfl := Option.some.inj h
    exact (change_onlyAt (s := ⟨s.files, s.calls + 1⟩)
      fun t ht => Files.unlink_onlyAt ht).onlyFrom

theorem deleteEntries_onlyBelow {entry : FileName → Disk → Option Disk}
    (hentry : ∀ {name s s'}, entry name s = some s' → OnlyFrom (p ++ [name]) s.files s'.files) :
    ∀ {names : List FileName} {s s' : Disk}, deleteEntries entry names s = some s' →
      OnlyBelow p s.files s'.files
  | [], s, s', h => by
    obtain rfl := Option.some.inj h
    exact fun q _ => rfl
  | name :: names, s, s', h => by
    obtain ⟨s₁, hs₁, hs'⟩ := Option.bind_eq_some_iff.mp h
    exact (hentry hs₁).onlyBelow.trans (deleteEntries_onlyBelow hentry hs')

/-- What `webdav_delete_dir` changes lies below the directory. -/
theorem webdavDeleteDir_onlyBelow :
    ∀ {n : ℕ} {dst : Bytes} {s s' : Disk}, webdavDeleteDir env n dst s = some s' →
      OnlyBelow (pathNames dst) s.files s'.files
  | n + 1, dst, s, s', h => by
    unfold webdavDeleteDir at h
    rcases look_cases env (.deleteOpendir (pathNames dst)) (fun t => t.opendir dst) s with
      ⟨e, he⟩ | ⟨names, -, he⟩
    · rw [he] at h
      obtain rfl := Option.some.inj h
      exact fun q _ => rfl
    · rw [he] at h
      have hentry : ∀ {name s s'}, deleteEntry env (webdavDeleteDir env n) dst name s = some s' →
          OnlyFrom (pathNames dst ++ [name]) s.files s'.files :=
        fun h => deleteEntry_onlyFrom (fun h => webdavDeleteDir_onlyBelow h) h
      exact deleteEntries_onlyBelow hentry (s := ⟨s.files, s.calls + 1⟩) h

/-! ## A copy -/

/-- Neither path lies at or below the other. -/
def Apart (S D : List FileName) : Prop := ¬ S <+: D ∧ ¬ D <+: S

theorem Apart.not_prefix (h : Apart S D) (r : List FileName) : ¬ D <+: S ++ r := fun hp =>
  (List.prefix_or_prefix_of_prefix (List.prefix_append S r) hp).elim h.1 h.2

theorem Apart.symm (h : Apart S D) : Apart D S := ⟨h.2, h.1⟩

theorem Apart.concat (h : Apart S D) (n : FileName) : Apart (S ++ [n]) (D ++ [n]) :=
  ⟨fun hp => h.symm.not_prefix [n] ((List.prefix_append S [n]).trans hp),
    fun hp => h.not_prefix [n] ((List.prefix_append D [n]).trans hp)⟩

/-- What is changed from `D` on is no part of the source. -/
theorem Apart.get_source (h : Apart S D) (hsame : OnlyFrom D t t') (r : List FileName) :
    t'.get (S ++ r) = t.get (S ++ r) :=
  hsame _ (h.not_prefix r)

/-- The directory at `D` has entries only where the one at `S` has some, and directories where it
has directories. -/
def Fits (t : Files) (S D : List FileName) : Prop :=
  ∀ r, r ≠ [] → t.get (D ++ r) ≠ none →
    t.get (S ++ r) ≠ none ∧ (t.get (S ++ r) = some .dir → t.get (D ++ r) = some .dir)

/-- Two directories apart from each other of which one can be copied into the other: no call fails
that finds out what there is to be copied or makes a directory, and the directories in the
directory are copied or have no entries. -/
structure DirFits (env : DavEnv) (S D : List FileName) (t : Files) : Prop where
  apart : Apart S D
  fits : Fits t S D
  quiet : ∀ k r, t.get (S ++ r) ≠ none → env.fails k (.opendir (S ++ r)) = none ∧
    env.fails k (.statEntry (S ++ r)) = none ∧ env.fails k (.mkdirEntry (D ++ r)) = none
  recurses : env.usePropPatch = true ∨ ∀ n m, t.get (S ++ [n, m]) = none

/-- Such directories when both are there. -/
structure CopyReady (env : DavEnv) (S D : List FileName) (t : Files) : Prop
    extends DirFits env S D t where
  source : t.get S = some .dir
  destination : t.get D = some .dir

theorem concat_append (p : List FileName) (n : FileName) (r : List FileName) :
    p ++ [n] ++ r = p ++ n :: r := by
  rw [List.append_assoc, List.singleton_append]

/-- A directory in the directory is ready when the destination has it too. -/
theorem CopyReady.child (h : CopyReady env S D t) (hprop : env.usePropPatch = true)
    (hsource : t.get (S ++ [n]) = some .dir) (hsame : OnlyAt (D ++ [n]) t t')
    (hdest : t'.get (D ++ [n]) = some .dir) : CopyReady env (S ++ [n]) (D ++ [n]) t' := by
  have hs : ∀ r, t'.get (S ++ [n] ++ r) = t.get (S ++ n :: r) := by
    intro r
    rw [← concat_append S n r]
    exact (h.apart.concat n).get_source hsame.onlyFrom r
  have hd : ∀ r, r ≠ [] → t'.get (D ++ [n] ++ r) = t.get (D ++ n :: r) := by
    intro r hr
    rw [← concat_append D n r]
    refine hsame _ fun he => hr ?_
    exact List.append_right_eq_self.mp he
  refine ⟨⟨h.apart.concat n, ?_, ?_, .inl hprop⟩, ?_, hdest⟩
  · intro r hr hne
    rw [hd r hr] at hne ⊢
    rw [hs]
    exact h.fits (n :: r) (List.cons_ne_nil n r) hne
  · intro k r hne
    rw [hs] at hne
    rw [concat_append, concat_append]
    exact h.quiet k (n :: r) hne
  · have := hs []
    rw [List.append_nil] at this
    rw [this, hsource]

/-- The rest of the directory is ready when an entry was copied. -/
theorem CopyReady.next (h : CopyReady env S D t) (hsame : OnlyFrom (D ++ [n]) t t')
    (hcopy : ∀ r, t'.get (D ++ n :: r) = t.get (S ++ n :: r)) : CopyReady env S D t' := by
  have hs : ∀ r, t'.get (S ++ r) = t.get (S ++ r) :=
    h.apart.get_source fun q hq => hsame q fun hp => hq ((List.prefix_append D [n]).trans hp)
  have hself := hs []
  rw [List.append_nil] at hself
  refine ⟨⟨h.apart, ?_, ?_, ?_⟩, hself.trans h.source, ?_⟩
  · intro r hr hne
    rw [hs]
    cases r with
    | nil => exact absurd rfl hr
    | cons m r =>
      by_cases hmn : m = n
      · rw [hmn, hcopy] at hne ⊢
        exact ⟨hne, id⟩
      · have hd : t'.get (D ++ m :: r) = t.get (D ++ m :: r) := by
          refine hsame _ fun hp => hmn ?_
          have := (List.prefix_append_right_inj D).mp hp
          exact (List.cons_prefix_cons.mp this).1.symm
        rw [hd] at hne ⊢
        exact h.fits (m :: r) hr hne
  · intro k r hne
    rw [hs] at hne
    exact h.quiet k r hne
  · exact h.recurses.imp id fun hflat n m => (hs _).trans (hflat n m)
  · rw [hsame D fun hp => ?_]
    · exact h.destination
    · have := hp.length_le
      rw [List.length_append, List.length_singleton] at this
      omega

theorem endsInDots_entryPath (dir : Bytes) (name : FileName) :
    endsInDots (entryPath dir name) = false := by
  have hname : lastSegment slashChar name.val = name.val := by
    rw [lastSegment, List.splitOn_eq_singleton name.property.2]
    rfl
  have hlast : lastSegment slashChar (entryPath dir name) = name.val := by
    unfold entryPath
    rcases eq_or_ne dir [] with rfl | hdir
    · simpa [bufferAppendSlash] using hname
    · rw [bufferAppendSlash_of_ne_nil hdir, List.append_assoc, List.singleton_append, lastSegment,
        List.splitOn_append_cons_self, List.splitOn_eq_singleton name.property.2,
        List.getLastD_concat]
  rw [endsInDots, hlast]
  exact decide_eq_false name.property.1

theorem Files.stat_entryPath {dir : Bytes} {x : Node Bytes}
    (h : t.get (pathNames dir ++ [name]) = some x) : t.stat (entryPath dir name) = .ok x := by
  rw [← pathNames_entryPath] at h
  unfold Files.stat
  rw [h]
  cases x with
  | dir => rfl
  | file c => simp [endsInDots_entryPath]

theorem get_eq_none_of_entries (h : ∀ m, t.get (p ++ [m]) = none) {r : List FileName} (hr : r ≠ []) :
    t.get (p ++ r) = none := by
  obtain ⟨m, r, rfl⟩ := List.exists_cons_of_ne_nil hr
  rcases eq_or_ne r [] with rfl | hr'
  · exact h m
  · rw [← concat_append p m r]
    exact Tree.get_append (by rw [h m]; simp) hr'

theorem copyEntry_copies (hrec : ∀ {src dst : Bytes} {s s' : Disk},
      CopyReady env (pathNames src) (pathNames dst) s.files →
      copyDir src dst s = some (0, s') →
      ∀ r, s'.files.get (pathNames dst ++ r) = s.files.get (pathNames src ++ r))
    (h : CopyReady env (pathNames src) (pathNames dst) s.files)
    (hname : s.files.get (pathNames src ++ [name]) ≠ none)
    (hcopy : copyEntry env overwrite copyDir src dst name s = some (0, s')) (r : List FileName) :
    s'.files.get (pathNames dst ++ name :: r) = s.files.get (pathNames src ++ name :: r) := by
  obtain ⟨x, hx⟩ := Option.ne_none_iff_exists'.mp hname
  have hsp := pathNames_entryPath src name
  have hdp := pathNames_entryPath dst name
  have hapart := h.apart.concat name
  have hstat := (h.quiet s.calls [name] hname).2.1
  have hmkdir := (h.quiet (s.calls + 1) [name] hname).2.2
  unfold copyEntry at hcopy
  dsimp only at hcopy
  rw [hsp, hdp, look_of_fails _ hstat, Files.stat_entryPath hx] at hcopy
  rw [← concat_append _ name r, ← concat_append _ name r]
  cases x with
  | file c =>
    have hne : pathNames (entryPath src name) ≠ pathNames (entryPath dst name) := by
      rw [hsp, hdp]
      exact fun he => hapart.1 (he ▸ List.prefix_refl _)
    have hget := webdavCopyFile_content (by rw [hsp]; exact hx) hne (Option.some.inj hcopy)
    rw [hdp] at hget
    rcases eq_or_ne r [] with rfl | hr
    · rw [List.append_nil, List.append_nil, hget, hx]
    · rw [Tree.get_append (by rw [hget]; simp) hr, Tree.get_append (by rw [hx]; simp) hr]
  | dir =>
    obtain ⟨t, hsame, hdir, hgo⟩ : ∃ t : Files, OnlyAt (pathNames dst ++ [name]) s.files t ∧
        t.get (pathNames dst ++ [name]) = some .dir ∧
        (if env.usePropPatch then
            copyDir (entryPath src name) (entryPath dst name) ⟨t, s.calls + 1 + 1⟩
          else some (0, ⟨t, s.calls + 1 + 1⟩)) = some (0, s') := by
      dsimp only at hcopy
      rw [change_of_fails (s := ⟨s.files, s.calls + 1⟩) _ hmkdir] at hcopy
      cases hget : s.files.get (pathNames dst ++ [name]) with
      | some y =>
        have hexists : s.files.mkdir (entryPath dst name) = .error .eexist := by
          simp only [Files.mkdir, hdp, hget]
        rw [hexists] at hcopy
        have hfits := h.fits [name] (List.cons_ne_nil name []) (by rw [hget]; simp)
        exact ⟨s.files, OnlyAt.refl _ _, hfits.2 hx, hcopy⟩
      | none =>
        have hmade : s.files.mkdir (entryPath dst name) =
            .ok (s.files.set (pathNames dst ++ [name]) .dir) := by
          simp only [Files.mkdir, hdp, hget, List.dropLast_concat, h.destination, if_true]
        rw [hmade] at hcopy
        have hspec := Files.mkdir_eq_ok hmade
        rw [hdp] at hspec
        exact ⟨_, hspec.2.2, hspec.2.1, hcopy⟩
    have hsource : ∀ r, t.get (pathNames src ++ [name] ++ r) =
        s.files.get (pathNames src ++ [name] ++ r) := hapart.get_source hsame.onlyFrom
    split_ifs at hgo with hprop
    · have hchild := h.child hprop hx hsame hdir
      rw [← hsp, ← hdp] at hchild
      rw [← hdp, hrec hchild hgo, hsp]
      exact hsource r
    · obtain rfl := (Prod.mk.inj (Option.some.inj hgo)).2
      rcases eq_or_ne r [] with rfl | hr
      · rw [List.append_nil, List.append_nil, hdir, hx]
      · have hflat : s.files.get (pathNames src ++ [name] ++ r) = none := by
          refine get_eq_none_of_entries (fun m => ?_) hr
          rw [concat_append]
          exact h.recurses.resolve_left hprop name m
        have hold : t.get (pathNames dst ++ [name] ++ r) =
            s.files.get (pathNames dst ++ [name] ++ r) :=
          hsame _ fun he => hr (List.append_right_eq_self.mp he)
        rw [hflat]
        change t.get (pathNames dst ++ [name] ++ r) = none
        rw [hold]
        by_contra hne
        rw [concat_append] at hne hflat
        exact (h.fits (name :: r) (List.cons_ne_nil name r) hne).1 hflat

/-- The entries that were copied with status zero; nothing else changes below the destination. -/
theorem copyEntries_copies
    (hentry : ∀ {name s s'}, CopyReady env S D s.files → s.files.get (S ++ [name]) ≠ none →
      entry name s = some (0, s') →
      OnlyFrom (D ++ [name]) s.files s'.files ∧
        ∀ r, s'.files.get (D ++ name :: r) = s.files.get (S ++ name :: r)) :
    ∀ {names : List FileName} {s s' : Disk}, CopyReady env S D s.files →
      (∀ n ∈ names, s.files.get (S ++ [n]) ≠ none) → copyEntries entry names s = some (0, s') →
      (∀ n ∈ names, ∀ r, s'.files.get (D ++ n :: r) = s.files.get (S ++ n :: r)) ∧
        ∀ n ∉ names, ∀ r, s'.files.get (D ++ n :: r) = s.files.get (D ++ n :: r)
  | [], s, s', _, _, h => by
    obtain rfl := (Prod.mk.inj (Option.some.inj h)).2
    exact ⟨fun n hn => absurd hn List.not_mem_nil, fun _ _ _ => rfl⟩
  | name :: names, s, s', hready, hnames, h => by
    unfold copyEntries at h
    split at h
    · cases h
    next status s₁ hs₁ =>
    split_ifs at h with hstatus
    · exact absurd (Prod.mk.inj (Option.some.inj h)).1 hstatus
    obtain rfl := not_not.mp hstatus
    obtain ⟨hsame, hcopy⟩ := hentry hready (hnames name List.mem_cons_self) hs₁
    have hsource : ∀ r, s₁.files.get (S ++ r) = s.files.get (S ++ r) :=
      hready.apart.get_source fun q hq =>
        hsame q fun hp => hq ((List.prefix_append D [name]).trans hp)
    have hother : ∀ n, n ≠ name → ∀ r, s₁.files.get (D ++ n :: r) = s.files.get (D ++ n :: r) := by
      intro n hn r
      refine hsame _ fun hp => hn ?_
      exact (List.cons_prefix_cons.mp ((List.prefix_append_right_inj D).mp hp)).1.symm
    obtain ⟨hin, hout⟩ := copyEntries_copies hentry (hready.next hsame hcopy)
      (fun n hn => by rw [hsource]; exact hnames n (List.mem_cons_of_mem name hn)) h
    refine ⟨fun n hn r => ?_, fun n hn r => ?_⟩
    · by_cases hmem : n ∈ names
      · rw [hin n hmem, hsource]
      · obtain rfl : n = name := (List.mem_cons.mp hn).resolve_right hmem
        rw [hout n hmem, hcopy]
    · rw [List.mem_cons, not_or] at hn
      rw [hout n hn.2, hother n hn.1]

theorem webdavCopyDir_copies :
    ∀ {n : ℕ} {src dst : Bytes} {s s' : Disk},
      CopyReady env (pathNames src) (pathNames dst) s.files →
      webdavCopyDir env overwrite n src dst s = some (0, s') →
      ∀ r, s'.files.get (pathNames dst ++ r) = s.files.get (pathNames src ++ r)
  | n + 1, src, dst, s, s', hready, h, r => by
    have hbelow := (webdavCopyDir_spec h).1
    have hself : s'.files.get (pathNames dst) = some .dir := by
      rw [hbelow _ fun n hp => ?_]
      · exact hready.destination
      · have := hp.length_le
        rw [List.length_append, List.length_singleton] at this
        omega
    unfold webdavCopyDir at h
    have hopen := (hready.quiet s.calls [] (by rw [List.append_nil, hready.source]; simp)).1
    rw [List.append_nil] at hopen
    have hnames : s.files.opendir src = .ok (s.files.entries (pathNames src)) := by
      simp only [Files.opendir, Files.stat, hready.source]
    rw [look_of_fails _ hopen, hnames] at h
    obtain ⟨hin, hout⟩ := copyEntries_copies (S := pathNames src) (D := pathNames dst)
      (s := ⟨s.files, s.calls + 1⟩)
      (fun hready hname hs' => ⟨(copyEntry_spec (fun h => webdavCopyDir_spec h) hs').1,
        copyEntry_copies (fun hr hc => webdavCopyDir_copies hr hc) hready hname hs'⟩) hready
      (fun n hn => Tree.mem_entries.mp hn) h
    cases r with
    | nil => rw [List.append_nil, List.append_nil, hself, hready.source]
    | cons n r =>
      by_cases hn : n ∈ s.files.entries (pathNames src)
      · exact hin n hn r
      · rw [hout n hn]
        have hnone : s.files.get (pathNames src ++ n :: r) = none := by
          have hentry := not_not.mp (mt Tree.mem_entries.mpr hn)
          rcases eq_or_ne r [] with rfl | hr
          · exact hentry
          · rw [← concat_append _ n r]
            exact Tree.get_append (by rw [hentry]; simp) hr
        rw [hnone]
        by_contra hne
        exact (hready.fits (n :: r) (List.cons_ne_nil n r) hne).1 hnone

/-! ## The loops end -/

/-- No path below `p` is longer than `p` by `n` names or more. -/
def Shallow (t : Files) (p : List FileName) (n : ℕ) : Prop :=
  ∀ r, t.get (p ++ r) ≠ none → r.length < n

theorem shallow_depth (t : Files) (p : List FileName) : Shallow t p (t.depth + 1) := by
  intro r hr
  have := Tree.length_le_depth hr
  rw [List.length_append] at this
  omega

theorem Shallow.child {n : ℕ} (h : Shallow t p (n + 1)) (name : FileName) :
    Shallow t (p ++ [name]) n := by
  intro r hr
  rw [concat_append] at hr
  exact Nat.lt_of_succ_lt_succ (h (name :: r) hr)

theorem Shallow.pos {n : ℕ} (h : Shallow t p n) (hp : t.get p ≠ none) :
    0 < n := h [] (by rwa [List.append_nil])

theorem copyEntries_isSome (hentry : ∀ name s, I s.files → ∃ r, entry name s = some r ∧ I r.2.files) :
    ∀ (names : List FileName) (s : Disk), I s.files → (copyEntries entry names s).isSome
  | [], _, _ => rfl
  | name :: names, s, hI => by
    obtain ⟨⟨status, s₁⟩, hs₁, hI₁⟩ := hentry name s hI
    unfold copyEntries
    rw [hs₁]
    dsimp only
    split_ifs
    · rfl
    · exact copyEntries_isSome hentry names s₁ hI₁

/-- `webdav_copy_dir` ends when the destination lies outside of the source. -/
theorem webdavCopyDir_isSome {env : DavEnv} {overwrite : Bool} :
    ∀ {n : ℕ} {src dst : Bytes} {s : Disk}, Apart (pathNames src) (pathNames dst) →
      s.files.get (pathNames src) ≠ none → Shallow s.files (pathNames src) n →
      (webdavCopyDir env overwrite n src dst s).isSome
  | 0, src, dst, s, _, hsrc, hdeep => absurd (hdeep.pos hsrc) (Nat.lt_irrefl 0)
  | n + 1, src, dst, s, hapart, hsrc, hdeep => by
    unfold webdavCopyDir
    rcases look_cases env (.opendir (pathNames src)) (fun t => t.opendir src) s with
      ⟨e, he⟩ | ⟨names, -, he⟩
    · rw [he]
      rfl
    rw [he]
    dsimp only
    refine copyEntries_isSome (I := fun t => Shallow t (pathNames src) (n + 1))
      (fun name s hI => ?_) names ⟨s.files, s.calls + 1⟩ hdeep
    have hsome : ∃ r, copyEntry env overwrite (webdavCopyDir env overwrite n) src dst name s =
        some r := by
      unfold copyEntry
      dsimp only
      rcases look_cases env (.statEntry (pathNames (entryPath src name)))
        (fun t => t.stat (entryPath src name)) s with ⟨e, he⟩ | ⟨x, hx, he⟩
      · rw [he]
        exact ⟨_, rfl⟩
      rw [he]
      cases x with
      | file c => exact ⟨_, rfl⟩
      | dir =>
        have hget := Files.stat_eq_ok hx
        rw [pathNames_entryPath] at hget
        dsimp only
        have hmk := @change_onlyAt env
          (.mkdirEntry (pathNames (entryPath dst name))) ⟨s.files, s.calls + 1⟩ _
          (fun t => t.mkdir (entryPath dst name)) fun t ht => (Files.mkdir_eq_ok ht).2.2
        generalize Disk.change env (.mkdirEntry (pathNames (entryPath dst name)))
          (fun t => t.mkdir (entryPath dst name)) ⟨s.files, s.calls + 1⟩ = r at hmk ⊢
        obtain ⟨r, s₁⟩ := r
        rw [pathNames_entryPath] at hmk
        have hsame := (hapart.concat name).get_source hmk.onlyFrom
        have hgo : ∃ r', (if env.usePropPatch then
            webdavCopyDir env overwrite n (entryPath src name) (entryPath dst name) s₁
            else some (0, s₁)) = some r' := by
          split_ifs
          · refine Option.isSome_iff_exists.mp (webdavCopyDir_isSome ?_ ?_ ?_)
            · rw [pathNames_entryPath, pathNames_entryPath]
              exact hapart.concat name
            · have := hsame []
              rw [List.append_nil] at this
              rw [pathNames_entryPath, this, hget]
              simp
            · rw [pathNames_entryPath]
              intro r hr
              rw [hsame] at hr
              exact hI.child name r hr
          · exact ⟨_, rfl⟩
        rcases r with e | _
        · cases e
          case eexist => exact hgo
          all_goals exact ⟨_, rfl⟩
        · exact hgo
    obtain ⟨⟨status, s'⟩, hs'⟩ := hsome
    have hfrom := (copyEntry_spec (fun h => webdavCopyDir_spec h) hs').1
    refine ⟨_, hs', fun r hr => hI r ?_⟩
    have := hapart.get_source
      (fun q hq => hfrom q fun hp => hq ((List.prefix_append _ [name]).trans hp)) r
    rwa [this] at hr

/-- Nothing is made. -/
def OnlyRemoves (t t' : Files) : Prop := ∀ q, t'.get q ≠ none → t.get q ≠ none

theorem OnlyRemoves.trans {t₁ t₂ t₃ : Files} (h₁ : OnlyRemoves t₁ t₂) (h₂ : OnlyRemoves t₂ t₃) :
    OnlyRemoves t₁ t₃ := fun q hq => h₁ q (h₂ q hq)

theorem OnlyRemoves.shallow (h : OnlyRemoves t t') {n : ℕ} (hp : Shallow t p n) :
    Shallow t' p n := fun r hr => hp r (h _ hr)

theorem change_onlyRemoves {c : DavCall} {f : Files → Except Errno Files}
    (hf : ∀ t, f s.files = .ok t → ∃ p, t = s.files.remove p) :
    OnlyRemoves s.files (s.change env c f).2.files := by
  rcases change_cases env c f s with ⟨e, h⟩ | ⟨t, ht, h⟩
  · rw [h]
    exact fun _ => id
  · rw [h]
    obtain ⟨p, rfl⟩ := hf t ht
    exact fun q => Tree.get_of_get_remove

theorem Files.unlink_remove (h : t.unlink path = .ok t') : ∃ p, t' = t.remove p := by
  unfold Files.unlink at h
  split at h
  · exact ⟨_, (Except.ok.inj h).symm⟩
  · cases h
  · cases h

theorem Files.rmdir_remove (h : t.rmdir path = .ok t') : ∃ p, t' = t.remove p := by
  unfold Files.rmdir at h
  dsimp only at h
  split_ifs at h
  exact ⟨_, (Except.ok.inj h).symm⟩

theorem deleteEntries_onlyRemoves {entry : FileName → Disk → Option Disk}
    (hI : ∀ {t t'}, OnlyRemoves t t' → I t → I t')
    (hentry : ∀ name s, I s.files → ∃ s', entry name s = some s' ∧ OnlyRemoves s.files s'.files) :
    ∀ (names : List FileName) (s : Disk), I s.files →
      ∃ s', deleteEntries entry names s = some s' ∧ OnlyRemoves s.files s'.files
  | [], s, _ => ⟨s, rfl, fun _ => id⟩
  | name :: names, s, hs => by
    obtain ⟨s₁, hs₁, h₁⟩ := hentry name s hs
    obtain ⟨s', hs', h'⟩ := deleteEntries_onlyRemoves hI hentry names s₁ (hI h₁ hs)
    refine ⟨s', ?_, h₁.trans h'⟩
    rw [deleteEntries, hs₁]
    exact hs'

/-- `webdav_delete_dir` ends. -/
theorem webdavDeleteDir_isSome {env : DavEnv} :
    ∀ {n : ℕ} {dst : Bytes} {s : Disk}, s.files.get (pathNames dst) ≠ none →
      Shallow s.files (pathNames dst) n →
      ∃ s', webdavDeleteDir env n dst s = some s' ∧ OnlyRemoves s.files s'.files
  | 0, dst, s, hdst, hdeep => absurd (hdeep.pos hdst) (Nat.lt_irrefl 0)
  | n + 1, dst, s, hdst, hdeep => by
    unfold webdavDeleteDir
    rcases look_cases env (.deleteOpendir (pathNames dst)) (fun t => t.opendir dst) s with
      ⟨e, he⟩ | ⟨names, -, he⟩
    · rw [he]
      exact ⟨_, rfl, fun _ => id⟩
    rw [he]
    dsimp only
    refine deleteEntries_onlyRemoves (I := fun t => Shallow t (pathNames dst) (n + 1))
      (fun h => h.shallow) (fun name s hI => ?_) names ⟨s.files, s.calls + 1⟩ hdeep
    unfold deleteEntry
    dsimp only
    rcases look_cases env (.deleteStat (pathNames (entryPath dst name)))
      (fun t => t.stat (entryPath dst name)) s with ⟨e, he⟩ | ⟨x, hx, he⟩
    · rw [he]
      exact ⟨_, rfl, fun _ => id⟩
    rw [he]
    cases x with
    | file c =>
      exact ⟨_, rfl, change_onlyRemoves (s := ⟨s.files, s.calls + 1⟩) fun t ht =>
        Files.unlink_remove ht⟩
    | dir =>
      have hget := Files.stat_eq_ok hx
      have hchild := hI.child name
      rw [← pathNames_entryPath] at hchild
      obtain ⟨s₁, hs₁, h₁⟩ := @webdavDeleteDir_isSome env _ _
        ⟨s.files, s.calls + 1⟩ (by rw [hget]; simp) hchild
      dsimp only
      rw [hs₁]
      exact ⟨_, rfl, h₁.trans (change_onlyRemoves fun t ht => Files.rmdir_remove ht)⟩

/-! ## Nothing is lost -/

/-- What is claimed of a request for the source `S` and its place `P` in the destination. -/
structure KeepsContent (move : Bool) (S P : List FileName) (t t' : Files) (status : ℕ) : Prop where
  copied : move = false → ∀ r, t'.get (S ++ r) = t.get (S ++ r)
  moved : move = true → ∀ r c, t.get (S ++ r) = some (.file c) →
    t'.get (S ++ r) = some (.file c) ∨ t'.get (P ++ r) = some (.file c)
  succeeded : status = 201 ∨ status = 204 → ∀ r, t'.get (P ++ r) = t.get (S ++ r)

theorem keepsContent_failed (hsame : ∀ r, t'.get (S ++ r) = t.get (S ++ r)) (hstatus : 204 < status) :
    KeepsContent move S P t t' status :=
  ⟨fun _ => hsame, fun _ r _ hc => .inl ((hsame r).trans hc), fun h => by omega⟩

theorem keepsContent_file (hS : t.get S = some (.file c))
    (hcopy : move = false → t'.get S = some (.file c))
    (hmove : t'.get S = some (.file c) ∨ t'.get P = some (.file c))
    (hstatus : status = 201 ∨ status = 204 → t'.get P = some (.file c)) :
    KeepsContent move S P t t' status := by
  have hbelow : ∀ {t₁ : Files} {p : List FileName}, t₁.get p = some (.file c) → ∀ {r}, r ≠ [] →
      t₁.get (p ++ r) = none := fun h _ hr => Tree.get_append (by rw [h]; simp) hr
  refine ⟨fun hm r => ?_, fun _ r c' hc => ?_, fun hs r => ?_⟩
  · rcases eq_or_ne r [] with rfl | hr
    · rw [List.append_nil, hcopy hm, hS]
    · rw [hbelow (hcopy hm) hr, hbelow hS hr]
  · rcases eq_or_ne r [] with rfl | hr
    · rw [List.append_nil, hS] at hc
      rw [List.append_nil, List.append_nil, ← hc]
      exact hmove
    · rw [hbelow hS hr] at hc
      cases hc
  · rcases eq_or_ne r [] with rfl | hr
    · rw [List.append_nil, List.append_nil, hstatus hs, hS]
    · rw [hbelow (hstatus hs) hr, hbelow hS hr]

theorem Files.rename_eq_ok {old new : Bytes} (h : t.rename old new = .ok t')
    (hold : t.get (pathNames old) = some (.file c)) (hne : pathNames new ≠ pathNames old) :
    t'.get (pathNames new) = some (.file c) := by
  unfold Files.rename at h
  dsimp only at h
  split at h
  · cases h
  · cases h
  · next c' hstat =>
    have hc := Files.stat_eq_ok hstat
    rw [hold, Option.some.injEq, Node.file.injEq] at hc
    subst hc
    split_ifs at h with hdir hparent hdots hsame
    · exact absurd hsame.symm hne
    · obtain rfl := Except.ok.inj h
      rw [Tree.get_remove_of_ne _ hne]
      refine Tree.get_set_self _ (fun hnil => hdir ?_) (not_not.mp hparent) hdir
      rw [hnil]
      rfl

/-- A directory is not opened for writing, and nothing is renamed to it. -/
theorem moveCopyOnto_dir {env : DavEnv} {move overwrite : Bool} {src dst : Bytes} {s : Disk}
    (hdst : s.files.get (pathNames dst) = some .dir) (status : ℕ) :
    (moveCopyOnto env move overwrite src dst status s).2.files = s.files ∧
      400 ≤ (moveCopyOnto env move overwrite src dst status s).1 := by
  have hopen : ∀ excl, ∃ e, s.files.openWrite dst excl = .error e := by
    intro excl
    refine ⟨if excl then .eexist else .eisdir, ?_⟩
    simp only [Files.openWrite, hdst]
  have hcopy : ∀ calls, (moveCopyData env move overwrite src dst status ⟨s.files, calls⟩).2.files =
      s.files ∧ 400 ≤ (moveCopyData env move overwrite src dst status ⟨s.files, calls⟩).1 := by
    intro calls
    unfold moveCopyData webdavCopyFile
    rcases look_cases env (.openSource (pathNames src)) (fun t => t.stat src) ⟨s.files, calls⟩ with
      ⟨e, h⟩ | ⟨a, -, h⟩
    · rw [h]
      exact ⟨rfl, show 400 ≤ 403 by decide⟩
    rw [h]
    dsimp only
    rcases change_cases env (.openDestination (pathNames dst))
      (fun t => t.openWrite dst (!overwrite)) ⟨s.files, calls + 1⟩ with ⟨e, h⟩ | ⟨t, ht, h⟩
    · rw [h]
      have hle := le_openStatus e
      have hne : openStatus e ≠ 0 := by omega
      dsimp only
      rw [if_pos hne]
      exact ⟨rfl, hle⟩
    · obtain ⟨e, he⟩ := hopen (!overwrite)
      rw [he] at ht
      cases ht
  unfold moveCopyOnto
  split_ifs
  · rcases change_cases env .rename (fun t => t.rename src dst) s with ⟨e, h⟩ | ⟨t, ht, h⟩
    · rw [h]
      exact hcopy _
    · exfalso
      unfold Files.rename at ht
      dsimp only at ht
      split at ht
      · cases ht
      · cases ht
      · rw [if_pos hdst] at ht
        cases ht
  · exact hcopy s.calls

section File

variable {env : DavEnv} {move overwrite : Bool} {src dst c : Bytes} {s : Disk}
  (hsrc : s.files.get (pathNames src) = some (.file c))
include hsrc

/-- The copy of a file onto another path, and what is left of the file. -/
theorem moveCopyData_keeps (hne : pathNames dst ≠ pathNames src) (status : ℕ) :
    KeepsContent move (pathNames src) (pathNames dst) s.files
      (moveCopyData env move overwrite src dst status s).2.files
      (moveCopyData env move overwrite src dst status s).1 := by
  unfold moveCopyData
  obtain ⟨honly, hstatus⟩ := webdavCopyFile_spec env overwrite src dst s
  have hcontent : ∀ s', webdavCopyFile env overwrite src dst s = (0, s') →
      s'.files.get (pathNames dst) = some (.file c) :=
    fun s' h => webdavCopyFile_content hsrc hne.symm h
  generalize webdavCopyFile env overwrite src dst s = r at honly hcontent hstatus ⊢
  obtain ⟨r, s₁⟩ := r
  have hkept : s₁.files.get (pathNames src) = some (.file c) := (honly _ hne.symm).trans hsrc
  dsimp only at hstatus ⊢
  split_ifs with hr hmove
  · refine keepsContent_file hsrc (fun _ => hkept) (.inl hkept) fun h => ?_
    have := hstatus.resolve_left hr
    omega
  · obtain rfl := not_not.mp hr
    have hdst := hcontent _ rfl
    have hunlink : OnlyAt (pathNames src) s₁.files
        (s₁.change env (.deleteUnlink (pathNames src)) fun t => t.unlink src).2.files :=
      change_onlyAt fun t ht => Files.unlink_onlyAt ht
    have hdst' := (hunlink _ hne).trans hdst
    exact keepsContent_file hsrc (fun hm => absurd (hm ▸ hmove) (by decide)) (.inr hdst')
      fun _ => hdst'
  · obtain rfl := not_not.mp hr
    exact keepsContent_file hsrc (fun _ => hkept) (.inl hkept) fun _ => hcontent _ rfl

theorem moveCopyOnto_keeps (hne : pathNames dst ≠ pathNames src) (status : ℕ) :
    KeepsContent move (pathNames src) (pathNames dst) s.files
      (moveCopyOnto env move overwrite src dst status s).2.files
      (moveCopyOnto env move overwrite src dst status s).1 := by
  unfold moveCopyOnto
  split_ifs with hmove
  · rcases change_cases env .rename (fun t => t.rename src dst) s with ⟨e, h⟩ | ⟨t, ht, h⟩
    · rw [h]
      exact moveCopyData_keeps (s := ⟨s.files, s.calls + 1⟩) hsrc hne status
    · rw [h]
      have hdst := Files.rename_eq_ok ht hsrc hne
      exact keepsContent_file hsrc (fun hm => absurd (hm ▸ hmove) (by decide)) (.inr hdst)
        fun _ => hdst
  · exact moveCopyData_keeps hsrc hne status

theorem moveCopyTo_keeps (hne : pathNames dst ≠ pathNames src) (destdir : Bool)
    (r : Except Errno (Node Bytes)) :
    KeepsContent move (pathNames src) (pathNames dst) s.files
      (moveCopyTo env move overwrite src dst destdir r s).2.files
      (moveCopyTo env move overwrite src dst destdir r s).1 := by
  unfold moveCopyTo
  split
  · exact keepsContent_failed (fun _ => rfl) (show 204 < 409 by decide)
  · exact moveCopyOnto_keeps hsrc hne _
  · split_ifs
    · exact moveCopyOnto_keeps hsrc hne _
    · exact keepsContent_failed (fun _ => rfl) (show 204 < 412 by decide)

omit hsrc in
theorem moveCopyTo_dir (hdst : s.files.get (pathNames dst) = some .dir) (destdir : Bool)
    (r : Except Errno (Node Bytes)) (P : List FileName) :
    KeepsContent move (pathNames src) P s.files
      (moveCopyTo env move overwrite src dst destdir r s).2.files
      (moveCopyTo env move overwrite src dst destdir r s).1 := by
  have honto : ∀ status, KeepsContent move (pathNames src) P s.files
      (moveCopyOnto env move overwrite src dst status s).2.files
      (moveCopyOnto env move overwrite src dst status s).1 := by
    intro status
    obtain ⟨hfiles, hle⟩ := @moveCopyOnto_dir env move overwrite
      src _ _ hdst status
    exact keepsContent_failed (fun _ => by rw [hfiles]) (by omega)
  unfold moveCopyTo
  split
  · exact keepsContent_failed (fun _ => rfl) (show 204 < 409 by decide)
  · exact honto _
  · split_ifs
    · exact honto _
    · exact keepsContent_failed (fun _ => rfl) (show 204 < 412 by decide)

end File

/-- The place of a file in the destination. -/
def davPlace (t : Files) (src dst : Bytes) : List FileName :=
  if t.get (pathNames dst) = some .dir ∧ slashChar ∈ src then pathNames (dst ++ davBasename src)
  else pathNames dst

/-- A file is not lost unless its place in the destination is its own. -/
theorem moveCopyFile_keeps (hsrc : s.files.get (pathNames src) = some (.file c))
    (hplace : davPlace s.files src dst ≠ pathNames src) :
    KeepsContent move (pathNames src) (davPlace s.files src dst) s.files
      (moveCopyFile env move overwrite src dst s).2.files
      (moveCopyFile env move overwrite src dst s).1 := by
  have hrest : ∀ (r : Except Errno (Node Bytes)) (destdir : Bool) (calls : ℕ),
      KeepsContent move (pathNames src) (davPlace s.files src dst) s.files
        (moveCopyTo env move overwrite src dst destdir r ⟨s.files, calls⟩).2.files
        (moveCopyTo env move overwrite src dst destdir r ⟨s.files, calls⟩).1 := by
    intro r destdir calls
    by_cases hdir : s.files.get (pathNames dst) = some .dir
    · exact moveCopyTo_dir (s := ⟨s.files, calls⟩) hdir destdir r _
    · have hp : davPlace s.files src dst = pathNames dst := if_neg fun h => hdir h.1
      rw [hp] at hplace ⊢
      exact moveCopyTo_keeps (s := ⟨s.files, calls⟩) hsrc hplace destdir r
  unfold moveCopyFile
  rcases look_cases env .statDestination (fun t => t.stat dst) s with ⟨e, h⟩ | ⟨x, hx, h⟩
  · rw [h]
    exact hrest _ _ _
  rw [h]
  cases x with
  | file c' => exact hrest _ _ _
  | dir =>
    have hdir := Files.stat_eq_ok hx
    dsimp only
    split_ifs with hslash
    · have hp : davPlace s.files src dst = pathNames (dst ++ davBasename src) :=
        if_pos ⟨hdir, hslash⟩
      rw [hp] at hplace ⊢
      rcases look_cases env .statInto (fun t => t.stat (dst ++ davBasename src))
        ⟨s.files, s.calls + 1⟩ with ⟨e, h⟩ | ⟨x, -, h⟩
      · rw [h]
        exact moveCopyTo_keeps (s := ⟨s.files, s.calls + 1 + 1⟩) hsrc hplace true _
      · rw [h]
        exact moveCopyTo_keeps (s := ⟨s.files, s.calls + 1 + 1⟩) hsrc hplace true _
    · exact hrest _ _ _

theorem DirFits.of_onlyAt (h : DirFits env S D t) (hsame : OnlyAt D t t') : DirFits env S D t' := by
  have hs := h.apart.get_source hsame.onlyFrom
  refine ⟨h.apart, fun r hr hne => ?_, fun k r hne => ?_, ?_⟩
  · have hd : t'.get (D ++ r) = t.get (D ++ r) :=
      hsame _ fun he => hr (List.append_right_eq_self.mp he)
    rw [hd] at hne ⊢
    rw [hs]
    exact h.fits r hr hne
  · rw [hs] at hne
    exact h.quiet k r hne
  · exact h.recurses.imp id fun hflat n m => (hs _).trans (hflat n m)

section Directory

variable {env : DavEnv} {move overwrite : Bool} {src dst : Bytes} {t : Files} {s : Disk}
  (hbase : ∀ r, s.files.get (pathNames src ++ r) = t.get (pathNames src ++ r))
include hbase

theorem moveCopyContent_keeps (created : Bool)
    (h : CopyReady env (pathNames src) (pathNames dst) s.files) :
    ∃ status s', moveCopyContent env move overwrite src dst created s = some (status, s') ∧
      KeepsContent move (pathNames src) (pathNames dst) t s'.files status := by
  obtain ⟨⟨r, s₁⟩, hcopy⟩ := Option.isSome_iff_exists.mp (@webdavCopyDir_isSome env
    overwrite _ _ _ _ h.apart (by rw [h.source]; simp)
    (shallow_depth s.files (pathNames src)))
  have hsource := h.apart.get_source (webdavCopyDir_spec hcopy).1.onlyFrom
  have hkept : ∀ r, s₁.files.get (pathNames src ++ r) = t.get (pathNames src ++ r) :=
    fun r => (hsource r).trans (hbase r)
  unfold moveCopyContent
  generalize (if created = true then 201 else 204 : ℕ) = ok
  rw [hcopy]
  dsimp only
  split_ifs with hr hmove
  · refine ⟨_, _, rfl, keepsContent_failed hkept ?_⟩
    have := (webdavCopyDir_spec hcopy).2.resolve_left hr
    omega
  · obtain rfl := not_not.mp hr
    have hcopied : ∀ r, s₁.files.get (pathNames dst ++ r) = t.get (pathNames src ++ r) :=
      fun r => (webdavCopyDir_copies h hcopy r).trans (hbase r)
    have hself : s₁.files.get (pathNames src) ≠ none := by
      have := hsource []
      rw [List.append_nil] at this
      rw [this, h.source]
      simp
    obtain ⟨s₂, hdelete, -⟩ := @webdavDeleteDir_isSome env _ _ _ hself
      (shallow_depth s₁.files (pathNames src))
    have hrmdir : OnlyAt (pathNames src) s₂.files
        (s₂.change env .rmdirSource fun t => t.rmdir src).2.files :=
      change_onlyAt fun t ht => Files.rmdir_onlyAt ht
    have hdst := h.apart.symm.get_source
      ((webdavDeleteDir_onlyBelow hdelete).onlyFrom.trans hrmdir.onlyFrom)
    rw [hdelete]
    refine ⟨_, _, rfl, fun hm => absurd (hm ▸ hmove) (by decide), fun _ r c hc => .inr ?_,
      fun _ r => (hdst r).trans (hcopied r)⟩
    rw [hdst, hcopied, hc]
  · obtain rfl := not_not.mp hr
    exact ⟨_, _, rfl, fun _ => hkept, fun hm => absurd hm hmove,
      fun _ r => (webdavCopyDir_copies h hcopy r).trans (hbase r)⟩

theorem moveCopyCreate_keeps (h : DirFits env (pathNames src) (pathNames dst) s.files)
    (hsrc : s.files.get (pathNames src) = some .dir) :
    ∃ status s', moveCopyCreate env move overwrite src dst s = some (status, s') ∧
      KeepsContent move (pathNames src) (pathNames dst) t s'.files status := by
  unfold moveCopyCreate
  rcases change_cases env .mkdirDestination (fun t => t.mkdir dst) s with ⟨e, he⟩ | ⟨t', ht, he⟩
  · rw [he]
    exact ⟨_, _, rfl, keepsContent_failed hbase (by decide)⟩
  · rw [he]
    obtain ⟨-, hdst, hsame⟩ := Files.mkdir_eq_ok ht
    have hs := h.apart.get_source hsame.onlyFrom
    have hself := hs []
    rw [List.append_nil] at hself
    exact moveCopyContent_keeps (s := ⟨t', s.calls + 1⟩) (fun r => (hs r).trans (hbase r)) true
      ⟨h.of_onlyAt hsame, hself.trans hsrc, hdst⟩

theorem moveCopyDir_keeps (h : DirFits env (pathNames src) (pathNames dst) s.files)
    (hsrc : s.files.get (pathNames src) = some .dir) :
    ∃ status s', moveCopyDir env move overwrite src dst s = some (status, s') ∧
      KeepsContent move (pathNames src) (pathNames dst) t s'.files status := by
  unfold moveCopyDir
  by_cases hslash : src.getLast? ≠ some slashChar
  · rw [if_pos hslash]
    exact ⟨_, _, rfl, keepsContent_failed hbase (by decide)⟩
  rw [if_neg hslash]
  rcases look_cases env .statDestination (fun t => t.stat dst) s with ⟨e, he⟩ | ⟨x, hx, he⟩
  · rw [he]
    exact moveCopyCreate_keeps (s := ⟨s.files, s.calls + 1⟩) hbase h hsrc
  rw [he]
  cases x with
  | dir =>
    exact moveCopyContent_keeps (s := ⟨s.files, s.calls + 1⟩) hbase false
      ⟨h, hsrc, Files.stat_eq_ok hx⟩
  | file c =>
    dsimp only
    split_ifs
    · have hunlink : OnlyAt (pathNames dst) s.files (Disk.change env .unlinkDestination
          (fun t => t.unlink dst) ⟨s.files, s.calls + 1⟩).2.files :=
        change_onlyAt (s := ⟨s.files, s.calls + 1⟩) fun t ht => Files.unlink_onlyAt ht
      have hs := h.apart.get_source hunlink.onlyFrom
      have hself := hs []
      rw [List.append_nil] at hself
      exact moveCopyCreate_keeps (fun r => (hs r).trans (hbase r)) (h.of_onlyAt hunlink)
        (hself.trans hsrc)
    · exact ⟨_, _, rfl, keepsContent_failed hbase (by decide)⟩

end Directory

/-- What holds of the source and the Destination when nothing can be lost: the place of a file is
another one, and a directory lies apart, fits, and is found out completely. -/
def CopiesAll (env : DavEnv) (t : Files) (src dst : Bytes) : Prop :=
  match t.get (pathNames src) with
  | none => True
  | some (.file _) => davPlace t src dst ≠ pathNames src
  | some .dir => DirFits env (pathNames src) (pathNames dst) t

/-- The place of the source in the destination. -/
def destinationPlace (t : Files) (src dst : Bytes) : List FileName :=
  if t.get (pathNames src) = some .dir then pathNames dst else davPlace t src dst

/-- No call fails. -/
def davEnv : DavEnv := ⟨fun _ _ => none, fun _ => 4096, fun _ => 4096, true, fun _ => true⟩

/-- The file `/srv/a/b`. -/
def davFiles : Files :=
  ((Tree.empty.set (pathNames (str "/srv")) .dir).set (pathNames (str "/srv/a")) .dir).set
    (pathNames (str "/srv/a/b")) (.file (str "x"))

/-- A request to copy. -/
def davCopy (destination : Bytes) : DavRequest := ⟨false, false, some destination, none⟩

end Lighttpd
