import Lighttpd.WebdavCopy
import Lighttpd.Lib.LinkTree

/-!
# A DELETE where there are links

`webdav_delete_dir` takes the type of an entry from `stat`, which follows links, so that it also
empties the directories that links in the collection lead to. It always comes to an end, since a
path is not followed along more than forty links, but it stays inside the collection exactly when no
path below it leads to anything outside that can be removed (`removesInside_iff`).
-/

namespace Lighttpd

open CString FileTree

/-- What is in a file: data, or the path of a link. -/
inductive Inode
  | data
  | link (target : LinkTree.Path FileName)
  deriving DecidableEq

/-- Files, directories and links below the root. -/
abbrev LinkedFiles := Tree FileName Inode

/-- A node as paths see it. -/
def linkedNodeOf : Node Inode → LinkTree.Node FileName Unit
  | .dir => .dir
  | .file .data => .file ()
  | .file (.link target) => .link target

/-- The tree as paths see it. -/
def LinkedFiles.links (t : LinkedFiles) : LinkTree.Tree FileName Unit :=
  ⟨fun p => (t.get p).map linkedNodeOf, []⟩

/-- A path from the root. -/
abbrev LinkedPath := List (LinkTree.Step FileName)

/-- `stat`. -/
def LinkedFiles.stat (t : LinkedFiles) (path : LinkedPath) :
    Option (LinkTree.Node FileName Unit) :=
  LinkTree.stat t.links ⟨true, path⟩

/-- Where the entry at a path really is, a link at the end not followed. -/
def LinkedFiles.location (t : LinkedFiles) (path : LinkedPath) : Option (List FileName) :=
  LinkTree.resolve t.links false LinkTree.maxLinks [] path

/-- Where the directory at a path really is. -/
def LinkedFiles.target (t : LinkedFiles) (path : LinkedPath) : Option (List FileName) :=
  LinkTree.resolve t.links true LinkTree.maxLinks [] path

/-! ## System calls -/

/-- The system calls of `webdav_delete_dir`. -/
inductive DeleteCall
  | opendir (path : LinkedPath)
  | stat (path : LinkedPath)
  | unlink (path : LinkedPath)
  | rmdir (path : LinkedPath)
  deriving DecidableEq

/-- Which calls fail, and in which order `readdir` returns the names in a directory. -/
structure DeleteEnv where
  fails : ℕ → DeleteCall → Bool
  order : ℕ → List FileName → List FileName
  order_perm : ∀ k names, (order k names).Perm names

/-- The files, the number of system calls so far, and where the entries were that they removed. -/
structure DeleteState where
  files : LinkedFiles
  calls : ℕ
  removed : List (List FileName)

/-- One call more. -/
def DeleteState.tick (s : DeleteState) : DeleteState := { s with calls := s.calls + 1 }

/-- An entry is taken out of its directory. -/
def DeleteState.take (s : DeleteState) (p : List FileName) : DeleteState :=
  { s with
    files := s.files.remove p
    removed := s.removed ++ [p] }

/-- `unlink`. -/
def DeleteState.unlink (env : DeleteEnv) (path : LinkedPath) (s : DeleteState) : DeleteState :=
  if env.fails s.calls (.unlink path) then s.tick
  else
    match s.files.location path with
    | none => s.tick
    | some p => if s.files.get p = some .dir then s.tick else s.tick.take p

/-- `rmdir`. -/
def DeleteState.rmdir (env : DeleteEnv) (path : LinkedPath) (s : DeleteState) : DeleteState :=
  if env.fails s.calls (.rmdir path) then s.tick
  else
    match s.files.location path with
    | none => s.tick
    | some p =>
      if p ≠ [] ∧ s.files.get p = some .dir ∧ s.files.entries p = [] then s.tick.take p else s.tick

/-- An entry of the loop. -/
def deleteLinked (env : DeleteEnv) (deleteDir : LinkedPath → DeleteState → Option DeleteState)
    (dst : LinkedPath) (name : FileName) (s : DeleteState) : Option DeleteState :=
  let d := dst ++ [.name name]
  match if env.fails s.calls (.stat d) then none else s.files.stat d with
  | none => some s.tick
  | some .dir => (deleteDir d s.tick).map (DeleteState.rmdir env d)
  | some _ => some (s.tick.unlink env d)

/-- The loop over the names that `readdir` returns. -/
def deleteLinkedLoop (entry : FileName → DeleteState → Option DeleteState) :
    List FileName → DeleteState → Option DeleteState
  | [], s => some s
  | name :: names, s => (entry name s).bind (deleteLinkedLoop entry names)

/-- The names that `opendir` and `readdir` give, in the order of `readdir`. -/
def DeleteState.readdir (env : DeleteEnv) (path : LinkedPath) (s : DeleteState) :
    Option (List FileName) :=
  if env.fails s.calls (.opendir path) then none
  else
    match s.files.target path with
    | none => none
    | some p =>
      if s.files.get p = some .dir then some (env.order s.calls (s.files.entries p)) else none

/-- `webdav_delete_dir`; the first argument bounds how deep it goes. -/
def webdavDeleteDirLinks (env : DeleteEnv) : ℕ → LinkedPath → DeleteState → Option DeleteState
  | 0, _, _ => none
  | n + 1, dst, s =>
    match s.readdir env dst with
    | none => some s.tick
    | some names =>
      deleteLinkedLoop (deleteLinked env (webdavDeleteDirLinks env n) dst) names s.tick

/-- The entry is in the directory. -/
def Inside (dir p : List FileName) : Prop := dir <+: p ∧ dir ≠ p

instance (dir p : List FileName) : Decidable (Inside dir p) := inferInstanceAs (Decidable (_ ∧ _))

/-- `webdav_delete_dir` comes to an end, and has removed nothing but what is in the directory. -/
def RemovesInside (env : DeleteEnv) (t : LinkedFiles) (dst : LinkedPath) (dir : List FileName) :
    Prop :=
  ∃ n s, webdavDeleteDirLinks env n dst ⟨t, 0, []⟩ = some s ∧ ∀ p ∈ s.removed, Inside dir p

/-- The path below `dst` leads to something that can be removed: no directory, or one without
entries. -/
def Removable (t : LinkedFiles) (path : LinkedPath) (p : List FileName) : Prop :=
  (∃ x, t.stat path = some x ∧ x ≠ .dir) ∨ (t.get p = some .dir ∧ t.entries p = [])

/-- Whatever can be removed at a path below `dst` is in the directory. -/
def LinksStayInside (t : LinkedFiles) (dst : LinkedPath) (dir : List FileName) : Prop :=
  ∀ names : List FileName, names ≠ [] → ∀ p, t.location (dst ++ names.map .name) = some p →
    Removable t (dst ++ names.map .name) p → Inside dir p

/-! ## Where paths lead -/

variable {l : ℕ} {n : FileName} {p q : List FileName} {I : DeleteState → Prop}
  {x : LinkTree.Node FileName Unit} {entry : FileName → DeleteState → Option DeleteState}

section Paths

variable {t : LinkedFiles} {path : LinkedPath} {n : FileName} {p q rest : List FileName}

/-- The path leads to `p`, along all links but `l` of those that may be followed. -/
def LinkedFiles.Leads (t : LinkedFiles) (path : LinkedPath) (l : ℕ) (p : List FileName) : Prop :=
  LinkTree.resolveLeft t.links true LinkTree.maxLinks [] path = some (l, p)

theorem target_eq_some_iff : t.target path = some p ↔ ∃ l, t.Leads path l p := by
  unfold LinkedFiles.target LinkedFiles.Leads
  rw [LinkTree.resolve_eq_map, Option.map_eq_some_iff]
  constructor
  · rintro ⟨⟨l, q⟩, h, rfl⟩
    exact ⟨l, h⟩
  · rintro ⟨l, h⟩
    exact ⟨(l, p), h, rfl⟩

theorem LinkedFiles.Leads.unique {l' : ℕ} (h : t.Leads path l p) (h' : t.Leads path l' q) :
    l = l' ∧ p = q := Prod.mk.inj (Option.some.inj (h.symm.trans h'))

theorem stat_eq (t : LinkedFiles) (path : LinkedPath) :
    t.stat path = (t.target path).bind t.links.node := rfl

theorem node_eq_dir_iff : t.links.node p = some .dir ↔ t.get p = some .dir := by
  change (t.get p).map linkedNodeOf = some .dir ↔ _
  cases t.get p with
  | none => simp
  | some x =>
    cases x with
    | dir => simp [linkedNodeOf]
    | file c => cases c <;> simp [linkedNodeOf]

theorem node_ne_none_iff : t.links.node p ≠ none ↔ t.get p ≠ none := by
  simp [LinkedFiles.links]

/-- A path with a name at the end, from where the path before it leads. -/
theorem location_concat_eq_some_iff : t.location (path ++ [.name n]) = some q ↔
    ∃ l p, t.Leads path l p ∧ t.get p = some .dir ∧ t.get (p ++ [n]) ≠ none ∧ q = p ++ [n] := by
  unfold LinkedFiles.location
  rw [LinkTree.resolve_eq_map, LinkTree.resolveLeft_concat, Option.map_eq_some_iff]
  constructor
  · rintro ⟨r, hr, rfl⟩
    obtain ⟨⟨l, p⟩, hp, hn⟩ := Option.bind_eq_some_iff.mp hr
    obtain ⟨hdir, hne, hq⟩ := LinkTree.resolveLeft_name_nofollow (l := r.1) (q := r.2) hn
    exact ⟨l, p, hp, node_eq_dir_iff.mp hdir, node_ne_none_iff.mp hne, hq⟩
  · rintro ⟨l, p, hp, hdir, hne, rfl⟩
    refine ⟨(l, p ++ [n]), ?_, rfl⟩
    rw [show LinkTree.resolveLeft t.links true LinkTree.maxLinks [] path = some (l, p) from hp,
      Option.bind_some, LinkTree.resolveLeft, LinkTree.walk, node_eq_dir_iff.mpr hdir]
    have hnode := node_ne_none_iff.mpr hne
    dsimp only
    cases hx : t.links.node (p ++ [n]) with
    | none => exact absurd hx hnode
    | some x =>
      cases x with
      | link target => simp
      | _ => rfl

theorem LinkedFiles.Leads.concat (h : t.Leads (path ++ [.name n]) l q) :
    ∃ l' p, t.Leads path l' p ∧ t.get p = some .dir ∧ t.get (p ++ [n]) ≠ none ∧
      (l < l' ∨ l = l' ∧ q = p ++ [n]) := by
  unfold LinkedFiles.Leads at h
  rw [LinkTree.resolveLeft_concat] at h
  obtain ⟨⟨l', p⟩, hp, hn⟩ := Option.bind_eq_some_iff.mp h
  obtain ⟨hdir, hne, hstep⟩ := LinkTree.resolveLeft_name hn
  exact ⟨l', p, hp, node_eq_dir_iff.mp hdir, node_ne_none_iff.mp hne, hstep⟩

/-- A path that leads somewhere passes through the directories on it. -/
theorem LinkedFiles.Leads.through : ∀ {l : ℕ} {q : List FileName},
    t.Leads (path ++ (n :: rest).map .name) l q →
    ∃ l' p, t.Leads path l' p ∧ t.get p = some .dir ∧ t.get (p ++ [n]) ≠ none := by
  induction rest using List.reverseRecOn with
  | nil =>
    intro l q h
    obtain ⟨l', p, hp, hdir, hne, -⟩ := LinkedFiles.Leads.concat h
    exact ⟨l', p, hp, hdir, hne⟩
  | append_singleton rest m ih =>
    intro l q h
    rw [← List.cons_append, List.map_append, ← List.append_assoc] at h
    obtain ⟨l', p, hp, -⟩ := LinkedFiles.Leads.concat h
    exact ih hp

theorem location_through (h : t.location (path ++ (n :: rest).map .name) =
    some q) : ∃ l p, t.Leads path l p ∧ t.get p = some .dir ∧ t.get (p ++ [n]) ≠ none := by
  rcases List.eq_nil_or_concat' rest with rfl | ⟨init, m, rfl⟩
  · obtain ⟨l, p, hp, hdir, hne, -⟩ := location_concat_eq_some_iff.mp h
    exact ⟨l, p, hp, hdir, hne⟩
  · rw [← List.cons_append, List.map_append, ← List.append_assoc] at h
    obtain ⟨l, p, hp, -⟩ := location_concat_eq_some_iff.mp h
    exact hp.through

end Paths

section Fewer

variable {t t' : LinkedFiles} {path : LinkedPath} {p q : List FileName}

/-- Every file of the one tree is one of the other. -/
def FewerFiles (t' t : LinkedFiles) : Prop := ∀ q x, t'.get q = some x → t.get q = some x

theorem FewerFiles.links (h : FewerFiles t' t) : LinkTree.Sub t'.links t.links := by
  intro q x hx
  obtain ⟨y, hy, rfl⟩ := Option.map_eq_some_iff.mp hx
  exact Option.map_eq_some_iff.mpr ⟨y, h q y hy, rfl⟩

theorem FewerFiles.leads (h : FewerFiles t' t) (hl : t'.Leads path l p) : t.Leads path l p :=
  h.links.resolveLeft hl

theorem FewerFiles.target (h : FewerFiles t' t) (hp : t'.target path = some p) :
    t.target path = some p := by
  obtain ⟨l, hl⟩ := target_eq_some_iff.mp hp
  exact target_eq_some_iff.mpr ⟨l, h.leads hl⟩

theorem FewerFiles.stat (h : FewerFiles t' t) (hx : t'.stat path = some x) :
    t.stat path = some x := by
  rw [stat_eq] at hx ⊢
  obtain ⟨p, hp, hnode⟩ := Option.bind_eq_some_iff.mp hx
  rw [h.target hp]
  exact h.links p x hnode

theorem FewerFiles.location (h : FewerFiles t' t) (hq : t'.location (path ++ [.name n]) = some q) :
    t.location (path ++ [.name n]) = some q := by
  obtain ⟨l, p, hp, hdir, hne, rfl⟩ := location_concat_eq_some_iff.mp hq
  obtain ⟨x, hx⟩ := Option.ne_none_iff_exists'.mp hne
  exact location_concat_eq_some_iff.mpr
    ⟨l, p, h.leads hp, h _ _ hdir, by rw [h _ _ hx]; simp, rfl⟩

theorem fewerFiles_remove (t : LinkedFiles) (p : List FileName) : FewerFiles (t.remove p) t := by
  intro q x hx
  by_cases hq : q = p
  · subst hq
    by_cases hent : t.entries q = []
    · rcases eq_or_ne q [] with rfl | hne
      · rwa [Tree.get_nil] at hx ⊢
      · have hnone : (t.remove q).get q = none := by
          rw [Tree.get_of_ne_nil _ hne, Tree.remove, dif_pos hent]
          exact AList.lookup_erase q t.nodes
        rw [hnone] at hx
        cases hx
    · rwa [Tree.remove, dif_neg hent] at hx
  · rwa [Tree.get_remove_of_ne t hq] at hx

end Fewer

section Contained

variable {env : DeleteEnv} {t : LinkedFiles} {dst : LinkedPath} {dir : List FileName}
  {s : DeleteState}

/-- What is left of the files: all that is not in the directory. -/
structure OutsideKept (t : LinkedFiles) (dir : List FileName) (s : DeleteState) : Prop where
  fewer : FewerFiles s.files t
  outside : ∀ q, ¬ Inside dir q → s.files.get q = t.get q
  removed : ∀ p ∈ s.removed, Inside dir p

theorem OutsideKept.tick (h : OutsideKept t dir s) : OutsideKept t dir s.tick :=
  ⟨h.fewer, h.outside, h.removed⟩

theorem OutsideKept.take (h : OutsideKept t dir s) (hp : Inside dir p) :
    OutsideKept t dir (s.take p) where
  fewer q x hx := h.fewer q x (fewerFiles_remove s.files p q x hx)
  outside q hq := by
    have hne : q ≠ p := fun heq => hq (heq ▸ hp)
    exact (Tree.get_remove_of_ne s.files hne).trans (h.outside q hq)
  removed q hq := by
    rcases List.mem_append.mp hq with hq | hq
    · exact h.removed q hq
    · rwa [List.mem_singleton.mp hq]

variable {names : List FileName}

/-- The names of a path below `dst`, with the last one apart. -/
theorem exists_concat_names (dst : LinkedPath) (h : names ≠ []) :
    ∃ (init : List FileName) (n : FileName), dst ++ names.map LinkTree.Step.name =
      (dst ++ init.map LinkTree.Step.name) ++ [.name n] := by
  obtain ⟨init, n, rfl⟩ := (List.eq_nil_or_concat' names).resolve_left h
  exact ⟨init, n, by simp⟩

theorem OutsideKept.unlink (hlinks : LinksStayInside t dst dir) (h : OutsideKept t dir s)
    (hnames : names ≠ []) (hstat : s.files.stat (dst ++ names.map .name) = some x) (hx : x ≠ .dir) :
    OutsideKept t dir (s.tick.unlink env (dst ++ names.map .name)) := by
  unfold DeleteState.unlink
  split_ifs
  · exact h.tick.tick
  · cases hloc : s.tick.files.location (dst ++ names.map .name) with
    | none => exact h.tick.tick
    | some p =>
      dsimp only
      split_ifs
      · exact h.tick.tick
      · refine h.tick.tick.take (hlinks names hnames p ?_ (.inl ⟨x, h.fewer.stat hstat, hx⟩))
        obtain ⟨init, n, heq⟩ := exists_concat_names dst hnames
        rw [heq] at hloc ⊢
        exact h.fewer.location hloc

/-- A directory on a path below `dst` has an entry in `dst`. -/
theorem entries_ne_nil_of_location {f : LinkedFiles} (hnames : names ≠ []) (hfewer : FewerFiles f t)
    (htarget : t.target dst = some dir) (hloc : f.location (dst ++ names.map .name) = some p) :
    f.entries dir ≠ [] := by
  obtain ⟨l₀, hdst⟩ := target_eq_some_iff.mp htarget
  obtain ⟨n, rest, rfl⟩ := List.exists_cons_of_ne_nil hnames
  obtain ⟨l', p', hp', -, hne⟩ := location_through hloc
  obtain ⟨-, rfl⟩ := hdst.unique (hfewer.leads hp')
  exact List.ne_nil_of_mem (Tree.mem_entries.mpr hne)

theorem OutsideKept.rmdir (hlinks : LinksStayInside t dst dir) (htarget : t.target dst = some dir)
    (h : OutsideKept t dir s) (hnames : names ≠ []) :
    OutsideKept t dir (s.rmdir env (dst ++ names.map .name)) := by
  unfold DeleteState.rmdir
  split_ifs
  · exact h.tick
  · cases hloc : s.files.location (dst ++ names.map .name) with
    | none => exact h.tick
    | some p =>
      dsimp only
      split_ifs with hempty
      · refine h.tick.take ?_
        obtain ⟨-, hdir, hent⟩ := hempty
        obtain ⟨init, n, heq⟩ := exists_concat_names dst hnames
        have hloct : t.location (dst ++ names.map .name) = some p := by
          rw [heq] at hloc ⊢
          exact h.fewer.location hloc
        by_contra hp
        refine hp (hlinks names hnames p hloct (.inr ⟨h.fewer _ _ hdir, ?_⟩))
        -- an entry that is gone was in `dir`, so that `p` is `dir` itself, which has an entry
        rw [List.eq_nil_iff_forall_not_mem]
        intro m hm
        have hgone : s.files.get (p ++ [m]) = none := by
          by_contra hne
          have hmem := Tree.mem_entries.mpr hne
          rw [hent] at hmem
          cases hmem
        have hin : Inside dir (p ++ [m]) := by
          by_contra hout
          rw [h.outside _ hout] at hgone
          exact Tree.mem_entries.mp hm hgone
        have hpre : dir <+: p := by
          rcases List.prefix_concat_iff.mp hin.1 with heq | hpre
          · exact absurd heq hin.2
          · exact hpre
        have hself : dir = p := by
          by_contra hne
          exact hp ⟨hpre, hne⟩
        subst hself
        exact entries_ne_nil_of_location hnames h.fewer htarget hloc hent
      · exact h.tick

/-- What is left to go on a path: the links that may be followed, and the names below. -/
def pathMeasure (t : LinkedFiles) (l : ℕ) (p : List FileName) : ℕ :=
  l * (t.depth + 1) + (t.depth - p.length)

theorem pathMeasure_concat {path : LinkedPath} {l' : ℕ} (hp : t.Leads path l p)
    (hq : t.Leads (path ++ [.name n]) l' q) : pathMeasure t l' q < pathMeasure t l p := by
  obtain ⟨l₁, p₁, hp₁, hdir, hne, hstep⟩ := hq.concat
  obtain ⟨rfl, rfl⟩ := hp.unique hp₁
  unfold pathMeasure
  rcases hstep with hlt | ⟨rfl, rfl⟩
  · have hmul : l' * (t.depth + 1) + (t.depth + 1) ≤ l * (t.depth + 1) := by
      rw [← Nat.succ_mul]
      exact Nat.mul_le_mul_right _ hlt
    omega
  · have hlen := Tree.length_le_depth hne
    rw [List.length_append, List.length_singleton] at hlen ⊢
    omega

theorem deleteLinkedLoop_spec (hentry : ∀ n s, I s → ∃ s', entry n s = some s' ∧ I s') :
    ∀ (names : List FileName) (s : DeleteState), I s →
      ∃ s', deleteLinkedLoop entry names s = some s' ∧ I s'
  | [], s, hs => ⟨s, rfl, hs⟩
  | n :: names, s, hs => by
    obtain ⟨s₁, hs₁, hI⟩ := hentry n s hs
    obtain ⟨s', hs', hI'⟩ := deleteLinkedLoop_spec hentry names s₁ hI
    exact ⟨s', by rw [deleteLinkedLoop, hs₁]; exact hs', hI'⟩

variable (env) in
/-- `webdav_delete_dir` on a path below `dst` comes to an end and keeps what `unlink` and `rmdir`
keep. -/
theorem webdavDeleteDirLinks_spec (hfewer : ∀ s, I s → FewerFiles s.files t)
    (htick : ∀ s, I s → I s.tick) (hunlink : ∀ s (names : List FileName) x, I s → names ≠ [] →
      s.files.stat (dst ++ names.map .name) = some x → x ≠ .dir →
        I (s.tick.unlink env (dst ++ names.map .name)))
    (hrmdir : ∀ s (names : List FileName), I s → names ≠ [] →
      I (s.rmdir env (dst ++ names.map .name))) :
    ∀ (n : ℕ) (names : List FileName) {l : ℕ} {p : List FileName} (s : DeleteState),
      t.Leads (dst ++ names.map .name) l p → pathMeasure t l p < n → I s →
      ∃ s', webdavDeleteDirLinks env n (dst ++ names.map .name) s = some s' ∧ I s'
  | 0, _, _, _, _, _, hn, _ => absurd hn (Nat.not_lt_zero _)
  | n + 1, names, l, p, s, hlead, hn, hs => by
    unfold webdavDeleteDirLinks
    cases s.readdir env (dst ++ names.map .name) with
    | none => exact ⟨_, rfl, htick s hs⟩
    | some found =>
      refine deleteLinkedLoop_spec (fun m s hs => ?_) found s.tick (htick s hs)
      have hd : dst ++ names.map LinkTree.Step.name ++ [.name m] =
          dst ++ (names ++ [m]).map LinkTree.Step.name := by simp
      have hne : names ++ [m] ≠ [] := by simp
      unfold deleteLinked
      dsimp only
      split
      · exact ⟨_, rfl, htick s hs⟩
      · next hstat =>
        -- a directory, or a link to one
        split_ifs at hstat
        rw [stat_eq] at hstat
        obtain ⟨q, hq, -⟩ := Option.bind_eq_some_iff.mp hstat
        obtain ⟨l', hq⟩ := target_eq_some_iff.mp ((hfewer s hs).target hq)
        have hless := pathMeasure_concat hlead hq
        rw [hd] at hq ⊢
        obtain ⟨s₁, hs₁, hI⟩ := webdavDeleteDirLinks_spec hfewer htick hunlink hrmdir n
          (names ++ [m]) s.tick hq (by omega) (htick s hs)
        rw [hs₁]
        exact ⟨_, rfl, hrmdir s₁ _ hI hne⟩
      · next x hdir hstat =>
        split_ifs at hstat
        rw [hd] at hstat ⊢
        exact ⟨_, rfl, hunlink s _ x hs hne hstat fun h => hdir (by rw [h])⟩

theorem FewerFiles.unlink (h : FewerFiles s.files t) (path : LinkedPath) :
    FewerFiles (s.unlink env path).files t := by
  unfold DeleteState.unlink
  split_ifs
  · exact h
  · split
    · exact h
    · split_ifs
      · exact h
      · exact fun q x hx => h q x (fewerFiles_remove s.files _ q x hx)

theorem FewerFiles.rmdir (h : FewerFiles s.files t) (path : LinkedPath) :
    FewerFiles (s.rmdir env path).files t := by
  unfold DeleteState.rmdir
  split_ifs
  · exact h
  · split
    · exact h
    · split_ifs
      · exact fun q x hx => h q x (fewerFiles_remove s.files _ q x hx)
      · exact h

/-- `webdav_delete_dir` comes to an end, whatever the links lead to. -/
theorem webdavDeleteDirLinks_ends (env : DeleteEnv) (htarget : t.target dst = some dir) :
    ∃ n s, webdavDeleteDirLinks env n dst ⟨t, 0, []⟩ = some s := by
  obtain ⟨l, hlead⟩ := target_eq_some_iff.mp htarget
  obtain ⟨s, hs, -⟩ := webdavDeleteDirLinks_spec env (I := fun s => FewerFiles s.files t)
    (fun _ h => h) (fun _ h => h) (fun s names x h _ _ _ => FewerFiles.unlink (s := s.tick) h _)
    (fun s names h _ => h.rmdir _) (pathMeasure t l dir + 1) [] ⟨t, 0, []⟩ (by simpa using hlead)
    (Nat.lt_succ_self _) (fun _ _ h => h)
  exact ⟨_, s, by simpa using hs⟩

theorem removesInside_of_linksStayInside (env : DeleteEnv) (htarget : t.target dst = some dir)
    (hlinks : LinksStayInside t dst dir) : RemovesInside env t dst dir := by
  obtain ⟨l, hlead⟩ := target_eq_some_iff.mp htarget
  have hstart : OutsideKept t dir ⟨t, 0, []⟩ := ⟨fun _ _ h => h, fun _ _ => rfl, by simp⟩
  obtain ⟨s, hs, hkept⟩ := webdavDeleteDirLinks_spec env (fun _ h => h.fewer)
    (fun _ h => h.tick) (fun _ _ _ h hne hstat hx => h.unlink hlinks hne hstat hx)
    (fun _ _ h hne => h.rmdir hlinks htarget hne) (pathMeasure t l dir + 1) [] ⟨t, 0, []⟩
    (by simpa using hlead) (Nat.lt_succ_self _) hstart
  exact ⟨_, s, by simpa using hs, hkept.removed⟩

end Contained

/-! ## What is outside is removed -/

section Escapes

variable {env : DeleteEnv} {t : LinkedFiles} {path : LinkedPath}

theorem deleteLinkedLoop_keeps :
    ∀ {names : List FileName} {s s' : DeleteState},
      (∀ n ∈ names, ∀ s s', entry n s = some s' → I s → I s') →
      deleteLinkedLoop entry names s = some s' → I s → I s'
  | [], s, s', _, h, hs => Option.some.inj h ▸ hs
  | n :: names, s, s', hentry, h, hs => by
    obtain ⟨s₁, hs₁, hs'⟩ := Option.bind_eq_some_iff.mp h
    exact deleteLinkedLoop_keeps (fun m hm => hentry m (List.mem_cons_of_mem n hm)) hs'
      (hentry n List.mem_cons_self s s₁ hs₁ hs)

/-- What every `unlink` and `rmdir` at a path or below it keeps. -/
structure KeptFrom (env : DeleteEnv) (path : LinkedPath) (I : DeleteState → Prop) : Prop where
  tick : ∀ s, I s → I s.tick
  unlink : ∀ s rest, I s → I (s.unlink env (path ++ rest))
  rmdir : ∀ s rest, I s → I (s.rmdir env (path ++ rest))

theorem KeptFrom.child (h : KeptFrom env path I) (n : FileName) :
    KeptFrom env (path ++ [.name n]) I where
  tick := h.tick
  unlink s rest hs := by
    rw [List.append_assoc]
    exact h.unlink s _ hs
  rmdir s rest hs := by
    rw [List.append_assoc]
    exact h.rmdir s _ hs

variable {s s' : DeleteState} {P Q : LinkedPath}
  {deleteDir : LinkedPath → DeleteState → Option DeleteState}

theorem deleteLinked_keeps (h : KeptFrom env (path ++ [.name n]) I)
    (hrec : ∀ s s', deleteDir (path ++ [.name n]) s = some s' → I s → I s')
    (hs' : deleteLinked env deleteDir path n s = some s') (hs : I s) : I s' := by
  have hunlink := fun s => h.unlink s []
  have hrmdir := fun s => h.rmdir s []
  simp only [List.append_nil] at hunlink hrmdir
  unfold deleteLinked at hs'
  dsimp only at hs'
  split at hs'
  · obtain rfl := Option.some.inj hs'
    exact h.tick s hs
  · obtain ⟨s₁, hs₁, rfl⟩ := Option.map_eq_some_iff.mp hs'
    exact hrmdir s₁ (hrec _ _ hs₁ (h.tick s hs))
  · obtain rfl := Option.some.inj hs'
    exact hunlink s.tick (h.tick s hs)

theorem webdavDeleteDirLinks_keeps (htick : ∀ s, I s → I s.tick) :
    ∀ {n : ℕ} {path : LinkedPath} {s s' : DeleteState},
      (∀ m, KeptFrom env (path ++ [.name m]) I) →
      webdavDeleteDirLinks env n path s = some s' → I s → I s'
  | n + 1, path, s, s', h, hs', hs => by
    unfold webdavDeleteDirLinks at hs'
    split at hs'
    · obtain rfl := Option.some.inj hs'
      exact htick s hs
    · refine deleteLinkedLoop_keeps (fun m _ s s' hm hs => ?_) hs' (htick s hs)
      exact deleteLinked_keeps (h m)
        (fun _ _ => webdavDeleteDirLinks_keeps htick (h m).child) hm hs

theorem keptFrom_removed (env : DeleteEnv) (path : LinkedPath) (p : List FileName) :
    KeptFrom env path fun s => p ∈ s.removed where
  tick _ h := h
  unlink s rest h := by
    unfold DeleteState.unlink
    split_ifs
    · exact h
    · split
      · exact h
      · split_ifs
        · exact h
        · exact List.mem_append_left _ h
  rmdir s rest h := by
    unfold DeleteState.rmdir
    split_ifs
    · exact h
    · split
      · exact h
      · split_ifs
        · exact List.mem_append_left _ h
        · exact h

/-- Nothing can be removed but what is at one path. -/
def removableOnlyAt (path : LinkedPath) : DeleteEnv where
  fails _ c :=
    match c with
    | .opendir _ => false
    | .stat _ => false
    | .unlink p => decide (p ≠ path)
    | .rmdir p => decide (p ≠ path)
  order _ names := names
  order_perm _ _ := .refl _

theorem keptFrom_files (t : LinkedFiles) (hPQ : ∀ rest, Q ++ rest ≠ P) :
    KeptFrom (removableOnlyAt P) Q fun s => s.files = t where
  tick _ h := h
  unlink s rest h := by
    rw [DeleteState.unlink, if_pos (by simpa [removableOnlyAt] using hPQ rest)]
    exact h
  rmdir s rest h := by
    rw [DeleteState.rmdir, if_pos (by simpa [removableOnlyAt] using hPQ rest)]
    exact h

theorem deleteLinkedLoop_append (entry : FileName → DeleteState → Option DeleteState)
    (a b : List FileName) (s : DeleteState) : deleteLinkedLoop entry (a ++ b) s =
      (deleteLinkedLoop entry a s).bind (deleteLinkedLoop entry b) := by
  induction a generalizing s with
  | nil => rfl
  | cons n a ih =>
    rw [List.cons_append, deleteLinkedLoop, deleteLinkedLoop, Option.bind_assoc]
    exact congrArg _ (funext ih)

/-- A directory itself is what `stat` says it is. -/
theorem stat_of_location (hloc : t.location path = some p) (hdir : t.get p = some .dir) :
    t.stat path = some .dir := by
  have hlstat : LinkTree.lstat t.links ⟨true, path⟩ = some .dir := by
    have hbind : LinkTree.lstat t.links ⟨true, path⟩ = (t.location path).bind t.links.node := rfl
    rw [hbind, hloc]
    exact node_eq_dir_iff.mpr hdir
  exact LinkTree.stat_of_lstat hlstat fun target => by simp

theorem unlink_removes (hfiles : s.files = t) (hloc : t.location path = some p)
    (hdir : t.get p ≠ some .dir) : p ∈ (s.unlink (removableOnlyAt path) path).removed := by
  rw [DeleteState.unlink, if_neg (by simp [removableOnlyAt]), hfiles, hloc]
  dsimp only
  rw [if_neg hdir]
  exact List.mem_append_right _ (List.mem_singleton_self p)

theorem rmdir_removes (hfiles : s.files = t) (hloc : t.location path = some p) (hp : p ≠ [])
    (hdir : t.get p = some .dir) (hent : t.entries p = []) :
    p ∈ (s.rmdir (removableOnlyAt path) path).removed := by
  rw [DeleteState.rmdir, if_neg (by simp [removableOnlyAt]), hfiles, hloc]
  dsimp only
  rw [if_pos ⟨hp, hdir, hent⟩]
  exact List.mem_append_right _ (List.mem_singleton_self p)

/-- The entry at the path is removed, when it is met with the files as they were. -/
theorem deleteLinked_removes (hfiles : s.files = t) (hloc : t.location (path ++ [.name n]) = some p)
    (hrem : Removable t (path ++ [.name n]) p)
    (hrec : ∀ s s', s.files = t → deleteDir (path ++ [.name n]) s = some s' → s'.files = t)
    (hs' : deleteLinked (removableOnlyAt (path ++ [.name n])) deleteDir path n s = some s') :
    p ∈ s'.removed := by
  have hstat : (removableOnlyAt (path ++ [.name n])).fails s.calls (.stat (path ++ [.name n])) =
      false := rfl
  have hp : p ≠ [] := by
    obtain ⟨l, q, hq, hdir, hne, rfl⟩ := location_concat_eq_some_iff.mp hloc
    simp
  unfold deleteLinked at hs'
  dsimp only at hs'
  rw [hstat, if_neg (by simp), hfiles] at hs'
  rcases hrem with ⟨x, hx, hxdir⟩ | ⟨hdir, hent⟩
  · -- no directory: `unlink`
    have hdir : t.get p ≠ some .dir := fun hdir => by
      rw [stat_of_location hloc hdir] at hx
      exact hxdir (Option.some.inj hx).symm
    rw [hx] at hs'
    cases x with
    | dir => exact absurd rfl hxdir
    | _ =>
      obtain rfl := Option.some.inj hs'
      exact unlink_removes hfiles hloc hdir
  · rw [stat_of_location hloc hdir] at hs'
    obtain ⟨s₁, hs₁, rfl⟩ := Option.map_eq_some_iff.mp hs'
    exact rmdir_removes (hrec s.tick s₁ hfiles hs₁) hloc hp hdir hent

theorem readdir_removableOnlyAt (hfiles : s.files = t) (hlead : t.Leads Q l q)
    (hdir : t.get q = some .dir) : s.readdir (removableOnlyAt P) Q = some (t.entries q) := by
  rw [DeleteState.readdir, if_neg (by simp [removableOnlyAt]), hfiles,
    target_eq_some_iff.mpr ⟨l, hlead⟩]
  exact if_pos hdir

/-- An entry on the way to the path is met with the files as they were. -/
theorem webdavDeleteDirLinks_meets {rest : LinkedPath} {m : FileName}
    (hP : P = Q ++ .name m :: rest) (hlead : t.Leads Q l q) (hdir : t.get q = some .dir)
    (hne : t.get (q ++ [m]) ≠ none) {n : ℕ} (hfiles : s.files = t)
    (hs' : webdavDeleteDirLinks (removableOnlyAt P) n Q s = some s') :
    ∃ n' s₁ s₂, s₁.files = t ∧
      deleteLinked (removableOnlyAt P) (webdavDeleteDirLinks (removableOnlyAt P) n') Q m s₁ =
        some s₂ ∧ ∀ p ∈ s₂.removed, p ∈ s'.removed := by
  cases n with
  | zero => cases hs'
  | succ n =>
    rw [webdavDeleteDirLinks, readdir_removableOnlyAt hfiles hlead hdir] at hs'
    obtain ⟨a, b, hab, ha⟩ := List.eq_append_cons_of_mem (Tree.mem_entries.mpr hne)
    dsimp only at hs'
    rw [hab, deleteLinkedLoop_append] at hs'
    obtain ⟨s₁, hs₁, hs'⟩ := Option.bind_eq_some_iff.mp hs'
    obtain ⟨s₂, hs₂, hs'⟩ := Option.bind_eq_some_iff.mp hs'
    refine ⟨n, s₁, s₂, ?_, hs₂, fun p hp => ?_⟩
    · -- the entries before lie on no way to the path
      refine deleteLinkedLoop_keeps (I := fun s => s.files = t) (fun k hk s s' hks hs => ?_) hs₁
        hfiles
      have hkm : k ≠ m := fun heq => ha (heq ▸ hk)
      have hkept : ∀ d, KeptFrom (removableOnlyAt P) (Q ++ .name k :: d) fun s => s.files = t := by
        refine fun d => keptFrom_files t fun rest' heq => hkm ?_
        rw [hP, List.append_assoc, List.append_cancel_left_eq] at heq
        exact LinkTree.Step.name.inj (List.cons.inj heq).1
      refine deleteLinked_keeps (hkept []) (fun _ _ => webdavDeleteDirLinks_keeps (hkept []).tick
        fun m' => ?_) hks hs
      rw [List.append_assoc]
      exact hkept _
    · refine deleteLinkedLoop_keeps (I := fun s => p ∈ s.removed) (fun k _ s s' hk hs => ?_) hs' hp
      have hkept := keptFrom_removed (removableOnlyAt P) (Q ++ [.name k]) p
      exact deleteLinked_keeps hkept (fun _ _ => webdavDeleteDirLinks_keeps hkept.tick fun m' =>
        keptFrom_removed _ _ p) hk hs

/-- What can be removed at a path below a directory is removed, when nothing else can be. -/
theorem webdavDeleteDirLinks_removes (hloc : t.location P = some p) (hrem : Removable t P p) :
    ∀ (rest : List FileName) (m : FileName) (Q : LinkedPath) (n : ℕ) (s s' : DeleteState),
      P = Q ++ (m :: rest).map .name → s.files = t →
      webdavDeleteDirLinks (removableOnlyAt P) n Q s = some s' → p ∈ s'.removed := by
  intro rest
  induction rest with
  | nil =>
    intro m Q n s s' hP hfiles hs'
    obtain ⟨l, q, hlead, hdir, hne⟩ := location_through (hP ▸ hloc)
    obtain ⟨n', s₁, s₂, hfiles₁, hs₂, hremoved⟩ :=
      webdavDeleteDirLinks_meets hP hlead hdir hne hfiles hs'
    have hP' : P = Q ++ [.name m] := hP
    subst hP'
    refine hremoved p (deleteLinked_removes hfiles₁ hloc hrem (fun s s' hs h => ?_) hs₂)
    refine webdavDeleteDirLinks_keeps (I := fun s => s.files = t) (fun _ h => h) (fun m' => ?_) h hs
    refine keptFrom_files t fun rest heq => ?_
    have hlen := congrArg List.length heq
    simp only [List.length_append, List.length_singleton] at hlen
    omega
  | cons k rest ih =>
    intro m Q n s s' hP hfiles hs'
    obtain ⟨l, q, hlead, hdir, hne⟩ := location_through (hP ▸ hloc)
    obtain ⟨n', s₁, s₂, hfiles₁, hs₂, hremoved⟩ :=
      webdavDeleteDirLinks_meets hP hlead hdir hne hfiles hs'
    have hP' : P = (Q ++ [.name m]) ++ (k :: rest).map .name := by
      rw [hP]
      simp
    obtain ⟨l', q', hlead', hdir', -⟩ := location_through (hP' ▸ hloc)
    have hstat : t.stat (Q ++ [.name m]) = some .dir := by
      rw [stat_eq, target_eq_some_iff.mpr ⟨l', hlead'⟩]
      exact node_eq_dir_iff.mpr hdir'
    have hfails : (removableOnlyAt P).fails s₁.calls (.stat (Q ++ [.name m])) = false := rfl
    unfold deleteLinked at hs₂
    dsimp only at hs₂
    rw [hfails, if_neg (by simp), hfiles₁, hstat] at hs₂
    obtain ⟨s₃, hs₃, rfl⟩ := Option.map_eq_some_iff.mp hs₂
    have hrec := ih k (Q ++ [.name m]) n' s₁.tick s₃ hP' hfiles₁ hs₃
    have hkept := (keptFrom_removed (removableOnlyAt P) (Q ++ [.name m]) p).rmdir s₃ [] hrec
    rw [List.append_nil] at hkept
    exact hremoved p hkept

end Escapes

/-- Whatever system calls fail and in whatever order `readdir` returns the names,
`webdav_delete_dir` comes to an end and removes nothing but entries of the directory, exactly when
no path below it leads to an entry elsewhere that can be removed. -/
theorem removesInside_iff {t : LinkedFiles} {dst : LinkedPath} {dir : List FileName}
    (htarget : t.target dst = some dir) :
    (∀ env, RemovesInside env t dst dir) ↔ LinksStayInside t dst dir := by
  constructor
  · intro h names hnames p hloc hrem
    obtain ⟨n, s, hs, hinside⟩ := h (removableOnlyAt (dst ++ names.map .name))
    obtain ⟨m, rest, rfl⟩ := List.exists_cons_of_ne_nil hnames
    exact hinside p (webdavDeleteDirLinks_removes hloc hrem rest m dst n _ s rfl rfl hs)
  · exact fun hlinks env => removesInside_of_linksStayInside env htarget hlinks

/-- The directories `/d` and `/o`, the file `/o/f` and the link `/d/l` to `/o`. -/
def linkedFiles : LinkedFiles :=
  (((Tree.empty.set (pathNames (str "/d")) .dir).set (pathNames (str "/o")) .dir).set
    (pathNames (str "/o/f")) (.file .data)).set (pathNames (str "/d/l"))
      (.file (.link ⟨true, (pathNames (str "/o")).map .name⟩))

/-- A path of names. -/
def namedPath (path : Bytes) : LinkedPath := (pathNames path).map .name

/-- A directory with a link out of it. -/
theorem removesInside_iff_linked :
    (∀ env, RemovesInside env linkedFiles (namedPath (str "/d")) (pathNames (str "/d"))) ↔
      LinksStayInside linkedFiles (namedPath (str "/d")) (pathNames (str "/d")) :=
  removesInside_iff (by decide +kernel)

/-- A file behind a link is removed. -/
theorem not_removesInside :
    ¬ ∀ (env : DeleteEnv) (t : LinkedFiles) (dst : LinkedPath) (dir : List FileName),
      t.target dst = some dir → RemovesInside env t dst dir := by
  intro h
  have htarget : linkedFiles.target (namedPath (str "/d")) = some (pathNames (str "/d")) := by
    decide +kernel
  obtain ⟨n, s, hs, hinside⟩ := h (removableOnlyAt (namedPath (str "/d/l/f"))) _ _ _ htarget
  have hloc : linkedFiles.location (namedPath (str "/d/l/f")) = some (pathNames (str "/o/f")) := by
    decide +kernel
  have hrem : Removable linkedFiles (namedPath (str "/d/l/f")) (pathNames (str "/o/f")) :=
    Or.inl ⟨.file (), by decide +kernel, by simp⟩
  have hpath : namedPath (str "/d/l/f") =
      namedPath (str "/d") ++ (pathNames (str "/l/f")).map .name := by
    decide +kernel
  have hne : pathNames (str "/l/f") ≠ [] := by decide +kernel
  obtain ⟨m, rest, hnames⟩ := List.exists_cons_of_ne_nil hne
  rw [hnames] at hpath
  have hgone := webdavDeleteDirLinks_removes hloc hrem rest m _ n _ s hpath rfl hs
  exact absurd (hinside _ hgone) (by decide +kernel)

theorem webdavDeleteDirLinks_ends_linked : ∃ n s, webdavDeleteDirLinks
    (removableOnlyAt (namedPath (str "/d/l"))) n (namedPath (str "/d")) ⟨linkedFiles, 0, []⟩ = some s :=
  webdavDeleteDirLinks_ends _ (by decide +kernel : linkedFiles.target _ = some (pathNames (str "/d")))

end Lighttpd
