import Mathlib.Data.List.Basic
import Mathlib.Tactic.Linarith

/-!
# Resolving dot segments

A path is split at a separator. `resolve` keeps a stack of segments: an empty segment and
`.` are dropped, `..` drops the segment before it, and one of these three at the end
leaves a separator behind. The result starts with a separator (`head_resolve`) and has no
`..` segment (`dots_notMem_splitOn_resolve`). It is a normal path, which resolves to itself
(`isNormal_resolve`, `IsNormal.resolve_eq`). A path put behind another joins the segments that
meet (`splitOn_append`).
-/

namespace PathSegments

variable {α : Type*} [DecidableEq α] {sep dot : α}

/-- The segments with a separator before each. -/
def join (sep : α) (segs : List (List α)) : List α := segs.flatMap (sep :: ·)

/-- A segment that names no entry. -/
def IsDots (dot : α) (seg : List α) : Prop := seg = [] ∨ seg = [dot] ∨ seg = [dot, dot]

instance (dot : α) : DecidablePred (IsDots dot) := fun _ =>
  inferInstanceAs (Decidable (_ ∨ _))

/-- The stack of segments after one more. -/
def resolveStep (dot : α) (st : List (List α)) (seg : List α) : List (List α) :=
  if seg = [dot, dot] then st.dropLast
  else if seg = [] ∨ seg = [dot] then st
  else st ++ [seg]

/-- The separator that a dot segment at the end leaves. -/
def trailing (sep dot : α) (seg : List α) : List α := if IsDots dot seg then [sep] else []

/-- The path `w` resolved behind the segments `st`. -/
def resolveFrom (sep dot : α) (st : List (List α)) (w : List α) : List α :=
  join sep ((w.splitOn sep).foldl (resolveStep dot) st) ++
    trailing sep dot ((w.splitOn sep).getLastD [])

/-- The path `w`, with a separator before it, without dot segments. -/
def resolve (sep dot : α) (w : List α) : List α := resolveFrom sep dot [] w

omit [DecidableEq α] in
@[simp] theorem join_nil : join sep [] = [] := rfl

omit [DecidableEq α] in
@[simp] theorem join_cons (seg : List α) (segs : List (List α)) :
    join sep (seg :: segs) = sep :: seg ++ join sep segs := rfl

omit [DecidableEq α] in
@[simp] theorem join_append (st st' : List (List α)) :
    join sep (st ++ st') = join sep st ++ join sep st' := by
  simp [join]

variable {st : List (List α)} {seg w : List α}

theorem resolveFrom_of_notMem (h : sep ∉ seg) :
    resolveFrom sep dot st seg =
      join sep (resolveStep dot st seg) ++ trailing sep dot seg := by
  simp [resolveFrom, List.splitOn_eq_singleton h]

theorem resolveFrom_cons (h : sep ∉ seg) (w : List α) :
    resolveFrom sep dot st (seg ++ sep :: w) =
      resolveFrom sep dot (resolveStep dot st seg) w := by
  rw [resolveFrom, List.splitOn_append_cons_self_of_not_mem h, List.foldl_cons, resolveFrom]
  congr 2
  cases hw : w.splitOn sep with
  | nil => exact absurd hw (List.splitOn_ne_nil sep w)
  | cons u us => simp

theorem resolveStep_of_not_isDots (h : ¬ IsDots dot seg) :
    resolveStep dot st seg = st ++ [seg] := by
  unfold IsDots at h
  push Not at h
  simp [resolveStep, h.1, h.2.1, h.2.2]

theorem resolveStep_forall {P : List α → Prop} {st : List (List α)} {seg : List α}
    (hst : ∀ s ∈ st, P s) (hseg : ¬ IsDots dot seg → P seg) :
    ∀ s ∈ resolveStep dot st seg, P s := by
  intro s hs
  unfold resolveStep at hs
  split_ifs at hs with h1 h2
  · exact hst s ((List.dropLast_sublist st).subset hs)
  · exact hst s hs
  · rcases List.mem_append.mp hs with hs | hs
    · exact hst s hs
    · rw [List.mem_singleton.mp hs]
      refine hseg fun h => ?_
      rcases h with h | h | h
      · exact h2 (.inl h)
      · exact h2 (.inr h)
      · exact h1 h

theorem notMem_of_mem_splitOn :
    ∀ {w : List α} {seg : List α}, seg ∈ w.splitOn sep → sep ∉ seg
  | [], seg, h => by
    rw [List.splitOn_nil, List.mem_singleton] at h
    simp [h]
  | x :: w, seg, h => by
    rw [List.splitOn_cons_eq_if_modifyHead] at h
    split_ifs at h with hx
    · rcases List.mem_cons.mp h with rfl | h
      · simp
      · exact notMem_of_mem_splitOn h
    · have hxs : sep ≠ x := fun h => hx (by simp [h])
      cases hw : w.splitOn sep with
      | nil => exact absurd hw (List.splitOn_ne_nil sep w)
      | cons u us =>
        rw [hw, List.modifyHead_cons] at h
        have hmem : ∀ s ∈ u :: us, sep ∉ s := fun s hs => notMem_of_mem_splitOn (w := w) (by rwa [hw])
        rcases List.mem_cons.mp h with rfl | h
        · simp [hxs, hmem u]
        · exact hmem seg (List.mem_cons_of_mem u h)

theorem splitOn_join_append :
    ∀ {st : List (List α)}, (∀ s ∈ st, sep ∉ s) →
      ∀ u, sep ∉ u → (u ++ join sep st).splitOn sep = u :: st
  | [], _, u, hu => by simp [List.splitOn_eq_singleton hu]
  | s :: st, hst, u, hu => by
    rw [join_cons, List.cons_append, List.splitOn_append_cons_self_of_not_mem hu,
      splitOn_join_append (fun s' h => hst s' (List.mem_cons_of_mem s h)) s
        (hst s List.mem_cons_self)]

/-- The segments that are kept are those of the path that are no dot segments. -/
theorem foldl_resolveStep_forall (sep dot : α) (w : List α) :
    ∀ s ∈ (w.splitOn sep).foldl (resolveStep dot) [], ¬ IsDots dot s ∧ sep ∉ s := by
  have hmem : ∀ s ∈ w.splitOn sep, sep ∉ s := fun s => notMem_of_mem_splitOn
  generalize w.splitOn sep = segs at hmem
  have key : ∀ (segs st : List (List α)), (∀ s ∈ segs, sep ∉ s) →
      (∀ s ∈ st, ¬ IsDots dot s ∧ sep ∉ s) →
      ∀ s ∈ segs.foldl (resolveStep dot) st, ¬ IsDots dot s ∧ sep ∉ s := by
    intro segs
    induction segs with
    | nil => exact fun st _ hst => hst
    | cons seg segs ih =>
      intro st hsegs hst
      refine ih _ (fun s hs => hsegs s (List.mem_cons_of_mem seg hs)) ?_
      exact resolveStep_forall hst fun h => ⟨h, hsegs seg List.mem_cons_self⟩
  exact key segs [] hmem (by simp)

/-- A resolved path has no `..` segment. -/
theorem dots_notMem_splitOn_resolve (w : List α) :
    [dot, dot] ∉ (resolve sep dot w).splitOn sep := by
  have hst := foldl_resolveStep_forall sep dot w
  rw [resolve, resolveFrom]
  generalize (w.splitOn sep).foldl (resolveStep dot) [] = st at hst
  have hsep : ∀ s ∈ st, sep ∉ s := fun s hs => (hst s hs).2
  have hdots : [dot, dot] ∉ st := fun h => (hst _ h).1 (.inr (.inr rfl))
  unfold trailing
  split_ifs
  · have hjoin : join sep st ++ [sep] = join sep (st ++ [[]]) := by simp
    have hsep' : ∀ s ∈ st ++ [[]], sep ∉ s := by
      intro s hs
      rcases List.mem_append.mp hs with hs | hs
      · exact hsep s hs
      · simp [List.mem_singleton.mp hs]
    have hsplit := splitOn_join_append hsep' [] (by simp)
    rw [List.nil_append] at hsplit
    rw [hjoin, hsplit]
    simpa using hdots
  · have hsplit := splitOn_join_append hsep [] (by simp)
    rw [List.nil_append] at hsplit
    rw [List.append_nil, hsplit]
    simpa using hdots

theorem head_resolve (w : List α) : (resolve sep dot w).head? = some sep := by
  rw [resolve, resolveFrom]
  have hlast : ∀ {segs : List (List α)}, segs ≠ [] → ¬ IsDots dot (segs.getLastD []) →
      segs.foldl (resolveStep dot) [] ≠ [] := by
    intro segs hne hdots
    obtain ⟨segs, seg, rfl⟩ := (List.eq_nil_or_concat' segs).resolve_left hne
    rw [List.foldl_append]
    rw [List.getLastD_concat] at hdots
    rw [List.foldl_cons, List.foldl_nil, resolveStep_of_not_isDots hdots]
    simp
  unfold trailing
  split_ifs with h
  · cases (w.splitOn sep).foldl (resolveStep dot) [] with
    | nil => rfl
    | cons s st => rfl
  · have := hlast (List.splitOn_ne_nil sep w) h
    cases hst : (w.splitOn sep).foldl (resolveStep dot) [] with
    | nil => exact absurd hst this
    | cons s st => rfl

theorem mem_of_mem_splitOn :
    ∀ {w : List α} {seg : List α} {x : α}, seg ∈ w.splitOn sep → x ∈ seg → x ∈ w
  | [], seg, x, h, hx => by
    rw [List.splitOn_nil, List.mem_singleton] at h
    rwa [h] at hx
  | y :: w, seg, x, h, hx => by
    rw [List.splitOn_cons_eq_if_modifyHead] at h
    split_ifs at h
    · rcases List.mem_cons.mp h with rfl | h
      · cases hx
      · exact List.mem_cons_of_mem y (mem_of_mem_splitOn h hx)
    · cases hw : w.splitOn sep with
      | nil => exact absurd hw (List.splitOn_ne_nil sep w)
      | cons u us =>
        have hmem : ∀ s ∈ u :: us, ∀ z ∈ s, z ∈ w := fun s hs z hz =>
          mem_of_mem_splitOn (w := w) (by rwa [hw]) hz
        rw [hw, List.modifyHead_cons] at h
        rcases List.mem_cons.mp h with rfl | h
        · rcases List.mem_cons.mp hx with rfl | hx
          · exact List.mem_cons_self
          · exact List.mem_cons_of_mem y (hmem u List.mem_cons_self x hx)
        · exact List.mem_cons_of_mem y (hmem seg (List.mem_cons_of_mem u h) x hx)

theorem mem_resolve {x : α} (h : x ∈ resolve sep dot w) : x = sep ∨ x ∈ w := by
  have key : ∀ (segs st : List (List α)), (∀ s ∈ segs, ∀ z ∈ s, z ∈ w) →
      (∀ s ∈ st, ∀ z ∈ s, z ∈ w) → ∀ s ∈ segs.foldl (resolveStep dot) st, ∀ z ∈ s, z ∈ w := by
    intro segs
    induction segs with
    | nil => exact fun st _ hst => hst
    | cons seg segs ih =>
      intro st hsegs hst
      refine ih _ (fun s hs => hsegs s (List.mem_cons_of_mem seg hs)) ?_
      exact resolveStep_forall hst fun _ => hsegs seg List.mem_cons_self
  rw [resolve, resolveFrom] at h
  rcases List.mem_append.mp h with h | h
  · obtain ⟨seg, hseg, hx⟩ := List.mem_flatMap.mp h
    rcases List.mem_cons.mp hx with hx | hx
    · exact .inl hx
    · exact .inr (key _ [] (fun s hs z => mem_of_mem_splitOn hs) (by simp) seg hseg x hx)
  · unfold trailing at h
    split_ifs at h
    · exact .inl (List.mem_singleton.mp h)
    · cases h

/-! ## Normal paths -/

/-- A separator and a name, any number of times, with a separator at the end or not. -/
def IsNormal (sep dot : α) (p : List α) : Prop :=
  ∃ st : List (List α), (∀ s ∈ st, ¬ IsDots dot s ∧ sep ∉ s) ∧
    (st ≠ [] ∧ p = join sep st ∨ p = join sep st ++ [sep])

theorem isNormal_resolve (w : List α) : IsNormal sep dot (resolve sep dot w) := by
  refine ⟨_, foldl_resolveStep_forall sep dot w, ?_⟩
  have hhead := @head_resolve _ _ sep dot w
  rw [resolve, resolveFrom] at hhead ⊢
  unfold trailing at hhead ⊢
  split_ifs at hhead ⊢
  · exact .inr rfl
  · refine .inl ⟨fun h => ?_, List.append_nil _⟩
    rw [h] at hhead
    cases hhead

theorem foldl_resolveStep_of_not_isDots {segs : List (List α)} :
    ∀ {st : List (List α)}, (∀ s ∈ segs, ¬ IsDots dot s) →
      segs.foldl (resolveStep dot) st = st ++ segs := by
  induction segs with
  | nil => exact fun _ => (List.append_nil _).symm
  | cons seg segs ih =>
    intro st h
    rw [List.foldl_cons, resolveStep_of_not_isDots (h seg List.mem_cons_self),
      ih fun s hs => h s (List.mem_cons_of_mem seg hs), List.append_assoc, List.singleton_append]

theorem IsNormal.resolve_eq (h : IsNormal sep dot (sep :: w)) : resolve sep dot w = sep :: w := by
  obtain ⟨st, hst, hp⟩ := h
  have hdots : ∀ s ∈ st, ¬ IsDots dot s := fun s hs => (hst s hs).1
  have hsplit : ∀ {st' : List (List α)}, (∀ s ∈ st', sep ∉ s) → st' ≠ [] →
      sep :: w = join sep st' → w.splitOn sep = st' := by
    intro st' hst' hne hw
    obtain ⟨s, st', rfl⟩ := List.exists_cons_of_ne_nil hne
    rw [join_cons, List.cons_append, List.cons.injEq] at hw
    rw [hw.2]
    exact splitOn_join_append (fun s' h => hst' s' (List.mem_cons_of_mem s h)) s
      (hst' s List.mem_cons_self)
  rcases hp with ⟨hne, hp⟩ | hp
  · obtain ⟨st', s, rfl⟩ := (List.eq_nil_or_concat' st).resolve_left hne
    have hs : ¬ IsDots dot s := hdots s (by simp)
    rw [resolve, resolveFrom, hsplit (fun s hs => (hst s hs).2) hne hp,
      foldl_resolveStep_of_not_isDots hdots, List.getLastD_concat, trailing, if_neg hs, hp,
      List.nil_append, List.append_nil]
  · have hp' : sep :: w = join sep (st ++ [[]]) := by rw [hp]; simp
    have hsep : ∀ s ∈ st ++ [[]], sep ∉ s := by
      intro s hs
      rcases List.mem_append.mp hs with hs | hs
      · exact (hst s hs).2
      · simp [List.mem_singleton.mp hs]
    have hnil : resolveStep dot st [] = st := by simp [resolveStep]
    rw [resolve, resolveFrom, hsplit hsep (by simp) hp', List.foldl_append,
      foldl_resolveStep_of_not_isDots hdots, List.foldl_cons, List.foldl_nil, List.nil_append, hnil,
      List.getLastD_concat, trailing, if_pos (show IsDots dot [] from .inl rfl), hp]

theorem join_splitOn : ∀ w : List α, join sep (w.splitOn sep) = sep :: w
  | [] => by simp [List.splitOn_nil]
  | x :: w => by
    have ih := join_splitOn w
    rw [List.splitOn_cons_eq_if_modifyHead]
    split_ifs with hx
    · rw [join_cons, ih, beq_iff_eq.mp hx]
      rfl
    · cases hw : w.splitOn sep with
      | nil => exact absurd hw (List.splitOn_ne_nil sep w)
      | cons u us =>
        rw [hw, join_cons, List.cons_append, List.cons.injEq] at ih
        rw [List.modifyHead_cons, join_cons, List.cons_append, List.cons_append, ih.2]

theorem length_join_resolveStep_le (st : List (List α)) (seg : List α) :
    (join sep (resolveStep dot st seg)).length ≤
      (join sep st).length + if IsDots dot seg then 0 else seg.length + 1 := by
  unfold resolveStep
  by_cases h2 : seg = [dot, dot]
  · rw [if_pos h2, if_pos (show IsDots dot seg from .inr (.inr h2))]
    rcases List.eq_nil_or_concat' st with rfl | ⟨st, s, rfl⟩
    · simp
    · simp
  by_cases h01 : seg = [] ∨ seg = [dot]
  · rw [if_neg h2, if_pos h01, if_pos (show IsDots dot seg from h01.imp_right .inl)]
    exact le_rfl
  · have hdots : ¬ IsDots dot seg := fun h => h01 (h.imp_right fun h => h.resolve_right h2)
    rw [if_neg h2, if_neg h01, if_neg hdots]
    simp

theorem length_join_foldl_le :
    ∀ (segs st : List (List α)), (join sep (segs.foldl (resolveStep dot) st)).length ≤
      (join sep st).length + (join sep segs).length
  | [], st => by simp
  | seg :: segs, st => by
    have hstep := @length_join_resolveStep_le _ _ sep dot st seg
    have ih := length_join_foldl_le segs (resolveStep dot st seg)
    have hseg : (if IsDots dot seg then 0 else seg.length + 1) ≤ seg.length + 1 := by
      split_ifs <;> omega
    rw [List.foldl_cons, join_cons, List.length_append, List.length_cons]
    omega

/-- A resolved path has no more than the separator that is put before it. -/
theorem length_resolve_le (w : List α) : (resolve sep dot w).length ≤ w.length + 1 := by
  have hjoin := congrArg List.length (@join_splitOn _ _ sep w)
  obtain ⟨segs, seg, hw⟩ :=
    (List.eq_nil_or_concat' (w.splitOn sep)).resolve_left (List.splitOn_ne_nil sep w)
  have hfold := @length_join_foldl_le _ _ sep dot segs []
  have hstep := @length_join_resolveStep_le _ _ sep dot
    (segs.foldl (resolveStep dot) []) seg
  rw [hw] at hjoin
  rw [resolve, resolveFrom, hw, List.foldl_append, List.getLastD_concat, List.length_append]
  simp only [join_append, join_cons, join_nil, List.append_nil, List.length_append,
    List.length_cons, List.length_nil, List.foldl_cons, List.foldl_nil] at hjoin hfold ⊢
  unfold trailing
  split_ifs at hstep ⊢
  · simp only [List.length_singleton]
    omega
  · simp only [List.length_nil]
    omega

/-- A map that keeps the separator apart from other elements keeps the segments. -/
theorem splitOn_map {f : α → α} (hf : ∀ a, f a = sep ↔ a = sep) :
    ∀ w : List α, (w.map f).splitOn sep = (w.splitOn sep).map (List.map f)
  | [] => by simp [List.splitOn_nil]
  | a :: w => by
    rw [List.map_cons, List.splitOn_cons_eq_if_modifyHead, List.splitOn_cons_eq_if_modifyHead,
      splitOn_map hf w]
    by_cases h : a = sep
    · have hfs : f sep = sep := (hf sep).mpr rfl
      simp [h, hfs]
    · have hfa : f a ≠ sep := fun h' => h ((hf a).mp h')
      cases w.splitOn sep <;> simp [h, hfa]

/-- Such a map that also keeps dots apart brings no `..` segment. -/
theorem dots_notMem_splitOn_map {f : α → α} (hf : ∀ a, f a = sep ↔ a = sep)
    (hd : ∀ a, f a = dot ↔ a = dot) (h : [dot, dot] ∉ w.splitOn sep) :
    [dot, dot] ∉ (w.map f).splitOn sep := by
  rw [splitOn_map hf]
  intro hmem
  obtain ⟨seg, hseg, he⟩ := List.mem_map.mp hmem
  obtain ⟨a, b, rfl⟩ : ∃ a b, seg = [a, b] := by
    have hlen : seg.length = 2 := by simpa using congrArg List.length he
    exact List.length_eq_two.mp hlen
  simp only [List.map_cons, List.map_nil, List.cons.injEq, and_true] at he
  rw [(hd a).mp he.1, (hd b).mp he.2] at hseg
  exact h hseg

/-! ## A path behind another -/

/-- The segment that a path starts with. -/
def firstSegment (sep : α) (w : List α) : List α := (w.splitOn sep).headD []

/-- The segment that a path ends with. -/
def lastSegment (sep : α) (w : List α) : List α := (w.splitOn sep).getLastD []

theorem splitOn_eq_cons (w : List α) :
    w.splitOn sep = firstSegment sep w :: (w.splitOn sep).tail := by
  cases h : w.splitOn sep with
  | nil => exact absurd h (List.splitOn_ne_nil sep w)
  | cons u us => simp [firstSegment, h]

theorem splitOn_eq_concat (sep : α) (w : List α) :
    w.splitOn sep = (w.splitOn sep).dropLast ++ [lastSegment sep w] := by
  obtain ⟨us, u, h⟩ := (List.eq_nil_or_concat' (w.splitOn sep)).resolve_left
    (List.splitOn_ne_nil sep w)
  simp [lastSegment, h]

/-- The last segment of the path in front and the first one of the path behind become one. -/
theorem splitOn_append (w : List α) :
    ∀ v : List α, (v ++ w).splitOn sep = (v.splitOn sep).dropLast ++
      (lastSegment sep v ++ firstSegment sep w) :: (w.splitOn sep).tail
  | [] => by simpa [List.splitOn_nil, lastSegment] using splitOn_eq_cons w
  | x :: v => by
    have ih := splitOn_append w v
    have hv := splitOn_eq_concat sep v
    rw [lastSegment, List.cons_append, List.splitOn_cons_eq_if_modifyHead, ih,
      List.splitOn_cons_eq_if_modifyHead]
    generalize (v.splitOn sep).dropLast = us at hv
    generalize lastSegment sep v = u at hv
    rw [hv]
    have hlast : ∀ (a : List α) (as : List (List α)),
        (a :: (as ++ [u])).dropLast = a :: as ∧ (a :: (as ++ [u])).getLastD [] = u :=
      fun a as => by
        rw [← List.cons_append, List.dropLast_concat, List.getLastD_concat]
        exact ⟨rfl, rfl⟩
    by_cases hx : x = sep
    · cases us with
      | nil => simp [hx]
      | cons a as =>
        have := hlast [] (a :: as)
        simp only [List.cons_append] at this
        simp only [hx, List.cons_append, beq_self_eq_true, if_true, this]
    · cases us with
      | nil => simp [hx]
      | cons a as => simp only [hx, List.cons_append, beq_iff_eq, if_false, List.modifyHead_cons, hlast]

theorem splitOn_reverse (w : List α) :
    w.reverse.splitOn sep = ((w.splitOn sep).map List.reverse).reverse := by
  induction w with
  | nil => simp [List.splitOn_nil]
  | cons x w ih =>
    obtain ⟨u, us, hw⟩ := List.exists_cons_of_ne_nil (List.splitOn_ne_nil sep w)
    rw [hw, List.map_cons, List.reverse_cons] at ih
    rw [List.reverse_cons, List.splitOn_cons_eq_if_modifyHead, hw]
    by_cases hx : x = sep
    · subst hx
      rw [if_pos (by simp), List.splitOn_append_cons_self, ih]
      simp [List.splitOn_nil]
    · have hlast : lastSegment sep w.reverse = u.reverse := by simp [lastSegment, ih]
      have hfirst : [x].splitOn sep = [[x]] :=
        List.splitOn_eq_singleton fun h => hx (List.mem_singleton.mp h).symm
      rw [if_neg (by simpa using hx), splitOn_append, hlast, ih]
      simp [firstSegment, hfirst]

/-- The segments of a path behind another, when its segments but the first are others. -/
theorem mem_splitOn_append_iff {v : List α} (hw : seg ∉ (w.splitOn sep).tail) :
    seg ∈ (v ++ w).splitOn sep ↔ seg ∈ (v.splitOn sep).dropLast ∨
      lastSegment sep v ++ firstSegment sep w = seg := by
  rw [splitOn_append, List.mem_append, List.mem_cons, or_iff_left hw]
  exact or_congr_right eq_comm

theorem tail_splitOn_subset (v w : List α) : (w.splitOn sep).tail ⊆ (v ++ w).splitOn sep := by
  rw [splitOn_append]
  intro seg hseg
  simp [hseg]

theorem tail_splitOn_cons_subset (x : α) (w : List α) :
    ((x :: w).splitOn sep).tail ⊆ w.splitOn sep := by
  rw [List.splitOn_cons_eq_if_modifyHead]
  cases hw : w.splitOn sep with
  | nil => exact absurd hw (List.splitOn_ne_nil sep w)
  | cons u us => split_ifs <;> simp

/-- A path behind another brings a segment `seg` exactly where the two segments that become one
make it. -/
theorem splitOn_append_iff {v : List α} (hw : seg ∉ (w.splitOn sep).tail) :
    (∀ i : ℕ, ((v ++ w).splitOn sep)[i]? = some seg → (v.splitOn sep)[i]? = some seg) ↔
      (lastSegment sep v ++ firstSegment sep w = seg → lastSegment sep v = seg) := by
  have hv := splitOn_eq_concat sep v
  rw [splitOn_append]
  generalize (v.splitOn sep).dropLast = us at hv
  generalize lastSegment sep v = u at hv
  rw [hv]
  constructor
  · intro h hu
    simpa using h us.length (by simp [hu])
  · intro h i hi
    rcases lt_trichotomy i us.length with hlt | rfl | hgt
    · rw [List.getElem?_append_left hlt] at hi ⊢
      exact hi
    · simp only [List.getElem?_append_right le_rfl, Nat.sub_self, List.getElem?_cons_zero,
        Option.some.injEq] at hi ⊢
      exact h hi
    · obtain ⟨k, rfl⟩ := Nat.exists_eq_add_of_lt hgt
      rw [List.getElem?_append_right (by omega), Nat.add_assoc, Nat.add_sub_cancel_left,
        List.getElem?_cons_succ] at hi
      exact absurd (List.mem_of_getElem? hi) hw

end PathSegments
