import Mathlib.Data.List.Chain
import Lighttpd.Lib.TailQueue

/-!
# Removing empty chunks

`chunkqueue_remove_empty_chunks` takes the chunks with nothing left out of the list of a chunkqueue.
The chunks are cells of a memory here, with their pointers: the walk holds on to a chunk, unlinks
the one behind it if that is empty, and goes on to the next one either way, so that of two adjacent
empty chunks the second one stays.

`removeEmptyChunks_removesEmpty_iff` says for which lists no empty chunk is left.
-/

namespace Lighttpd

open TailQueue

/-- The fields of a `chunkqueue` that hold its lists, and its chunks: what `chunk_remaining_length`
gives, and `next`. -/
structure ChunkMemory where
  remaining : ℕ → ℕ
  next : ℕ → Option ℕ
  first : Option ℕ
  last : Option ℕ
  unused : Option ℕ
  unusedChunks : ℕ

namespace ChunkMemory

/-- `chunkqueue_push_unused_chunk`: the chunk is freed, or reset and kept. -/
def pushUnusedChunk (cq : ChunkMemory) (c : ℕ) : ChunkMemory :=
  if 4 < cq.unusedChunks then cq
  else
    { cq with
      remaining := Function.update cq.remaining c 0
      next := Function.update cq.next c cq.unused
      unused := some c
      unusedChunks := cq.unusedChunks + 1 }

/-- `chunkqueue_remove_finished_chunks`, with a bound for the turns of its loop. -/
def removeFinishedChunks : ℕ → ChunkMemory → Option ChunkMemory
  | 0, _ => none
  | fuel + 1, cq =>
    match cq.first with
    | none => some cq
    | some c =>
      if cq.remaining c ≠ 0 then some cq
      else
        removeFinishedChunks fuel
          (pushUnusedChunk
            { cq with
              first := cq.next c
              last := if cq.last = some c then none else cq.last } c)

/-- A turn of the walk at the chunk `c` with `empty` behind it. -/
def unlinkBehind (cq : ChunkMemory) (c empty : ℕ) : ChunkMemory :=
  pushUnusedChunk
    { cq with
      next := Function.update cq.next c (cq.next empty)
      last := if cq.last = some empty then some c else cq.last } empty

/-- The walk of `chunkqueue_remove_empty_chunks`. -/
def removeEmptyLoop : ℕ → ChunkMemory → Option ℕ → Option ChunkMemory
  | 0, _, _ => none
  | _ + 1, cq, none => some cq
  | fuel + 1, cq, some c =>
    match cq.next c with
    | none => some cq
    | some empty =>
      if cq.remaining empty = 0 then
        let cq := unlinkBehind cq c empty
        removeEmptyLoop fuel cq (cq.next c)
      else removeEmptyLoop fuel cq (cq.next c)

/-- `chunkqueue_remove_empty_chunks`. -/
def removeEmptyChunks (fuel : ℕ) (cq : ChunkMemory) : Option ChunkMemory :=
  (removeFinishedChunks fuel cq).bind fun cq =>
    if cq.first.isNone then some cq else removeEmptyLoop fuel cq cq.first

/-- The list from `first` on is `l`, and `last` points to the end of it. -/
def Holds (cq : ChunkMemory) (l : List ℕ) : Prop := Queue cq.next cq.first cq.last l

/-- The chunk has nothing left. -/
def Empty (cq : ChunkMemory) (c : ℕ) : Prop := cq.remaining c = 0

instance (cq : ChunkMemory) : DecidablePred cq.Empty :=
  fun c => inferInstanceAs (Decidable (cq.remaining c = 0))

variable {cq cq' : ChunkMemory} {l s t : List ℕ} {a b : ℕ}

theorem Holds.nodup (h : cq.Holds l) : l.Nodup := h.chain.nodup

theorem Holds.pushUnusedChunk (h : cq.Holds l) (hb : b ∉ l) :
    (cq.pushUnusedChunk b).Holds l ∧
      ∀ c ∈ l, (cq.pushUnusedChunk b).remaining c = cq.remaining c := by
  unfold ChunkMemory.pushUnusedChunk
  split_ifs
  · exact ⟨h, fun c _ => rfl⟩
  · refine ⟨Queue.update h hb _, fun c hc => Function.update_of_ne ?_ ..⟩
    rintro rfl
    exact hb hc

/-- The queue after a part of `chunkqueue_remove_empty_chunks`: its list is `l`, of chunks that are
as they were. -/
structure LeavesList (cq cq' : ChunkMemory) (l : List ℕ) : Prop where
  holds : cq'.Holds l
  remaining : ∀ c ∈ l, cq'.remaining c = cq.remaining c

theorem LeavesList.trans {cq₁ cq₂ : ChunkMemory} (h : LeavesList cq cq₁ l)
    (h' : LeavesList cq₁ cq₂ t) (hsub : t ⊆ l) : LeavesList cq cq₂ t :=
  ⟨h'.holds, fun c hc => (h'.remaining c hc).trans (h.remaining c (hsub hc))⟩

/-! ## Chunks at the front -/

/-- A list without the empty chunks at its front. -/
def trimmed (cq : ChunkMemory) (l : List ℕ) : List ℕ := l.dropWhile fun c => cq.Empty c

theorem trimmed_cons_pos (ha : cq.Empty a) : cq.trimmed (a :: l) = cq.trimmed l :=
  List.dropWhile_cons_of_pos (decide_eq_true ha)

theorem trimmed_cons_neg (ha : ¬ cq.Empty a) : cq.trimmed (a :: l) = a :: l :=
  List.dropWhile_cons_of_neg (by simpa using ha)

theorem trimmed_subset (cq : ChunkMemory) (l : List ℕ) : cq.trimmed l ⊆ l :=
  (List.dropWhile_sublist _).subset

theorem trimmed_congr (h : ∀ c ∈ l, cq'.remaining c = cq.remaining c) :
    cq'.trimmed l = cq.trimmed l := by
  induction l with
  | nil => rfl
  | cons a l ih =>
    have hl := ih fun c hc => h c (List.mem_cons_of_mem a hc)
    have ha : cq'.Empty a ↔ cq.Empty a := by rw [Empty, Empty, h a List.mem_cons_self]
    by_cases hempty : cq.Empty a
    · rw [trimmed_cons_pos hempty, trimmed_cons_pos (ha.mpr hempty), hl]
    · rw [trimmed_cons_neg hempty, trimmed_cons_neg (mt ha.mp hempty)]

theorem removeFinishedChunks_spec {fuel : ℕ} (hfuel : l.length < fuel) (h : cq.Holds l) :
    ∃ cq', removeFinishedChunks fuel cq = some cq' ∧ LeavesList cq cq' (cq.trimmed l) := by
  induction l generalizing fuel cq with
  | nil =>
    obtain ⟨fuel, rfl⟩ := Nat.exists_eq_succ_of_ne_zero (Nat.ne_of_gt hfuel)
    have hfirst : cq.first = none := h.chain
    exact ⟨cq, by simp only [removeFinishedChunks, hfirst], h, fun c hc => rfl⟩
  | cons a l ih =>
    obtain ⟨fuel, rfl⟩ := Nat.exists_eq_succ_of_ne_zero (Nat.ne_of_gt (Nat.zero_lt_of_lt hfuel))
    have hfirst : cq.first = some a := h.chain.1
    by_cases ha : cq.Empty a
    · have hnot : a ∉ l := (List.nodup_cons.mp h.nodup).1
      have hpop : Holds
          { cq with
            first := cq.next a
            last := if cq.last = some a then none else cq.last } l := Queue.pop h
      obtain ⟨hpushed, hsame⟩ := hpop.pushUnusedChunk hnot
      obtain ⟨cq', hrun, hleaves⟩ := ih (by simpa using hfuel) hpushed
      rw [trimmed_congr hsame] at hleaves
      refine ⟨cq', ?_, ?_⟩
      · rw [removeFinishedChunks]
        simp only [hfirst]
        rw [if_neg (not_not.mpr (show cq.remaining a = 0 from ha))]
        exact hrun
      · rw [trimmed_cons_pos ha]
        exact ⟨hleaves.holds, fun c hc =>
          (hleaves.remaining c hc).trans (hsame c (trimmed_subset cq l hc))⟩
    · refine ⟨cq, ?_, ?_⟩
      · rw [removeFinishedChunks]
        simp only [hfirst]
        rw [if_pos (show cq.remaining a ≠ 0 from ha)]
      · rw [trimmed_cons_neg ha]
        exact ⟨h, fun c _ => rfl⟩

/-- What the walk leaves of a list: a chunk stays when the walk comes to it. -/
def walked (cq : ChunkMemory) : List ℕ → List ℕ
  | [] => []
  | [a] => [a]
  | a :: b :: l => if cq.Empty b then a :: walked cq l else a :: walked cq (b :: l)

theorem walked_subset (cq : ChunkMemory) : ∀ l : List ℕ, cq.walked l ⊆ l
  | [] => List.Subset.refl _
  | [_] => List.Subset.refl _
  | a :: b :: l => by
    rw [walked]
    split_ifs
    · exact List.cons_subset_cons a fun c hc => List.mem_cons_of_mem b (walked_subset cq l hc)
    · exact List.cons_subset_cons a (walked_subset cq (b :: l))

theorem walked_congr : ∀ {l : List ℕ}, (∀ c ∈ l, cq'.remaining c = cq.remaining c) →
    cq'.walked l = cq.walked l
  | [], _ => rfl
  | [_], _ => rfl
  | a :: b :: l, h => by
    have hb : cq'.Empty b ↔ cq.Empty b := by rw [Empty, Empty, h b (by simp)]
    have hl := walked_congr (l := l) fun c hc => h c (by simp [hc])
    have hbl := walked_congr (l := b :: l) fun c hc => h c (List.mem_cons_of_mem a hc)
    simp only [walked, hb, hl, hbl]

theorem unlinkBehind_spec (h : cq.Holds (s ++ a :: b :: l)) :
    LeavesList cq (cq.unlinkBehind a b) (s ++ a :: l) := by
  have hnot : b ∉ s ++ a :: l := by
    have hnodup := h.nodup
    rw [show s ++ a :: b :: l = (s ++ [a]) ++ b :: l by simp] at hnodup
    have hb := (List.nodup_cons.mp (List.nodup_middle.mp hnodup)).1
    simpa using hb
  have hunlink : Holds
      { cq with
        next := Function.update cq.next a (cq.next b)
        last := if cq.last = some b then some a else cq.last } (s ++ a :: l) := Queue.unlink h
  obtain ⟨hholds, hsame⟩ := hunlink.pushUnusedChunk hnot
  exact ⟨hholds, hsame⟩

/-- The walk from a chunk on, with `s` in front of it. -/
theorem removeEmptyLoop_spec {fuel : ℕ} {s l : List ℕ} {cq : ChunkMemory}
    (hfuel : l.length < fuel) (h : cq.Holds (s ++ l)) :
    ∃ cq', removeEmptyLoop fuel cq l.head? = some cq' ∧
      LeavesList cq cq' (s ++ cq.walked l) := by
  induction fuel generalizing s l cq with
  | zero => exact absurd hfuel (Nat.not_lt_zero _)
  | succ fuel ih =>
    rcases l with _ | ⟨a, _ | ⟨b, l⟩⟩
    · exact ⟨cq, rfl, h, fun c _ => rfl⟩
    · have hnext : cq.next a = none := h.chain.drop
      refine ⟨cq, ?_, h, fun c _ => rfl⟩
      rw [List.head?_cons, removeEmptyLoop]
      simp only [hnext]
    · have hnext : cq.next a = some b := h.chain.drop.1
      rw [List.head?_cons, removeEmptyLoop]
      simp only [hnext]
      simp only [List.length_cons] at hfuel
      by_cases hb : cq.Empty b
      · have hleft := unlinkBehind_spec h
        have hhead : (cq.unlinkBehind a b).next a = l.head? := hleft.holds.chain.drop.head?
        have hsame : (cq.unlinkBehind a b).walked l = cq.walked l :=
          walked_congr fun c hc => hleft.remaining c (by simp [hc])
        have hholds : (cq.unlinkBehind a b).Holds ((s ++ [a]) ++ l) := by
          simpa using hleft.holds
        obtain ⟨cq', hrun, hleaves⟩ := ih (by omega) hholds
        rw [hsame] at hleaves
        refine ⟨cq', ?_, ?_⟩
        · rw [if_pos (show cq.remaining b = 0 from hb), hhead]
          exact hrun
        · rw [walked, if_pos hb]
          rw [List.append_assoc, List.singleton_append] at hleaves
          refine hleft.trans hleaves fun c hc => ?_
          simp only [List.mem_append, List.mem_cons] at hc ⊢
          exact hc.imp_right (Or.imp_right fun hc => walked_subset cq l hc)
      · have hholds : cq.Holds ((s ++ [a]) ++ b :: l) := by simpa using h
        obtain ⟨cq', hrun, hleaves⟩ := ih (by simp only [List.length_cons]; omega) hholds
        refine ⟨cq', ?_, ?_⟩
        · rw [if_neg (show ¬ cq.remaining b = 0 from hb)]
          exact hrun
        · rw [walked, if_neg hb]
          simpa using hleaves

/-- No two empty chunks are side by side. -/
def EmptyApart (cq : ChunkMemory) (l : List ℕ) : Prop :=
  l.IsChain fun a b => ¬ (cq.Empty a ∧ cq.Empty b)

/-- The chunks that are not empty. -/
def nonempty (cq : ChunkMemory) (l : List ℕ) : List ℕ := l.filter fun c => ¬ cq.Empty c

theorem nonempty_cons_pos (ha : cq.Empty a) : cq.nonempty (a :: l) = cq.nonempty l :=
  List.filter_cons_of_neg (by simpa using ha)

theorem nonempty_cons_neg (ha : ¬ cq.Empty a) : cq.nonempty (a :: l) = a :: cq.nonempty l :=
  List.filter_cons_of_pos (by simpa using ha)

theorem walked_ne_nonempty (ha : cq.Empty a) (l : List ℕ) :
    cq.walked (a :: l) ≠ cq.nonempty (a :: l) := by
  intro h
  have hmem : a ∈ cq.walked (a :: l) := by
    cases l with
    | nil => exact List.mem_cons_self
    | cons b l =>
      rw [walked]
      split_ifs <;> exact List.mem_cons_self
  rw [h] at hmem
  exact absurd ha (by simpa using List.of_mem_filter hmem)

/-- Behind a chunk that is not empty, the walk leaves no empty chunk if and only if no two of them
are side by side. -/
theorem walked_eq_nonempty_iff : ∀ (l : List ℕ) (a : ℕ), ¬ cq.Empty a →
    (cq.walked (a :: l) = cq.nonempty (a :: l) ↔ cq.EmptyApart (a :: l))
  | [], a, ha => by
    rw [nonempty_cons_neg ha]
    exact iff_of_true rfl (List.isChain_singleton a)
  | [b], a, ha => by
    rw [nonempty_cons_neg ha, walked]
    by_cases hb : cq.Empty b
    · rw [if_pos hb, nonempty_cons_pos hb]
      refine iff_of_true rfl ?_
      exact List.isChain_pair.mpr fun h => ha h.1
    · rw [if_neg hb, nonempty_cons_neg hb]
      exact iff_of_true rfl (List.isChain_pair.mpr fun h => ha h.1)
  | b :: c :: l, a, ha => by
    have hapart : cq.EmptyApart (a :: b :: c :: l) ↔ cq.EmptyApart (b :: c :: l) := by
      rw [EmptyApart, List.isChain_cons_cons]
      exact and_iff_right fun h => ha h.1
    rw [hapart, nonempty_cons_neg ha, walked]
    by_cases hb : cq.Empty b
    · rw [if_pos hb, nonempty_cons_pos hb, List.cons_inj_right]
      by_cases hc : cq.Empty c
      · refine iff_of_false (walked_ne_nonempty hc l) fun h => ?_
        exact (List.isChain_cons_cons.mp h).1 ⟨hb, hc⟩
      · rw [walked_eq_nonempty_iff l c hc, EmptyApart, EmptyApart, List.isChain_cons_cons]
        exact (and_iff_right fun h => hc h.2).symm
    · rw [if_neg hb, List.cons_inj_right]
      exact walked_eq_nonempty_iff (c :: l) b hb

/-! ## The whole operation -/

/-- The operation ends, whatever the bound is beyond the length of the list, and leaves the chunks
that are not empty, in order and as they were, with `last` at the end of them. -/
def RemovesEmpty (cq : ChunkMemory) (l : List ℕ) : Prop :=
  ∀ fuel > l.length, ∃ cq', removeEmptyChunks fuel cq = some cq' ∧
    LeavesList cq cq' (cq.nonempty l)

theorem nonempty_trimmed (cq : ChunkMemory) (l : List ℕ) :
    cq.nonempty (cq.trimmed l) = cq.nonempty l := by
  induction l with
  | nil => rfl
  | cons a l ih =>
    by_cases ha : cq.Empty a
    · rw [trimmed_cons_pos ha, nonempty_cons_pos ha, ih]
    · rw [trimmed_cons_neg ha]

theorem head_trimmed {c : ℕ} (h : cq.trimmed l = c :: t) : ¬ cq.Empty c := by
  have hhead := List.head?_dropWhile_not (fun c => decide (cq.Empty c)) l
  rw [show l.dropWhile (fun c => decide (cq.Empty c)) = c :: t from h] at hhead
  simpa using hhead

/-- What `chunkqueue_remove_empty_chunks` leaves. -/
theorem removeEmptyChunks_spec {fuel : ℕ} (hfuel : l.length < fuel) (h : cq.Holds l) :
    ∃ cq', removeEmptyChunks fuel cq = some cq' ∧
      LeavesList cq cq' (cq.walked (cq.trimmed l)) := by
  obtain ⟨cq₁, hrun₁, hleaves₁⟩ := removeFinishedChunks_spec hfuel h
  have hsub := trimmed_subset cq l
  have hfirst : cq₁.first = (cq.trimmed l).head? := hleaves₁.holds.chain.head?
  rw [removeEmptyChunks, hrun₁, Option.bind_some, hfirst]
  rcases htrim : cq.trimmed l with _ | ⟨a, t⟩
  · rw [htrim] at hleaves₁
    exact ⟨cq₁, rfl, hleaves₁⟩
  · rw [htrim] at hleaves₁ hsub
    have hlen : (a :: t).length < fuel :=
      Nat.lt_of_le_of_lt (htrim ▸ (List.dropWhile_sublist _).length_le) hfuel
    obtain ⟨cq₂, hrun₂, hleaves₂⟩ := removeEmptyLoop_spec (s := []) hlen hleaves₁.holds
    rw [walked_congr hleaves₁.remaining, List.nil_append] at hleaves₂
    exact ⟨cq₂, hrun₂, hleaves₁.trans hleaves₂ (walked_subset cq (a :: t))⟩

/-- All empty chunks are removed if and only if, behind the empty chunks at the front, no two empty
chunks are side by side. -/
theorem removeEmptyChunks_removesEmpty_iff (h : cq.Holds l) :
    cq.RemovesEmpty l ↔ cq.EmptyApart (cq.trimmed l) := by
  have hlist : cq.RemovesEmpty l ↔ cq.walked (cq.trimmed l) = cq.nonempty (cq.trimmed l) := by
    rw [nonempty_trimmed]
    constructor
    · intro hremoves
      obtain ⟨cq₁, hrun₁, hleaves₁⟩ := hremoves (l.length + 1) (Nat.lt_succ_self _)
      obtain ⟨cq₂, hrun₂, hleaves₂⟩ := removeEmptyChunks_spec (Nat.lt_succ_self _) h
      obtain rfl := Option.some.inj (hrun₁.symm.trans hrun₂)
      exact hleaves₂.holds.chain.unique hleaves₁.holds.chain
    · intro heq fuel hfuel
      rw [← heq]
      exact removeEmptyChunks_spec hfuel h
  rw [hlist]
  rcases htrim : cq.trimmed l with _ | ⟨a, t⟩
  · exact iff_of_true rfl List.isChain_nil
  · exact walked_eq_nonempty_iff t a (head_trimmed htrim)

/-- Four chunks, of which those with these numbers are empty. -/
def fourChunks (empty : List ℕ) : ChunkMemory where
  remaining c := if c ∈ empty then 0 else 1
  next c := if c < 3 then some (c + 1) else none
  first := some 0
  last := some 3
  unused := none
  unusedChunks := 0

theorem fourChunks_holds (empty : List ℕ) : (fourChunks empty).Holds [0, 1, 2, 3] :=
  ⟨⟨rfl, rfl, rfl, rfl, rfl⟩, rfl⟩

theorem removeEmptyChunks_removesEmpty_iff_apart :
    (fourChunks [1, 3]).RemovesEmpty [0, 1, 2, 3] ↔
      (fourChunks [1, 3]).EmptyApart ((fourChunks [1, 3]).trimmed [0, 1, 2, 3]) :=
  removeEmptyChunks_removesEmpty_iff (fourChunks_holds [1, 3])

/-- Of two empty chunks side by side the second one stays. -/
theorem not_removesEmpty :
    (fourChunks [1, 2]).Holds [0, 1, 2, 3] ∧
      (∃ cq, removeEmptyChunks 5 (fourChunks [1, 2]) = some cq ∧ cq.Holds [0, 2, 3]) ∧
        ¬ (fourChunks [1, 2]).RemovesEmpty [0, 1, 2, 3] := by
  have hwalked : (fourChunks [1, 2]).walked ((fourChunks [1, 2]).trimmed [0, 1, 2, 3]) =
      [0, 2, 3] := by decide
  obtain ⟨cq, hrun, hleaves⟩ := removeEmptyChunks_spec (show [0, 1, 2, 3].length < 5 by decide)
    (fourChunks_holds [1, 2])
  rw [hwalked] at hleaves
  refine ⟨fourChunks_holds [1, 2], ⟨cq, hrun, hleaves.holds⟩, fun hremoves => ?_⟩
  obtain ⟨cq', hrun', hleaves'⟩ := hremoves 5 (by decide)
  obtain rfl := Option.some.inj (hrun.symm.trans hrun')
  have hlist := hleaves.holds.chain.unique hleaves'.holds.chain
  exact absurd hlist (by decide)

end ChunkMemory

end Lighttpd
