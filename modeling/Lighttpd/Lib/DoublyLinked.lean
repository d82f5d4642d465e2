import Mathlib.Data.List.Nodup
import Mathlib.Data.List.Perm.Subperm
import Mathlib.Logic.Function.Basic

/-!
# Doubly linked lists

The cells of a memory are linked by two maps `next` and `prev`. `Chain next prev before p l` says
that the pointer `p` leads to the cells `l`, each linked to its neighbours in both directions, and
that the first of them has `before` in front of it. A chain is determined by its pointer
(`Chain.unique`) and has no cell twice (`Chain.nodup`). A cell is put in front (`Chain.push`) or
taken out (`Chain.unlink`) by writes to its neighbours.
-/

namespace DoublyLinked

open Function

variable {α : Type*} {next prev next' prev' : α → Option α} {before before' p : Option α}
  {a : α} {l s t : List α}

/-- The cells `l` reached from `p`, linked in both directions and behind `before`. -/
def Chain (next prev : α → Option α) : Option α → Option α → List α → Prop
  | _, p, [] => p = none
  | before, p, a :: l => p = some a ∧ prev a = before ∧ Chain next prev (some a) (next a) l

theorem Chain.head? : ∀ {before p : Option α} {l : List α},
    Chain next prev before p l → p = l.head?
  | _, _, [], h => h
  | _, _, _ :: _, h => h.1

/-- The pointer to a chain leads to none of the cells of another. -/
theorem Chain.head_ne (h : Chain next prev before p l) (hd : ∀ b ∈ l, b ∉ t) :
    ∀ b ∈ t, p ≠ some b :=
  fun b hb hp => hd b (List.mem_of_mem_head? (h.head? ▸ hp)) hb

/-- The pointer that enters the part `t` of a chain. -/
theorem Chain.next_eq : ∀ {s : List α} {before p : Option α},
    Chain next prev before p (s ++ a :: t) → next a = t.head?
  | [], _, _, h => h.2.2.head?
  | _ :: s, _, _, h => Chain.next_eq (s := s) h.2.2

theorem Chain.prev_eq : ∀ {s : List α} {before p : Option α},
    Chain next prev before p (s ++ a :: t) → prev a = s.getLast?.or before
  | [], _, _, h => h.2.1
  | [b], before, _, h => by simpa using Chain.prev_eq (s := []) h.2.2
  | b :: c :: s, before, _, h => by
    have ih := Chain.prev_eq (s := c :: s) h.2.2
    rw [ih, List.getLast?_cons_cons]
    simp [List.getLast?_cons]

/-- A chain does not change with cells that it does not have. -/
theorem Chain.congr : ∀ {l : List α} {before p : Option α}, Chain next prev before p l →
    (∀ b ∈ l, next' b = next b) → (∀ b ∈ l, prev' b = prev b) → Chain next' prev' before p l
  | [], _, _, h, _, _ => h
  | a :: l, _, _, ⟨hp, hb, h⟩, hn, hv => by
    refine ⟨hp, by rw [hv a List.mem_cons_self, hb], ?_⟩
    rw [hn a List.mem_cons_self]
    exact h.congr (fun b hb => hn b (List.mem_cons_of_mem a hb))
      fun b hb => hv b (List.mem_cons_of_mem a hb)

theorem Chain.unique : ∀ {l s : List α} {before before' p : Option α},
    Chain next prev before p l → Chain next prev before' p s → l = s
  | [], [], _, _, _, _, _ => rfl
  | [], _ :: _, _, _, _, h, h' => by simp [show _ = none from h] at h'; exact absurd h'.1 (by simp)
  | _ :: _, [], _, _, _, h, h' => by simp [show _ = none from h'] at h; exact absurd h.1 (by simp)
  | a :: l, b :: s, _, _, _, ⟨hp, _, h⟩, ⟨hp', _, h'⟩ => by
    obtain rfl : a = b := Option.some.inj (hp.symm.trans hp')
    rw [h.unique h']

theorem Chain.of_append : ∀ {s : List α} {before p : Option α},
    Chain next prev before p (s ++ t) → ∃ before' p', Chain next prev before' p' t
  | [], before, p, h => ⟨before, p, h⟩
  | _ :: s, _, _, h => Chain.of_append (s := s) h.2.2

theorem Chain.nodup : ∀ {l : List α} {before p : Option α}, Chain next prev before p l → l.Nodup
  | [], _, _, _ => List.nodup_nil
  | a :: l, before, p, h => by
    refine List.nodup_cons.mpr ⟨fun ha => ?_, h.2.2.nodup⟩
    -- the chain behind `a` would be the chain from `a`, which is longer
    obtain ⟨s, t, rfl⟩ := List.append_of_mem ha
    obtain ⟨b, q, ht⟩ := h.2.2.of_append
    obtain rfl := h.1
    obtain rfl := ht.1
    have := congrArg List.length (ht.unique h)
    simp at this
    omega

theorem Chain.length_le {live : List α} (h : Chain next prev before p l) (hl : ∀ b ∈ l, b ∈ live) :
    l.length ≤ live.length :=
  (List.subperm_of_subset h.nodup hl).length_le

/-- The write `p->field = v` of code that first tests `p`. -/
def update? [DecidableEq α] (f : α → Option α) (p v : Option α) : α → Option α :=
  match p with
  | none => f
  | some a => update f a v

theorem update?_of_ne [DecidableEq α] {f : α → Option α} {v : Option α} {b : α}
    (h : p ≠ some b) : update? f p v b = f b := by
  rcases p with _ | a
  · rfl
  · exact update_of_ne (fun hb => h (by rw [hb])) _ _

theorem update?_some [DecidableEq α] (f : α → Option α) (a : α) (v : Option α) :
    update? f (some a) v a = v := update_self _ _ _

theorem Chain.frame [DecidableEq α] {q x y : Option α} (h : Chain next prev before q l)
    (ha : a ∉ l) (hp : ∀ b ∈ l, p ≠ some b) :
    Chain (update next a x) (update? prev p y) before q l :=
  h.congr (fun b hb => update_of_ne (fun e : b = a => ha (e ▸ hb)) _ _)
    fun b hb => update?_of_ne (hp b hb)

/-- A cell with nothing in front of it is put in front of a chain. -/
theorem Chain.push [DecidableEq α] (h : Chain next prev none p l) (ha : a ∉ l)
    (hprev : prev a = none) :
    Chain (update next a p) (update? prev p (some a)) none (some a) (a :: l) := by
  have hpa : p ≠ some a := fun hp => ha (List.mem_of_mem_head? (h.head? ▸ hp))
  refine ⟨rfl, by rw [update?_of_ne hpa, hprev], ?_⟩
  rw [update_self]
  rcases l with _ | ⟨b, l⟩
  · exact h
  · obtain ⟨rfl, hb, hl⟩ := h
    have hbl : b ∉ l := (List.nodup_cons.mp (Chain.nodup ⟨rfl, hb, hl⟩)).1
    have hne : ∀ c ∈ b :: l, c ≠ a := fun c hc e => ha (e ▸ hc)
    refine ⟨rfl, update?_some _ _ _, ?_⟩
    rw [update_of_ne (hne b List.mem_cons_self)]
    refine hl.frame (fun hal => ha (List.mem_cons_of_mem b hal)) fun c hc => ?_
    rintro ⟨⟩
    exact hbl hc

/-- A cell between two parts of a chain is taken out by the writes to its neighbours. -/
theorem Chain.unlink [DecidableEq α] : ∀ {s : List α} {before p : Option α},
    Chain next prev before p (s ++ a :: t) → (∀ b ∈ s ++ a :: t, before ≠ some b) →
      Chain (update? next (prev a) (next a)) (update? prev (next a) (prev a)) before
        (if s = [] then next a else p) (s ++ t)
  | [], before, p, h, hb => by
    obtain ⟨rfl, rfl, ht⟩ := h
    rw [if_pos rfl, List.nil_append]
    rcases t with _ | ⟨c, t⟩
    · exact ht
    · obtain ⟨hc, hca, ht'⟩ := ht
      have hnd : (c :: t).Nodup := Chain.nodup ⟨hc, hca, ht'⟩
      have hcn : prev a ≠ some c := hb c (by simp)
      refine ⟨hc, by rw [hc, update?_some], ?_⟩
      rw [update?_of_ne hcn]
      refine ht'.congr (fun d hd => update?_of_ne (hb d (by simp [hd]))) fun d hd => ?_
      rw [hc, update?_of_ne]
      rintro ⟨⟩
      exact (List.nodup_cons.mp hnd).1 hd
  | c :: s, before, p, h, hb => by
    have hnd : (c :: s ++ a :: t).Nodup := h.nodup
    have hprev := h.prev_eq
    have hnext := h.next_eq
    obtain ⟨rfl, hcb, hs⟩ := h
    have hcn : c ∉ s ++ a :: t := (List.nodup_cons.mp hnd).1
    rw [if_neg (by simp)]
    refine ⟨rfl, ?_, ?_⟩
    · -- the cell behind `a` is not the first of the chain
      rw [update?_of_ne, hcb]
      rw [hnext]
      intro hc
      exact hcn (by simp [List.mem_of_mem_head? hc])
    · have ih := hs.unlink fun b hbs hc => hcn (Option.some.inj hc ▸ hbs)
      rcases s with _ | ⟨d, s⟩
      · have hpa : prev a = some c := by simpa using hprev
        rw [hpa, update?_some]
        rw [if_pos rfl, hpa] at ih
        exact ih
      · -- `a` has its predecessor in `d :: s`, so that the first cell keeps its `next`
        rw [if_neg (by simp)] at ih
        rw [update?_of_ne]
        · exact ih
        · rw [hprev, List.getLast?_cons_cons]
          intro hc
          have hmem : c ∈ d :: s := by
            refine List.mem_of_getLast? (l := d :: s) ?_
            simpa [List.getLast?_cons] using hc
          exact hcn (List.mem_append_left _ hmem)

/-- The links `next'` and `prev'` are those left behind when `a` was taken out: its neighbours are
linked to each other. -/
def Unlinked [DecidableEq α] (next prev : α → Option α) (a : α) (next' prev' : α → Option α) :
    Prop :=
  ∀ b, b ≠ a → next' b = update? next (prev a) (next a) b ∧ prev' b = update? prev (next a) (prev a) b

theorem Unlinked.chain [DecidableEq α] (hu : Unlinked next prev a next' prev')
    (h : Chain next prev none p (s ++ a :: t)) :
    Chain next' prev' none (if s = [] then next a else p) (s ++ t) := by
  have hne : ∀ b ∈ s ++ t, b ≠ a := by
    have hnd := List.nodup_middle.mp h.nodup
    exact fun b hb e => (List.nodup_cons.mp hnd).1 (e ▸ hb)
  exact (h.unlink fun b _ => by simp).congr (fun b hb => (hu b (hne b hb)).1)
    fun b hb => (hu b (hne b hb)).2

theorem Unlinked.frame [DecidableEq α] {q : Option α} (hu : Unlinked next prev a next' prev')
    (h : Chain next prev none q l) (hc : Chain next prev none p (s ++ a :: t))
    (hd : ∀ b ∈ s ++ a :: t, b ∉ l) : Chain next' prev' none q l := by
  have hprev : ∀ b ∈ l, prev a ≠ some b := by
    intro b hb he
    rw [hc.prev_eq, Option.or_none] at he
    exact hd b (List.mem_append_left _ (List.mem_of_getLast? he)) hb
  have hnext : ∀ b ∈ l, next a ≠ some b := by
    intro b hb he
    rw [hc.next_eq] at he
    exact hd b (by simp [List.mem_of_mem_head? he]) hb
  have hne : ∀ b ∈ l, b ≠ a := fun b hb e => hd a (by simp) (e ▸ hb)
  refine h.congr (fun b hb => ?_) fun b hb => ?_
  · rw [(hu b (hne b hb)).1, update?_of_ne (hprev b hb)]
  · rw [(hu b (hne b hb)).2, update?_of_ne (hnext b hb)]

theorem Chain.ne_self (h : Chain next prev none p (s ++ a :: t)) :
    next a ≠ some a ∧ prev a ≠ some a := by
  have hnd := List.nodup_middle.mp h.nodup
  refine ⟨fun he => ?_, fun he => ?_⟩
  · rw [h.next_eq] at he
    exact (List.nodup_cons.mp hnd).1 (by simp [List.mem_of_mem_head? he])
  · rw [h.prev_eq, Option.or_none] at he
    exact (List.nodup_cons.mp hnd).1 (by simp [List.mem_of_getLast? he])

theorem Chain.prev_eq_none_iff (h : Chain next prev none p (s ++ a :: t)) :
    prev a = none ↔ s = [] := by
  rw [h.prev_eq, Option.or_none, List.getLast?_eq_none_iff]

/-- The pointer leads to `a` only when it is the first cell. -/
theorem Chain.head_eq_iff (h : Chain next prev none p (s ++ a :: t)) : p = some a ↔ s = [] := by
  have hnd := List.nodup_middle.mp h.nodup
  rw [h.head?]
  rcases s with _ | ⟨c, s⟩
  · simp
  · have hca : c ≠ a := fun e => (List.nodup_cons.mp hnd).1 (by simp [e])
    simp [hca]

end DoublyLinked
