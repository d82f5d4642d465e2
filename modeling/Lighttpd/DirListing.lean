import Lighttpd.ConfigTokenizer
import Lighttpd.SsiExprParser
import Lighttpd.Lib.Inversions
import Lighttpd.Lib.FaultRuns

/-!
# The order of a directory listing

`http_dirls_sort` of `mod_dirlisting.c`: a comb sort on the pointers to the entries of a directory.
The gap falls until it is 1, and no step of the sequence 9, 10 → 11 lets it rise; from then on every
pass that exchanges anything takes an inversion away. The sort stops only behind a pass over
neighbours that exchanged nothing.
-/

namespace Lighttpd

open CString FaultRuns Inversions

/-! ## The sort -/

/-- `dirls_entry_t` with the name behind it. -/
structure DirlsEntry where
  namelen : ℕ
  mtime : ℤ
  size : ℤ
  name : Bytes
  name_length : name.length = namelen
  name_ends : 0 ∉ name

/-- How a sort can stop short: `gap * 10` beyond an `int`, an entry outside the array, or rounds
left to do. -/
inductive SortFault
  | overflow
  | range
  | running
  deriving DecidableEq, Repr

/-- The gap of the next round. -/
def dirlsGap (gap : ℕ) : Except SortFault ℕ :=
  if intMax < gap * 10 then .error .overflow
  else
    let gap := gap * 10 / 13
    let gap := if gap = 9 ∨ gap = 10 then 11 else gap
    .ok (if gap < 1 then 1 else gap)

/-- The entries in the course of a round, and `swapped`. -/
structure DirlsRound where
  ent : List DirlsEntry
  swapped : Bool

/-- `strcmp(DIRLIST_ENT_NAME(a), DIRLIST_ENT_NAME(b)) > 0` -/
def nameAfter (a b : DirlsEntry) : Bool := strcmp a.name b.name > 0

/-- The body of the `for` loop. -/
def dirlsExchange (gap : ℕ) (s : DirlsRound) (i : ℕ) : Except SortFault DirlsRound :=
  match s.ent[i]?, s.ent[i + gap]? with
  | some a, some b =>
    .ok (if nameAfter a b then ⟨(s.ent.set i b).set (i + gap) a, true⟩ else s)
  | _, _ => .error .range

/-- The `for` loop of one round. -/
def dirlsRound (num gap : ℕ) (ent : List DirlsEntry) : Except SortFault DirlsRound :=
  (List.range (num - gap)).foldlM (dirlsExchange gap) ⟨ent, false⟩

/-- The `do` loop, with at most as many rounds as given. -/
def dirlsLoop (num : ℕ) : ℕ → ℕ → List DirlsEntry → Except SortFault (List DirlsEntry)
  | 0, _, _ => .error .running
  | rounds + 1, gap, ent => do
    let gap ← dirlsGap gap
    let s ← dirlsRound num gap ent
    if gap > 1 ∨ s.swapped then dirlsLoop num rounds gap s.ent else .ok s.ent

/-- `http_dirls_sort` -/
def httpDirlsSort (rounds : ℕ) (ent : List DirlsEntry) : Except SortFault (List DirlsEntry) :=
  dirlsLoop ent.length rounds ent.length ent

theorem strcmpFrom_swap : ∀ s t : Bytes, strcmpFrom t s = -strcmpFrom s t
  | [], [] => rfl
  | [], _ :: _ => rfl
  | _ :: _, [] => rfl
  | a :: s, b :: t => by
    have ih := strcmpFrom_swap s t
    simp only [strcmpFrom, UInt8.lt_iff_toNat_lt]
    split_ifs <;> omega

theorem strcmpFrom_trans : ∀ s t u : Bytes, strcmpFrom s t ≤ 0 → strcmpFrom t u ≤ 0 →
    strcmpFrom s u ≤ 0
  | [], _, [], _, _ => le_rfl
  | [], _, _ :: _, _, _ => by simp [strcmpFrom]
  | _ :: _, [], _, h, _ => by simp [strcmpFrom] at h
  | _ :: _, _ :: _, [], _, h => by simp [strcmpFrom] at h
  | a :: s, b :: t, c :: u, hst, htu => by
    have ih := strcmpFrom_trans s t u
    simp only [strcmpFrom, UInt8.lt_iff_toNat_lt] at hst htu ⊢
    split_ifs at hst htu ⊢ <;> omega

theorem nameAfter_false {a b : DirlsEntry} :
    nameAfter a b = false ↔ strcmp a.name b.name ≤ 0 := by
  simp [nameAfter]

theorem nameAfter_asymm {a b : DirlsEntry} (h : nameAfter a b = true) : nameAfter b a = false := by
  have hgreater : 0 < strcmp a.name b.name := by simpa [nameAfter] using h
  have hswap : strcmp b.name a.name = -strcmp a.name b.name := strcmpFrom_swap _ _
  rw [nameAfter_false]
  omega

theorem nameAfter_trans (a b c : DirlsEntry) (hab : nameAfter a b = false)
    (hbc : nameAfter b c = false) : nameAfter a c = false := by
  rw [nameAfter_false] at hab hbc ⊢
  exact strcmpFrom_trans _ _ _ hab hbc

theorem dirlsGap_eq {gap : ℕ} (h : gap * 10 ≤ intMax) :
    ∃ gap', dirlsGap gap = .ok gap' ∧ 1 ≤ gap' ∧ (1 < gap → gap' < gap) ∧ (gap ≤ 1 → gap' = 1) := by
  refine ⟨_, by rw [dirlsGap, if_neg (by omega)], ?_, ?_, ?_⟩ <;>
    split_ifs <;> omega

/-- What a round keeps, seen from any of its exchanges. -/
structure RoundFrom (gap : ℕ) (s : DirlsRound) (is : List ℕ) (s' : DirlsRound) : Prop where
  perm : s'.ent.Perm s.ent
  quiet : s'.swapped = false → s' = s ∧
    ∀ i ∈ is, ∀ a b, s.ent[i]? = some a → s.ent[i + gap]? = some b → nameAfter a b = false
  fewer : gap = 1 → s'.swapped = true → s.swapped = true ∨
    inversions nameAfter s'.ent < inversions nameAfter s.ent
  not_more : gap = 1 → inversions nameAfter s'.ent ≤ inversions nameAfter s.ent

theorem RoundFrom.refl (gap : ℕ) (s : DirlsRound) : RoundFrom gap s [] s where
  perm := .refl _
  quiet _ := ⟨rfl, by simp⟩
  fewer _ h := .inl h
  not_more _ := le_rfl

theorem RoundFrom.cons {gap i : ℕ} {is : List ℕ} {s s₁ s' : DirlsRound}
    (h₁ : RoundFrom gap s [i] s₁) (h : RoundFrom gap s₁ is s') :
    RoundFrom gap s (i :: is) s' where
  perm := h.perm.trans h₁.perm
  quiet hswapped := by
    obtain ⟨rfl, his⟩ := h.quiet hswapped
    obtain ⟨rfl, hi⟩ := h₁.quiet hswapped
    refine ⟨rfl, fun j hj a b ha hb => ?_⟩
    rcases List.mem_cons.mp hj with rfl | hj
    · exact hi j (List.mem_singleton_self j) a b ha hb
    · exact his j hj a b ha hb
  fewer hgap hswapped := by
    have hmore := h₁.not_more hgap
    rcases h.fewer hgap hswapped with hs₁ | hlt
    · exact (h₁.fewer hgap hs₁).imp id fun hlt => (h.not_more hgap).trans_lt hlt
    · exact .inr (hlt.trans_le hmore)
  not_more hgap := (h.not_more hgap).trans (h₁.not_more hgap)

theorem dirlsExchange_gives {gap i : ℕ} {s : DirlsRound} (hi : i + gap < s.ent.length) :
    Gives (dirlsExchange gap s i) (RoundFrom gap s [i]) := by
  obtain ⟨a, ha⟩ : ∃ a, s.ent[i]? = some a := ⟨_, List.getElem?_eq_getElem (by omega)⟩
  obtain ⟨b, hb⟩ : ∃ b, s.ent[i + gap]? = some b := ⟨_, List.getElem?_eq_getElem hi⟩
  rw [dirlsExchange, ha, hb]
  by_cases hafter : nameAfter a b = true
  · have hdown : gap = 1 → inversions nameAfter ((s.ent.set i b).set (i + gap) a) <
        inversions nameAfter s.ent := by
      rintro rfl
      obtain ⟨pre, post, hent, hset⟩ := exchange_neighbours ha hb
      rw [hset, hent]
      exact inversions_swap hafter (nameAfter_asymm hafter) pre post
    simp only [hafter, if_true]
    exact {
      perm := exchange_perm ha hb
      quiet := fun h => by cases h
      fewer := fun hgap _ => .inr (hdown hgap)
      not_more := fun hgap => (hdown hgap).le }
  · have hin : nameAfter a b = false := by simpa using hafter
    simp only [hin, Bool.false_eq_true, if_false]
    refine { RoundFrom.refl gap s with quiet := fun _ => ⟨rfl, fun j hj a' b' ha' hb' => ?_⟩ }
    obtain rfl := List.mem_singleton.mp hj
    obtain rfl := Option.some.inj (ha.symm.trans ha')
    obtain rfl := Option.some.inj (hb.symm.trans hb')
    exact hin

theorem dirlsExchanges_gives {gap : ℕ} : ∀ {is : List ℕ} {s : DirlsRound},
    (∀ i ∈ is, i + gap < s.ent.length) →
      Gives (is.foldlM (dirlsExchange gap) s) (RoundFrom gap s is)
  | [], s, _ => RoundFrom.refl gap s
  | i :: is, s, his => by
    rw [List.foldlM_cons]
    refine Gives.bind (dirlsExchange_gives (his i List.mem_cons_self)) fun s₁ h₁ => ?_
    have hrest : ∀ j ∈ is, j + gap < s₁.ent.length := by
      intro j hj
      rw [h₁.perm.length_eq]
      exact his j (List.mem_cons_of_mem i hj)
    exact (dirlsExchanges_gives hrest).mono fun s' h => h₁.cons h

theorem dirlsRound_gives (gap : ℕ) (ent : List DirlsEntry) :
    Gives (dirlsRound ent.length gap ent)
      (RoundFrom gap ⟨ent, false⟩ (List.range (ent.length - gap))) := by
  refine dirlsExchanges_gives fun i hi => ?_
  have hlt := List.mem_range.mp hi
  show i + gap < ent.length
  omega

/-- A round over neighbours without an exchange finds them in order. -/
theorem RoundFrom.sorted {ent : List DirlsEntry} {s' : DirlsRound}
    (h : RoundFrom 1 ⟨ent, false⟩ (List.range (ent.length - 1)) s') (hswapped : s'.swapped = false) :
    s'.ent.Pairwise fun a b => strcmp a.name b.name ≤ 0 := by
  obtain ⟨rfl, hquiet⟩ := h.quiet hswapped
  simp only [← nameAfter_false]
  refine pairwise_of_neighbours nameAfter_trans fun i a b ha hb => hquiet i ?_ a b ha hb
  have hlt := (List.getElem?_eq_some_iff.mp hb).1
  rw [List.mem_range]
  omega

/-- What a sort of `ent` may give. -/
def SortOf (ent out : List DirlsEntry) : Prop :=
  out.Perm ent ∧ out.Pairwise fun a b => strcmp a.name b.name ≤ 0

/-- With the gap at 1 every further round takes an inversion away. -/
theorem dirlsLoop_gives_of_one {num : ℕ} : ∀ {rounds gap : ℕ} {ent : List DirlsEntry}, gap ≤ 1 →
    num = ent.length → inversions nameAfter ent < rounds →
      Gives (dirlsLoop num rounds gap ent) (SortOf ent)
  | 0, _, _, _, _, h => by omega
  | rounds + 1, gap, ent, hgap, hnum, hrounds => by
    subst hnum
    obtain ⟨gap', hnext, -, -, hone⟩ := @dirlsGap_eq gap (by simp only [intMax]; omega)
    obtain rfl := hone hgap
    rw [dirlsLoop, hnext, ok_bind]
    refine Gives.bind (dirlsRound_gives 1 ent) fun s hs => ?_
    by_cases hswapped : s.swapped = true
    · simp only [hswapped, or_true, if_true]
      have hfewer : inversions nameAfter s.ent < inversions nameAfter ent :=
        (hs.fewer rfl hswapped).resolve_left (by simp)
      refine (dirlsLoop_gives_of_one le_rfl hs.perm.length_eq.symm (by omega)).mono ?_
      rintro out ⟨hperm, hsorted⟩
      exact ⟨hperm.trans hs.perm, hsorted⟩
    · have hstill : s.swapped = false := by simpa using hswapped
      simp only [hstill, gt_iff_lt, lt_irrefl, Bool.false_eq_true, or_self, if_false]
      exact ⟨hs.perm, hs.sorted hstill⟩

theorem dirlsLoop_gives {num : ℕ} : ∀ {rounds gap : ℕ} {ent : List DirlsEntry},
    gap * 10 ≤ intMax → num = ent.length → gap + num * num < rounds →
      Gives (dirlsLoop num rounds gap ent) (SortOf ent)
  | 0, _, _, _, _, h => by omega
  | rounds + 1, gap, ent, hgap, hnum, hrounds => by
    rcases Nat.lt_or_ge 1 gap with hlarge | hsmall
    · obtain ⟨gap', hnext, hpos, hfall, -⟩ := dirlsGap_eq hgap
      have hless := hfall hlarge
      rw [dirlsLoop, hnext, ok_bind]
      subst hnum
      refine Gives.bind (dirlsRound_gives gap' ent) fun s hs => ?_
      have hlen : s.ent.length = ent.length := hs.perm.length_eq
      by_cases hagain : gap' > 1 ∨ s.swapped = true
      · rw [if_pos hagain]
        refine (dirlsLoop_gives (by omega) hlen.symm (by omega)).mono ?_
        rintro out ⟨hperm, hsorted⟩
        exact ⟨hperm.trans hs.perm, hsorted⟩
      · rw [if_neg hagain]
        obtain ⟨hone, hstill⟩ := not_or.mp hagain
        obtain rfl : gap' = 1 := by omega
        exact ⟨hs.perm, hs.sorted (by simpa using hstill)⟩
    · refine dirlsLoop_gives_of_one hsmall hnum ?_
      have hle := @inversions_le _ nameAfter ent
      rw [← hnum] at hle
      omega

theorem dirlsLoop_more {num : ℕ} : ∀ {rounds more gap : ℕ} {ent out : List DirlsEntry},
    dirlsLoop num rounds gap ent = .ok out → rounds ≤ more → dirlsLoop num more gap ent = .ok out
  | 0, _, _, _, _, h, _ => by cases h
  | rounds + 1, 0, _, _, _, _, hle => by omega
  | rounds + 1, more + 1, gap, ent, out, h, hle => by
    rw [dirlsLoop] at h ⊢
    cases hgap : dirlsGap gap with
    | error e => simp [hgap, bind, Except.bind] at h
    | ok gap' =>
      simp only [hgap, ok_bind] at h ⊢
      cases hround : dirlsRound num gap' ent with
      | error e => simp [hround, bind, Except.bind] at h
      | ok s =>
        simp only [hround, ok_bind] at h ⊢
        split_ifs at h ⊢ with hagain
        · exact dirlsLoop_more h (by omega)
        · exact h

/-- The sort ends within `n + n * n + 1` rounds, whatever the order of its entries, with the same
entries in the order of `strcmp`. -/
theorem httpDirlsSort_sorts (ent : List DirlsEntry) (hlen : ent.length < intMax / 10) :
    ∃ out : List DirlsEntry,
      (∀ rounds, ent.length + ent.length * ent.length < rounds →
        httpDirlsSort rounds ent = .ok out) ∧
      out.Perm ent ∧ out.Pairwise fun a b => strcmp a.name b.name ≤ 0 := by
  have hfits : ent.length * 10 ≤ intMax := by simp only [intMax] at hlen ⊢; omega
  obtain ⟨out, hout, hperm, hsorted⟩ :=
    gives_iff.mp (dirlsLoop_gives hfits rfl (Nat.lt_succ_self _))
  exact ⟨out, fun rounds hrounds => dirlsLoop_more hout hrounds, hperm, hsorted⟩

/-- The entry of a name. -/
def namedEntry (name : Bytes) : DirlsEntry :=
  ⟨(cstr name).length, 0, 0, cstr name, rfl, notMem_cstr name⟩

/-- Three names in one of the wrong orders. -/
def threeEntries : List DirlsEntry :=
  [namedEntry (str "b"), namedEntry (str "c"), namedEntry (str "a")]

theorem httpDirlsSort_sorts_three :
    threeEntries.length < intMax / 10 ∧
    ∃ out : List DirlsEntry,
      (∀ rounds, threeEntries.length + threeEntries.length * threeEntries.length < rounds →
        httpDirlsSort rounds threeEntries = .ok out) ∧
      out.Perm threeEntries ∧ out.Pairwise fun a b => strcmp a.name b.name ≤ 0 :=
  ⟨by decide, httpDirlsSort_sorts threeEntries (by decide)⟩

end Lighttpd
