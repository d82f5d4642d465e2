import Lighttpd.DataArrayKeys
import Lighttpd.Lib.Strtol
import Mathlib.Data.List.GetD

/-!
# The parts of a host

`mod_evhost_parse_host` goes through the authority from its end, with one pointer for the colon
before the port and for the dots between the labels. It stores the last two labels under `%0` and
the labels, counted from the right, under `%1`, `%2` and so on (`EvhostAuthority.parseHost`).
-/

namespace Lighttpd

open CString

/-- The first loop : where it stops, and the colon. -/
def evhostDomain (a : Bytes) : ℕ → ℕ → Bool → ℕ × ℕ
  | 0, colon, _ => (0, colon)
  | ptr + 1, colon, first =>
    let c := a.getD (ptr + 1) 0
    if c = 46 then
      if first then evhostDomain a ptr colon false else (ptr + 1, colon)
    else if c = 58 then evhostDomain a ptr (ptr + 1) true
    else evhostDomain a ptr colon first

/-- A value is inserted under `%` and a number. -/
def evhostInsert (host : DataArray Buffer) (i : ℕ) (value : Bytes) : Option (DataArray Buffer) :=
  arrayInsertUniqueElement dataStringMethods host
    ⟨.string, some (37 :: itostr i), false, some value⟩

/-- The loop over the labels : the array, the last dot and the number of the next label. -/
def evhostLabels (a : Bytes) :
    ℕ → ℕ → ℕ → DataArray Buffer → Option (DataArray Buffer × ℕ × ℕ)
  | 0, colon, i, host => some (host, colon, i)
  | ptr + 1, colon, i, host =>
    if a.getD (ptr + 1) 0 = 46 then
      if ptr + 1 ≠ colon - 1 then
        (evhostInsert host i ((a.drop (ptr + 2)).take (colon - (ptr + 1) - 1))).bind fun host =>
          evhostLabels a ptr (ptr + 1) (i + 1) host
      else evhostLabels a ptr (ptr + 1) i host
    else evhostLabels a ptr colon i host

/-- The labels, with the one at the start of the authority. -/
def evhostAllLabels (a : Bytes) (ptr colon i : ℕ) (host : DataArray Buffer) :
    Option (DataArray Buffer) :=
  (evhostLabels a ptr colon i host).bind fun r =>
    if r.2.1 ≠ 0 then evhostInsert r.1 r.2.2 (a.take r.2.1) else some r.1

/-- `mod_evhost_parse_host`, up to assertions of the array. -/
def modEvhostParseHost (a : Bytes) : Option (DataArray Buffer) :=
  let domain := evhostDomain a a.length a.length true
  let colon := domain.2
  let ptr := if a.getD domain.1 0 = 46 then domain.1 + 1 else domain.1
  (evhostInsert arrayInit 0 ((a.drop ptr).take (colon - ptr))).bind fun host =>
    if colon ≠ 0 then evhostAllLabels a (colon - 1) colon 1 host else some host

/-- Labels with dots between them, and a port. -/
structure EvhostAuthority where
  labels : List Bytes
  port : Option Bytes
  labels_ne : labels ≠ []
  label_ne : ∀ l ∈ labels, l ≠ []
  label : ∀ l ∈ labels, ∀ c ∈ l, c ≠ 46 ∧ c ≠ 58 ∧ c ≠ 0
  port_ne : ∀ p ∈ port, ∀ c ∈ p, c ≠ 46 ∧ c ≠ 58

namespace EvhostAuthority

/-- The host without the port. -/
def host (auth : EvhostAuthority) : Bytes := [46].intercalate auth.labels

/-- The colon and the port. -/
def portText (auth : EvhostAuthority) : Bytes :=
  match auth.port with
  | none => []
  | some p => 58 :: p

/-- `uri.authority` -/
def bytes (auth : EvhostAuthority) : Bytes := auth.host ++ auth.portText

/-- What the number behind a `%` stands for : 0 for the last two labels or the only one, and another
number for a label, counted from the right. -/
def value (auth : EvhostAuthority) : ℕ → Option Bytes
  | 0 => some ([46].intercalate (auth.labels.drop (auth.labels.length - 2)))
  | k + 1 => auth.labels.reverse[k]?

end EvhostAuthority

theorem intercalate_concat (init : List Bytes) (l : Bytes) (h : init ≠ []) :
    [46].intercalate (init ++ [l]) = [46].intercalate init ++ 46 :: l := by
  induction init with
  | nil => exact absurd rfl h
  | cons x init ih =>
    cases init with
    | nil => simp
    | cons y init =>
      have := ih (List.cons_ne_nil y init)
      rw [List.cons_append, List.cons_append, List.intercalate_cons_cons, ← List.cons_append, this,
        List.intercalate_cons_cons]
      simp

variable {ls xs : List Bytes} {a u w v l : Bytes} {i : ℕ} {host : DataArray Buffer}

theorem intercalate_ne_nil (hne : ls ≠ []) (h : ∀ l ∈ ls, l ≠ []) : [46].intercalate ls ≠ [] := by
  obtain ⟨l, rest, rfl⟩ := List.exists_cons_of_ne_nil hne
  obtain ⟨c, l, rfl⟩ := List.exists_cons_of_ne_nil (h l List.mem_cons_self)
  rw [List.intercalate_cons_cons_left]
  exact List.cons_ne_nil _ _

/-! ## The pointer -/

theorem length_snoc_sub (u : Bytes) (c : UInt8) : (u ++ [c]).length - 1 = u.length := by simp

theorem getD_middle (ha : a = u ++ w ++ v) (hlo : u.length ≤ i) (hhi : i < u.length + w.length) :
    a.getD i 0 ∈ w := by
  rw [ha, List.append_assoc, List.getD_append_right _ _ _ _ hlo,
    List.getD_append _ _ _ _ (by omega), List.getD_eq_getElem _ _ (by omega)]
  exact List.getElem_mem _

theorem getD_separator {c : UInt8} (ha : a = u ++ c :: v) : a.getD u.length 0 = c := by
  rw [ha, List.getD_append_right _ _ _ _ le_rfl, Nat.sub_self]
  rfl

theorem evhostDomain_skip {n : ℕ} {colon : ℕ} {first : Bool} :
    ∀ m, (∀ i, n < i → i ≤ n + m → a.getD i 0 ≠ 46 ∧ a.getD i 0 ≠ 58) →
      evhostDomain a (n + m) colon first = evhostDomain a n colon first
  | 0, _ => rfl
  | m + 1, h => by
    obtain ⟨hdot, hcolon⟩ := h (n + m + 1) (by omega) (by omega)
    rw [← Nat.add_assoc, evhostDomain, if_neg hdot, if_neg hcolon]
    exact evhostDomain_skip m fun i hlo hhi => h i hlo (by omega)

theorem evhostDomain_word (ha : a = u ++ w ++ v) (hw : ∀ c ∈ w, c ≠ 46 ∧ c ≠ 58) (colon : ℕ)
    (first : Bool) :
    evhostDomain a ((u ++ w).length - 1) colon first =
      evhostDomain a (u.length - 1) colon first := by
  cases w with
  | nil => rw [List.append_nil]
  | cons c w =>
    have hlen : (u ++ c :: w).length - 1 = (u.length - 1) + ((u ++ c :: w).length - 1 -
        (u.length - 1)) := by
      simp only [List.length_append, List.length_cons]
      omega
    rw [hlen]
    refine evhostDomain_skip _ fun i hlo hhi => hw _ (getD_middle ha (by omega) ?_)
    simp only [List.length_append, List.length_cons] at hhi ⊢
    omega

theorem evhostDomain_dot (ha : a = u ++ 46 :: v) (hu : u ≠ []) (colon : ℕ) (first : Bool) :
    evhostDomain a u.length colon first =
      if first then evhostDomain a (u.length - 1) colon false else (u.length, colon) := by
  have hget := getD_separator ha
  obtain ⟨n, hn⟩ := Nat.exists_eq_succ_of_ne_zero (mt List.length_eq_zero_iff.mp hu)
  rw [hn] at hget ⊢
  rw [evhostDomain, if_pos hget]
  rfl

theorem evhostLabels_skip {n : ℕ} {colon : ℕ} :
    ∀ m, (∀ j, n < j → j ≤ n + m → a.getD j 0 ≠ 46) →
      evhostLabels a (n + m) colon i host = evhostLabels a n colon i host
  | 0, _ => rfl
  | m + 1, h => by
    rw [← Nat.add_assoc, evhostLabels, if_neg (h (n + m + 1) (by omega) (by omega))]
    exact evhostLabels_skip m fun j hlo hhi => h j hlo (by omega)

theorem evhostLabels_word (ha : a = u ++ w ++ v) (hw : (46 : UInt8) ∉ w) (colon i : ℕ)
    (host : DataArray Buffer) :
    evhostLabels a ((u ++ w).length - 1) colon i host =
      evhostLabels a (u.length - 1) colon i host := by
  cases w with
  | nil => rw [List.append_nil]
  | cons c w =>
    have hlen : (u ++ c :: w).length - 1 = (u.length - 1) + ((u ++ c :: w).length - 1 -
        (u.length - 1)) := by
      simp only [List.length_append, List.length_cons]
      omega
    rw [hlen]
    refine evhostLabels_skip _ fun j hlo hhi hdot => hw (hdot ▸ getD_middle ha (by omega) ?_)
    simp only [List.length_append, List.length_cons] at hhi ⊢
    omega

theorem evhostLabels_dot (ha : a = u ++ 46 :: l ++ v) (hu : u ≠ []) (hl : l ≠ []) (i : ℕ)
    (host : DataArray Buffer) :
    evhostLabels a u.length (u ++ 46 :: l).length i host =
      (evhostInsert host i l).bind fun host =>
        evhostLabels a (u.length - 1) u.length (i + 1) host := by
  have hget : a.getD u.length 0 = 46 := getD_separator (v := l ++ v) (by simp [ha])
  obtain ⟨n, hn⟩ := Nat.exists_eq_succ_of_ne_zero (mt List.length_eq_zero_iff.mp hu)
  have hlpos := List.length_pos_iff.mpr hl
  have hdrop : a.drop (n + 2) = l ++ v := by
    have hlen : n + 2 = (u ++ [46]).length := by simp [hn]
    rw [ha, hlen, show u ++ 46 :: l ++ v = u ++ [46] ++ (l ++ v) by simp, List.drop_left]
  have htake : (u ++ 46 :: l).length - (n + 1) - 1 = l.length := by
    simp only [List.length_append, List.length_cons]
    omega
  rw [hn] at hget ⊢
  rw [evhostLabels, if_pos hget, if_pos ?_, hdrop, htake, List.take_left]
  · rfl
  · simp only [List.length_append, List.length_cons]
    omega

/-- Values under the numbers from `i` on. -/
def evhostEntries (i : ℕ) : List Bytes → List (DataUnset Buffer)
  | [] => []
  | x :: xs => ⟨.string, some (37 :: itostr i), false, some x⟩ :: evhostEntries (i + 1) xs

/-- The values are inserted. -/
def evhostInsertAll (host : DataArray Buffer) (i : ℕ) : List Bytes → Option (DataArray Buffer)
  | [] => some host
  | x :: xs => (evhostInsert host i x).bind fun host => evhostInsertAll host (i + 1) xs

theorem caseEq_number {j : ℕ} (h : CaseEq (37 :: itostr i) (37 :: itostr j)) : i = j := by
  have hlower : ∀ n, (itostr n).map toLower = itostr n := fun n => by
    refine (List.map_congr_left fun c hc => ?_).trans (List.map_id _)
    have hdigit := (ofDigits_itostr n).1.2 c hc
    rw [isDigit, Bool.and_eq_true, decide_eq_true_eq, decide_eq_true_eq] at hdigit
    rw [toLower, if_neg]
    · rfl
    · rintro ⟨h65, -⟩
      exact absurd (UInt8.le_trans h65 hdigit.2) (by decide)
  rw [CaseEq, List.map_cons, List.map_cons, List.cons.injEq, hlower, hlower] at h
  rw [← (ofDigits_itostr i).2, ← (ofDigits_itostr j).2, h.2]

theorem evhostEntries_append (i : ℕ) (xs ys : List Bytes) :
    evhostEntries i (xs ++ ys) = evhostEntries i xs ++ evhostEntries (i + xs.length) ys := by
  induction xs generalizing i with
  | nil => rfl
  | cons x xs ih =>
    rw [List.cons_append, evhostEntries, evhostEntries, ih, List.length_cons, List.cons_append]
    congr 3
    omega

theorem mem_evhostEntries {e : DataUnset Buffer} :
    e ∈ evhostEntries i xs ↔
      ∃ k x, xs[k]? = some x ∧ e = ⟨.string, some (37 :: itostr (i + k)), false, some x⟩ := by
  induction xs generalizing i with
  | nil => simp [evhostEntries]
  | cons y ys ih =>
    rw [evhostEntries, List.mem_cons, ih]
    constructor
    · rintro (rfl | ⟨k, x, hk, rfl⟩)
      · exact ⟨0, y, rfl, rfl⟩
      · exact ⟨k + 1, x, hk, by rw [Nat.add_right_comm, Nat.add_assoc]⟩
    · rintro ⟨_ | k, x, hk, rfl⟩
      · cases hk
        exact .inl rfl
      · exact .inr ⟨k, x, hk, by rw [Nat.add_right_comm, Nat.add_assoc]⟩

/-- Values that are inserted under numbers in order are there. -/
theorem evhostInsertAll_spec (h : Indexed host) (done xs : List Bytes)
    (hlive : host.live = evhostEntries 0 done) :
    ∃ b, evhostInsertAll host done.length xs = some b ∧ Indexed b ∧
      b.live = evhostEntries 0 (done ++ xs) := by
  induction xs generalizing host done with
  | nil => exact ⟨host, rfl, h, by rw [List.append_nil, hlive]⟩
  | cons x xs ih =>
    obtain ⟨entry, hentry⟩ : ∃ entry : DataUnset Buffer,
        entry = ⟨.string, some (37 :: itostr done.length), false, some x⟩ := ⟨_, rfl⟩
    have hgen : generateKey host entry = (entry, host) :=
      generateKey_keyed (by rw [hentry]) (by rw [hentry])
    have hfree : ¬ host.HasKey (generateKey host entry).1.key.string := by
      rw [hgen, hentry]
      rintro ⟨e, he, hcase⟩
      rw [hlive, mem_evhostEntries] at he
      obtain ⟨k, y, hk, rfl⟩ := he
      have := caseEq_number hcase
      have := (List.getElem?_eq_some_iff.mp hk).1
      omega
    obtain ⟨b, hb, hblive⟩ := h.arrayInsertUniqueElement_free (m := dataStringMethods) hfree
    have hbi := h.arrayInsertUniqueElement_indexed hb
    rw [hgen, hlive] at hblive
    have hblive' : b.live = evhostEntries 0 (done ++ [x]) := by
      rw [hblive, evhostEntries_append, hentry, Nat.zero_add]
      rfl
    obtain ⟨b', hb', hi', hlive'⟩ := ih hbi (done ++ [x]) hblive'
    rw [List.length_append, List.length_singleton] at hb'
    refine ⟨b', ?_, hi', by rw [hlive', List.append_assoc, List.singleton_append]⟩
    rw [evhostInsertAll, evhostInsert, ← hentry, hb]
    exact hb'

theorem evhostEntries_lookup {b : DataArray Buffer} (h : Indexed b)
    (hlive : b.live = evhostEntries 0 xs) (k : ℕ) :
    (arrayGetElementKlen b (37 :: itostr k)).map (fun ds => ds.value.string) = xs[k]? := by
  cases hk : xs[k]? with
  | some x =>
    have he : arrayGetElementKlen b (37 :: itostr k) =
        some ⟨.string, some (37 :: itostr k), false, some x⟩ := by
      rw [h.arrayGetElementKlen_eq_some_iff, hlive, mem_evhostEntries]
      exact ⟨⟨k, x, hk, by rw [Nat.zero_add]⟩, .refl _⟩
    rw [he]
    rfl
  | none =>
    rw [Option.map_eq_none_iff, Option.eq_none_iff_forall_ne_some]
    intro e he
    rw [h.arrayGetElementKlen_eq_some_iff, hlive, mem_evhostEntries] at he
    obtain ⟨⟨j, x, hj, rfl⟩, hcase⟩ := he
    rw [Nat.zero_add] at hcase
    rw [caseEq_number hcase, hj] at hk
    cases hk

theorem evhostAllLabels_spec (ha : a = [46].intercalate ls ++ v) (hls : ls ≠ [])
    (hne : ∀ l ∈ ls, l ≠ []) (hdot : ∀ l ∈ ls, (46 : UInt8) ∉ l) (i : ℕ) (host : DataArray Buffer) :
    evhostAllLabels a (([46].intercalate ls).length - 1) ([46].intercalate ls).length i host =
      evhostInsertAll host i ls.reverse := by
  induction ls using List.reverseRecOn generalizing v i host with
  | nil => exact absurd rfl hls
  | append_singleton init l ih =>
    have hl := hne l (by simp)
    have hld := hdot l (by simp)
    rw [List.reverse_append, List.reverse_singleton, List.singleton_append, evhostInsertAll]
    cases init with
    | nil =>
      rw [List.nil_append, List.intercalate_singleton] at ha ⊢
      have hword := evhostLabels_word (u := []) ha hld l.length i host
      have hlen : l.length ≠ 0 := mt List.length_eq_zero_iff.mp hl
      rw [List.nil_append, List.length_nil] at hword
      rw [evhostAllLabels, hword, evhostLabels, Option.bind_some, if_pos hlen, ha, List.take_left]
      cases evhostInsert host i l <;> rfl
    | cons x init =>
      have hinit : x :: init ≠ [] := List.cons_ne_nil x init
      have hne' : ∀ l ∈ x :: init, l ≠ [] := fun l' hl' => hne l' (List.mem_append_left _ hl')
      have hdot' : ∀ l ∈ x :: init, (46 : UInt8) ∉ l := fun l' hl' =>
        hdot l' (List.mem_append_left _ hl')
      rw [intercalate_concat _ _ hinit] at ha ⊢
      generalize hu : [46].intercalate (x :: init) = u at ha ih ⊢
      have hune : u ≠ [] := hu ▸ intercalate_ne_nil hinit hne'
      have hsplit : a = (u ++ [46]) ++ l ++ v := by simp [ha]
      have hword := evhostLabels_word hsplit hld (u ++ 46 :: l).length i host
      rw [show u ++ [46] ++ l = u ++ 46 :: l by simp] at hword
      rw [evhostAllLabels, hword, length_snoc_sub, evhostLabels_dot ha hune hl, Option.bind_assoc]
      refine Option.bind_congr fun host' _ => ?_
      exact ih (v := 46 :: l ++ v) (by simp [ha]) hinit hne' hdot' (i + 1) host'

namespace EvhostAuthority

variable (auth : EvhostAuthority)

theorem notMem_label (hl : l ∈ auth.labels) : (46 : UInt8) ∉ l := fun hc =>
  (auth.label l hl 46 hc).1 rfl

theorem plain_label (hl : l ∈ auth.labels) : ∀ c ∈ l, c ≠ 46 ∧ c ≠ 58 := fun c hc =>
  ⟨(auth.label l hl c hc).1, (auth.label l hl c hc).2.1⟩

theorem host_ne_nil : auth.host ≠ [] := intercalate_ne_nil auth.labels_ne auth.label_ne

theorem evhostDomain_port :
    evhostDomain auth.bytes auth.bytes.length auth.bytes.length true =
      evhostDomain auth.bytes (auth.host.length - 1) auth.host.length true := by
  have hpos := List.length_pos_iff.mpr auth.host_ne_nil
  obtain ⟨n, hn⟩ := Nat.exists_eq_succ_of_ne_zero hpos.ne'
  obtain ⟨m, hm⟩ : ∃ m, auth.bytes.length = m + 1 := by
    refine ⟨auth.bytes.length - 1, ?_⟩
    rw [bytes, List.length_append]
    omega
  have hend : evhostDomain auth.bytes auth.bytes.length auth.bytes.length true =
      evhostDomain auth.bytes m auth.bytes.length true := by
    have hget : auth.bytes.getD (m + 1) 0 = 0 := List.getD_eq_default _ _ (by omega)
    rw [hm, evhostDomain, hget, if_neg (by decide), if_neg (by decide)]
  rw [hend]
  unfold bytes portText at hm ⊢
  cases hport : auth.port with
  | none =>
    rw [hport, List.append_nil] at hm
    dsimp only
    rw [List.append_nil, hm, Nat.add_sub_cancel]
  | some p =>
    rw [hport] at hm
    dsimp only at hm ⊢
    have hword := evhostDomain_word (a := auth.host ++ 58 :: p) (u := auth.host ++ [58]) (w := p)
      (v := []) (by simp) (auth.port_ne p hport) (auth.host ++ 58 :: p).length true
    have hlen : (auth.host ++ [58] ++ p).length - 1 = m := by
      simp only [List.length_append, List.length_cons, List.length_nil] at hm ⊢
      omega
    have hget : (auth.host ++ 58 :: p).getD (n + 1) 0 = 58 := by
      rw [← Nat.succ_eq_add_one, ← hn]
      exact getD_separator rfl
    rw [hlen, length_snoc_sub, hn] at hword
    rw [hword, evhostDomain, hget, if_neg (by decide), if_pos rfl, hn, Nat.succ_sub_one]

theorem domain_spec (ha : a = [46].intercalate ls ++ v) (hls : ls ≠ []) (hne : ∀ l ∈ ls, l ≠ [])
    (hplain : ∀ l ∈ ls, ∀ c ∈ l, c ≠ 46 ∧ c ≠ 58) : let h := [46].intercalate ls
    let domain := evhostDomain a (h.length - 1) h.length true
    let ptr := if a.getD domain.1 0 = 46 then domain.1 + 1 else domain.1
    domain.2 = h.length ∧
      (a.drop ptr).take (h.length - ptr) = [46].intercalate (ls.drop (ls.length - 2)) := by
  have hstart : ∀ {w v' : Bytes}, a = w ++ v' → (∃ l ∈ ls, ∃ t, w = l ++ t) →
      a.getD 0 0 ≠ 46 := by
    rintro w v' rfl ⟨l, hl, t, rfl⟩
    have hmem : (l ++ t ++ v').getD 0 0 ∈ l := by
      refine getD_middle (u := []) (v := t ++ v') (by simp) le_rfl ?_
      simpa using List.length_pos_iff.mpr (hne l hl)
    exact (hplain l hl _ hmem).1
  dsimp only
  obtain rfl | ⟨init, l, rfl⟩ := List.eq_nil_or_concat' ls
  · exact absurd rfl hls
  have hl := hplain l (by simp)
  obtain rfl | ⟨init, x, rfl⟩ := List.eq_nil_or_concat' init
  · rw [List.nil_append, List.intercalate_singleton] at ha ⊢
    have hword := evhostDomain_word (u := []) ha hl l.length true
    rw [List.nil_append, List.length_nil] at hword
    rw [hword, evhostDomain, if_neg (hstart ha ⟨l, by simp, [], by simp⟩)]
    refine ⟨rfl, ?_⟩
    rw [List.drop_zero, ha, Nat.sub_zero, List.take_left]
    simp
  have hx := hplain x (by simp)
  have hxne := hne x (by simp)
  have hlast : [46].intercalate ((init ++ [x] ++ [l]).drop ((init ++ [x] ++ [l]).length - 2)) =
      x ++ 46 :: l := by
    have hlen : (init ++ [x] ++ [l]).length - 2 = init.length := by simp
    rw [hlen, List.append_assoc, List.drop_left]
    simp
  rw [intercalate_concat _ _ (by simp)] at ha ⊢
  rw [hlast]
  generalize hu : [46].intercalate (init ++ [x]) = u at ha ⊢
  have hune : u ≠ [] := hu ▸ intercalate_ne_nil (by simp) fun y hy =>
    hne y (List.mem_append_left _ hy)
  have hsplit : a = u ++ [46] ++ l ++ v := by simp [ha]
  have hword := evhostDomain_word hsplit hl (u ++ 46 :: l).length true
  rw [show u ++ [46] ++ l = u ++ 46 :: l by simp, length_snoc_sub,
    evhostDomain_dot (by rw [ha, List.append_assoc]; rfl) hune, if_pos rfl] at hword
  rw [hword]
  by_cases hinit : init = []
  · subst hinit
    rw [List.nil_append, List.intercalate_singleton] at hu
    subst hu
    have hword := evhostDomain_word (a := a) (u := []) (w := x) (v := 46 :: l ++ v)
      (by simp [ha]) hx (x ++ 46 :: l).length false
    rw [List.nil_append, List.length_nil] at hword
    rw [hword, evhostDomain, if_neg (hstart ha ⟨x, by simp, 46 :: l, rfl⟩)]
    refine ⟨rfl, ?_⟩
    rw [List.drop_zero, ha, Nat.sub_zero, List.take_left]
  · rw [intercalate_concat _ _ hinit] at hu
    generalize hw : [46].intercalate init = w at hu
    have hwne : w ≠ [] := hw ▸ intercalate_ne_nil hinit fun y hy => hne y (by simp [hy])
    subst hu
    have hword := evhostDomain_word (a := a) (u := w ++ [46]) (w := x) (v := 46 :: l ++ v)
      (by simp [ha]) hx (w ++ 46 :: x ++ 46 :: l).length false
    rw [show w ++ [46] ++ x = w ++ 46 :: x by simp, length_snoc_sub,
      evhostDomain_dot (v := x ++ 46 :: l ++ v) (by simp [ha]) hwne, if_neg (by simp)] at hword
    rw [hword]
    have hget : a.getD w.length 0 = 46 := getD_separator (v := x ++ 46 :: l ++ v) (by simp [ha])
    rw [if_pos hget]
    refine ⟨rfl, ?_⟩
    have hlen : w.length + 1 = (w ++ [46]).length := by simp
    have hlen' : (w ++ 46 :: x ++ 46 :: l).length - (w ++ [46]).length = (x ++ 46 :: l).length := by
      simp only [List.length_append, List.length_cons, List.length_nil]
      omega
    have hsplit : w ++ 46 :: x ++ 46 :: l ++ v = w ++ [46] ++ (x ++ 46 :: l ++ v) := by simp
    rw [hlen, hlen', ha, hsplit, List.drop_left, List.take_left]

/-- `mod_evhost_parse_host` does not fail, and the values are found under their numbers. -/
theorem parseHost : ∃ host, modEvhostParseHost auth.bytes = some host ∧
    ∀ k, (arrayGetElementKlen host (37 :: itostr k)).map (fun ds => ds.value.string) =
      auth.value k := by
  have hdot : ∀ l ∈ auth.labels, (46 : UInt8) ∉ l := fun l => auth.notMem_label
  obtain ⟨hcolon, hvalue⟩ := domain_spec (a := auth.bytes) rfl auth.labels_ne auth.label_ne
    fun l => auth.plain_label
  have hall := evhostAllLabels_spec (a := auth.bytes) rfl auth.labels_ne auth.label_ne hdot 1
  have hhost : [46].intercalate auth.labels = auth.host := rfl
  have hlen : auth.host.length ≠ 0 := mt List.length_eq_zero_iff.mp auth.host_ne_nil
  rw [hhost, ← auth.evhostDomain_port] at hcolon hvalue
  rw [hhost] at hall
  obtain ⟨b, hb, hi, hlive⟩ := evhostInsertAll_spec indexed_arrayInit []
    ([46].intercalate (auth.labels.drop (auth.labels.length - 2)) :: auth.labels.reverse) rfl
  refine ⟨b, ?_, fun k => ?_⟩
  · rw [modEvhostParseHost, hcolon, hvalue]
    simp only [if_pos hlen, hall]
    exact hb
  · rw [evhostEntries_lookup hi hlive k]
    cases k with
    | zero => rfl
    | succ k => rfl

end EvhostAuthority

end Lighttpd
