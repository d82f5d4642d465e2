import Lighttpd.ForwardedWalk

/-!
# A Forwarded header in its table

`mod_extforward_Forwarded` checks whether 256 entries are in use in front of a comma with an index
that is one less than their number, and it takes the length -1 for a value `"["` that it does not
reject. `modExtforwardForwarded_ok_iff` says that it stays in the table and in the value, and ends,
for all other headers.
-/

namespace Lighttpd

open CString FaultRuns

variable {p : ForwardedParam} {s : Bytes}

section Values

variable {s : Bytes}

theorem getElem?_span {v n : ℤ} (hv : 0 ≤ v) (hend : v + n ≤ s.length) {i : ℕ} (hi : i < n) :
    ((s.drop v.toNat).take n.toNat)[i]? = some (byteAt s (v + i)) := by
  have hlt : v.toNat + i < s.length := by omega
  rw [List.getElem?_take_of_lt (by omega), List.getElem?_drop, byteAt,
    show (v + i).toNat = v.toNat + i by omega, List.getD_eq_getElem?_getD,
    List.getElem?_eq_getElem hlt]
  rfl

theorem rdropWhile_append_of_pos {α : Type*} {p : α → Bool} {t u : List α} (hu : ∀ x ∈ u, p x)
    (ht : ∀ h : t ≠ [], ¬ p (t.getLast h)) : (t ++ u).rdropWhile p = t := by
  induction u using List.reverseRecOn with
  | nil => rw [List.append_nil, List.rdropWhile_eq_self_iff.mpr ht]
  | append_singleton u x ih =>
    rw [← List.append_assoc, List.rdropWhile_concat_pos _ _ _ (hu x (by simp))]
    exact ih fun y hy => hu y (by simp [hy])

theorem rdropWhile_text (hp : p.Valid s) {e : ℤ} (h : Trimmed s p.v (p.v + p.vlen) e) :
    ((p.text s).rdropWhile fun c => c = SP ∨ c = HT) = (s.drop p.v.toNat).take (e - p.v).toNat := by
  have hv := hp.value
  have hend := hp.value_end
  have hstart := h.start_le
  have hle := h.le_end
  have hsplit : p.text s = (s.drop p.v.toNat).take (e - p.v).toNat ++
      (s.drop e.toNat).take (p.v + p.vlen - e).toNat := by
    rw [ForwardedParam.text,
      show p.vlen.toNat = (e - p.v).toNat + (p.v + p.vlen - e).toNat by omega, List.take_add,
      List.drop_drop, show p.v.toNat + (e - p.v).toNat = e.toNat by omega]
  rw [hsplit]
  refine rdropWhile_append_of_pos (fun x hx => ?_) fun hne => ?_
  · obtain ⟨i, hi⟩ := List.mem_iff_getElem?.mp hx
    have hlt : i < p.v + p.vlen - e := by
      have := (List.getElem?_eq_some_iff.mp hi).1
      rw [List.length_take] at this
      omega
    rw [getElem?_span (by omega) (by omega) hlt] at hi
    rw [← Option.some.inj hi]
    simpa [IsForwardedBlank] using h.blanks (e + i) (by omega) (by omega)
  · have hlen : ((s.drop p.v.toNat).take (e - p.v).toNat).length = (e - p.v).toNat := by
      rw [List.length_take, List.length_drop]
      omega
    have hpos : 0 < (e - p.v).toNat := by
      rw [← hlen]
      exact List.length_pos_of_ne_nil hne
    have hlast : ((s.drop p.v.toNat).take (e - p.v).toNat).getLast hne = byteAt s (e - 1) := by
      have hget := getElem?_span (s := s) (v := p.v) (n := e - p.v) (i := (e - p.v).toNat - 1)
        hv (by omega) (by omega)
      rw [show p.v + ((e - p.v).toNat - 1 : ℕ) = e - 1 by omega] at hget
      rw [← Option.some_inj, ← List.getLast?_eq_some_getLast, List.getLast?_eq_getElem?, hlen, hget]
    rw [hlast]
    rcases h.last with hlast | hlast
    · omega
    · simpa [IsForwardedBlank] using hlast

theorem gives_valueSpan (hp : p.Valid s) {e : ℤ} (h : Trimmed s p.v (p.v + p.vlen) e) :
    Gives (do
      let quoted ← isQuoted s p.v e
      let value ← derived s (if quoted then p.v + 1 else p.v)
        (if quoted then e - 1 - (p.v + 1) else e - p.v)
      pure (value, quoted)) fun r => r = unquotedValue (p.text s) := by
  have hv := hp.value
  have hend := hp.value_end
  have hstart := h.start_le
  have hle := h.le_end
  set t := (s.drop p.v.toNat).take (e - p.v).toNat with ht
  have hlen : t.length = (e - p.v).toNat := by
    rw [ht, List.length_take, List.length_drop]
    omega
  have hcond : (p.v + 1 < e ∧ byteAt s p.v = 34 ∧ byteAt s (e - 1) = 34) ↔
      (1 < t.length ∧ t.head? = some 34 ∧ t.getLast? = some 34) := by
    rw [hlen]
    refine ⟨fun ⟨hlt, hopen, hclose⟩ => ?_, fun ⟨hlt, hopen, hclose⟩ => ?_⟩
    all_goals
      have hhead : t.head? = some (byteAt s p.v) := by
        have := getElem?_span (s := s) (v := p.v) (n := e - p.v) (i := 0) hv (by omega) (by omega)
        rw [List.head?_eq_getElem?, this]
        simp
      have hlast : t.getLast? = some (byteAt s (e - 1)) := by
        have := getElem?_span (s := s) (v := p.v) (n := e - p.v) (i := (e - p.v).toNat - 1)
          hv (by omega) (by omega)
        rw [List.getLast?_eq_getElem?, hlen, this]
        congr 2
        omega
    · exact ⟨by omega, by rw [hhead, hopen], by rw [hlast, hclose]⟩
    · rw [hhead] at hopen
      rw [hlast] at hclose
      exact ⟨by omega, Option.some.inj hopen, Option.some.inj hclose⟩
  unfold unquotedValue
  rw [rdropWhile_text hp h]
  dsimp only
  rw [← ht]
  refine (gives_isQuoted hv (by omega)).bind fun q hq => ?_
  rw [hcond] at hq
  by_cases hquoted : q = true
  · have hlt := (hcond.mpr (hq.mp hquoted)).1
    rw [if_pos hquoted, if_pos hquoted, if_pos (hq.mp hquoted)]
    refine (gives_derived (by omega) (by omega) (by omega)).bind fun value hvalue => ?_
    refine gives_pure ?_
    rw [hvalue, hquoted, ht, ← List.drop_one, List.dropLast_eq_take, List.drop_take,
      List.drop_drop, List.take_take, List.length_take, List.length_drop]
    congr 2 <;> first | omega | (congr 1; omega)
  · rw [if_neg hquoted, if_neg hquoted, if_neg (fun h => hquoted (hq.mpr h))]
    refine (gives_derived hv (by omega) (by omega)).bind fun value hvalue => ?_
    refine gives_pure ?_
    rw [hvalue, Bool.eq_false_iff.mpr hquoted]

end Values

section Passes

variable {s : Bytes} {offsets : Offsets} {used : ℤ} {ts : List ForwardedToken}

/-! ## The parameters of an element -/

/-- `o` is the entry of the parameter `p`, or -1. -/
def ParamAt (ts : List ForwardedToken) (o : ℤ) (p : Option ForwardedParam) : Prop :=
  o = -1 ∧ p = none ∨ ∃ a q b, ts = a ++ .param q :: b ∧ o = entries a ∧ p = some q

theorem ParamAt.none (ts : List ForwardedToken) : ParamAt ts (-1) none := .inl ⟨rfl, rfl⟩

variable {o : ℤ} {a b x y : List ForwardedToken} {name : Bytes}

/-- A parameter that is called `name` takes the place of the one before. -/
theorem ParamAt.next {q : Option ForwardedParam} (h : ParamAt ts o q)
    (hts : ts = a ++ .param p :: b) (name : Bytes) :
    ParamAt ts (if decide (p.Named s name) then entries a else o)
      (if p.Named s name then some p else q) := by
  simp only [decide_eq_true_eq]
  split_ifs
  · exact .inr ⟨a, p, b, hts, rfl, rfl⟩
  · exact h

/-- The tokens of the element in front of a parameter. -/
def elementFront (a : List ForwardedToken) : List ForwardedToken :=
  (a.reverse.takeWhile (·.inElement)).reverse

theorem elementFront_of_params (ha : ∀ t ∈ a, ∃ p, t = .param p) : elementFront a = a := by
  have hall : ∀ t ∈ a.reverse, ForwardedToken.inElement t = true := by
    intro t ht
    obtain ⟨p, rfl⟩ := ha t (List.mem_reverse.mp ht)
    rfl
  rw [elementFront, List.takeWhile_eq_self_iff.mpr hall, List.reverse_reverse]

theorem elementFront_of_sep {c : List ForwardedToken} (hc : ∀ t ∈ c, ∃ p, t = .param p) :
    elementFront (x ++ .sep :: c) = c := by
  have hall : ∀ t ∈ c.reverse, ForwardedToken.inElement t = true := by
    intro t ht
    obtain ⟨p, rfl⟩ := hc t (List.mem_reverse.mp ht)
    rfl
  rw [elementFront, List.reverse_append, List.reverse_cons, List.append_assoc,
    List.takeWhile_append_of_pos hall]
  simp [ForwardedToken.inElement]

/-- The tokens from the element's first parameter on, or from its second. -/
def FromElement (a b : List ForwardedToken) (p : ForwardedParam) (y : List ForwardedToken) : Prop :=
  y = elementFront a ++ .param p :: b ∨ elementFront a = [] ∧ y = b

theorem gives_forwardedElement (h : Tabled s offsets used (a ++ .param p :: b)) :
    Gives (forwardedElement offsets (entries a)) fun j =>
      ∃ x y, a ++ .param p :: b = x ++ y ∧ j = entries x ∧ FromElement a b p y := by
  have ha := entries_nonneg a
  have hfits := h.fits
  obtain ⟨⟨hk, -⟩, hp, -, hle⟩ := h.param
  have hk0 := hp.key
  have hbehind (hfront : elementFront a = []) : ∃ x y, a ++ .param p :: b = x ++ y ∧
      entries a + 4 = entries x ∧ FromElement a b p y :=
    ⟨a ++ [.param p], b, by simp, by simp [entries_append, entries], .inr ⟨hfront, rfl⟩⟩
  rcases exists_last_sep a with hparams | ⟨x, c, rfl, hc⟩
  · have hfront := elementFront_of_params hparams
    have hscan : Gives (scanToElement offsets (entries a)) fun j => j = 0 := by
      unfold scanToElement
      split_ifs with hpos
      · exact gives_scanDown_front h hparams fun hnil => by simp [hnil, entries] at hpos
      · exact gives_pure (le_antisymm (not_lt.mp hpos) ha)
    refine hscan.bind fun j hj => ?_
    subst hj
    refine (gives_readOffset le_rfl (by omega)).bind fun e he => ?_
    have hne : e ≠ -1 := by
      rw [he]
      rcases a with _ | ⟨t, a⟩
      · rw [entries] at hk
        omega
      · obtain ⟨q, rfl⟩ := hparams t List.mem_cons_self
        obtain ⟨⟨hq, -⟩, hqv, -⟩ := Tabled.param (a := []) h
        have := hqv.key
        rw [entries] at hq
        omega
    rw [if_neg hne]
    refine gives_pure ?_
    split_ifs with hfirst
    · rw [hfirst]
      exact hbehind (hfront.trans (entries_eq_zero hfirst.symm))
    · exact ⟨[], a ++ .param p :: b, rfl, rfl, .inl (by rw [hfront])⟩
  · have hfront := elementFront_of_sep (x := x) hc
    have hscan : Gives (scanToElement offsets (entries (x ++ .sep :: c)))
        fun j => j = entries x := by
      have hx := entries_nonneg x
      have hc0 := entries_nonneg c
      unfold scanToElement
      rw [if_pos (by simp only [entries_append, entries]; omega)]
      exact gives_scanDown_sep h hc
    refine hscan.bind fun j hj => ?_
    subst hj
    have h' := h
    rw [List.append_assoc, List.cons_append] at h'
    obtain ⟨hsep, hx, hxle⟩ := h'.sep
    refine (gives_readOffset hx (by omega)).bind fun e he => ?_
    rw [if_pos (he.trans hsep)]
    refine gives_pure ?_
    split_ifs with hfirst
    · rw [hfirst]
      refine hbehind (hfront.trans (entries_eq_zero ?_))
      simp only [entries_append, entries] at hfirst
      omega
    · exact ⟨x ++ [.sep], c ++ .param p :: b, by simp, by simp [entries_append, entries],
        .inl (by rw [hfront])⟩

theorem FromElement.named (h : FromElement a b p y) (hp : ¬ p.Named s name) :
    namedParams s name (y.takeWhile (·.inElement)) =
      namedParams s name (elementTokens a.reverse b) := by
  have hall : ∀ t ∈ elementFront a, ForwardedToken.inElement t = true := by
    intro t ht
    exact List.mem_takeWhile_imp (List.mem_reverse.mp ht)
  rcases h with rfl | ⟨hfront, rfl⟩
  · rw [List.takeWhile_append_of_pos hall, List.takeWhile_cons_of_pos rfl, namedParams_append,
      namedParams_param_neg hp, ← namedParams_append]
    rfl
  · rw [elementTokens, ← elementFront, hfront, List.nil_append]

theorem FromElement.later {a b y : List ForwardedToken} {p : ForwardedParam}
    (h : FromElement a b p y) : y.dropWhile (·.inElement) = laterTokens b := by
  have hall : ∀ t ∈ elementFront a, ForwardedToken.inElement t = true := by
    intro t ht
    exact List.mem_takeWhile_imp (List.mem_reverse.mp ht)
  rcases h with rfl | ⟨-, rfl⟩
  · rw [List.dropWhile_append_of_pos hall, List.dropWhile_cons_of_pos rfl]
    rfl
  · rfl

theorem Tabled.mark (h : Tabled s offsets used ts) : offsets used = -1 := by
  have hholds := h.holds
  rw [inTable_append, zero_add, h.entries_eq] at hholds
  exact hholds.2.1

/-- The places of the parameters that are looked for. -/
def PlacesOk (ts : List ForwardedToken) (o : ForwardedPlaces)
    (found : Bytes → Option ForwardedParam) : Prop :=
  ParamAt ts o.proto (found (str "proto")) ∧ ParamAt ts o.host (found (str "host")) ∧
    ParamAt ts o.remoteUser (found (str "remote_user"))

theorem getLast?_namedParams_cons (name : Bytes) (p : ForwardedParam) (o : Option ForwardedParam) :
    (namedParams s name (.param p :: ts)).getLast?.or o =
      (namedParams s name ts).getLast?.or (if p.Named s name then some p else o) := by
  split_ifs with hname
  · rw [namedParams_param_pos hname, List.getLast?_cons]
    cases (namedParams s name ts).getLast? <;> rfl
  · rw [namedParams_param_neg hname]

theorem gives_forwardedParams (h : Tabled s offsets used ts) (fuel : ℕ) (hts : ts = x ++ y)
    {o : ForwardedPlaces} {found : Bytes → Option ForwardedParam} (ho : PlacesOk ts o found)
    (hfuel : entries y < fuel) :
    Gives (forwardedParams s offsets fuel (entries x) o) fun r =>
      r.1 = entries (x ++ y.takeWhile (·.inElement)) ∧ PlacesOk ts r.2 fun name =>
        (namedParams s name (y.takeWhile (·.inElement))).getLast?.or (found name) := by
  induction fuel generalizing x y o found with
  | zero => have := entries_nonneg y; omega
  | succ fuel ih =>
    have hx := entries_nonneg x
    have hfits := h.fits
    rw [forwardedParams]
    rcases y with _ | ⟨_ | p, y⟩
    · rw [List.append_nil] at hts
      have hsize : entries x = used := hts ▸ h.entries_eq
      refine (gives_readOffset hx (by omega)).bind fun k hk => ?_
      rw [if_pos (by rw [hk, hsize]; exact h.mark)]
      exact gives_pure ⟨by simp, ho⟩
    · obtain ⟨hsep, -, hle⟩ := (hts ▸ h).sep
      refine (gives_readOffset hx (by omega)).bind fun k hk => ?_
      rw [if_pos (hk.trans hsep), List.takeWhile_cons_of_neg (by decide)]
      exact gives_pure ⟨by simp, ho⟩
    · obtain ⟨⟨hpk, -⟩, hp, -, hle⟩ := (hts ▸ h).param
      have hk0 := hp.key
      refine (gives_readOffset hx (by omega)).bind fun k hk => ?_
      rw [if_neg (by omega)]
      refine (gives_keyIs (hts ▸ h) _).bind fun host hhost => ?_
      refine (gives_keyIs (hts ▸ h) _).bind fun proto hproto => ?_
      refine (gives_keyIs (hts ▸ h) _).bind fun remoteUser huser => ?_
      subst hhost hproto huser
      have hnext : entries x + 4 = entries (x ++ [.param p]) := by simp [entries_append, entries]
      rw [hnext, List.takeWhile_cons_of_pos rfl]
      have hstep : PlacesOk ts ⟨if decide (p.Named s (str "proto")) then entries x else o.proto,
          if decide (p.Named s (str "host")) then entries x else o.host,
          if decide (p.Named s (str "remote_user")) then entries x else o.remoteUser⟩
          fun name => if p.Named s name then some p else found name :=
        ⟨ho.1.next hts _, ho.2.1.next hts _, ho.2.2.next hts _⟩
      refine (ih (y := y) (by rw [hts]; simp) hstep ?_).mono fun r hr => ?_
      · simp only [entries] at hfuel
        push_cast at hfuel
        omega
      · simp only [getLast?_namedParams_cons]
        exact ⟨by rw [hr.1, List.append_assoc]; rfl, hr.2⟩

/-- What is found in the elements behind: the first parameter with the name if there was none
before, or the last one. -/
def laterFound (once : Bool) (ps : List ForwardedParam) (o : Option ForwardedParam) :
    Option ForwardedParam :=
  if once then o.or ps.head? else ps.getLast?.or o

theorem laterFound_cons (once : Bool) (name : Bytes) (p : ForwardedParam)
    {o : Option ForwardedParam} (h : once → o = none) :
    laterFound once (namedParams s name (.param p :: ts)) o =
      laterFound once (namedParams s name ts) (if p.Named s name then some p else o) := by
  unfold laterFound
  split_ifs with honce hname hname
  · rw [h honce, namedParams_param_pos hname]
    rfl
  · rw [namedParams_param_neg hname]
  · rw [getLast?_namedParams_cons, if_pos hname]
  · rw [namedParams_param_neg hname]

theorem gives_forwardedFindLater (h : Tabled s offsets used ts) (once : Bool) (name : Bytes)
    (fuel : ℕ) (hts : ts = x ++ y) {q : Option ForwardedParam} (ho : ParamAt ts o q)
    (hfuel : entries y < fuel) :
    Gives (forwardedFindLater once name s offsets used fuel (entries x) o) fun r =>
      ParamAt ts r (laterFound once (namedParams s name y) q) := by
  induction fuel generalizing x y o q with
  | zero => have := entries_nonneg y; omega
  | succ fuel ih =>
    have hx := entries_nonneg x
    have hfits := h.fits
    have hsize := h.entries_eq
    have hnone (hq : o = -1) : q = none := by
      rcases ho with ⟨-, hq⟩ | ⟨a, p, b, -, hplace, -⟩
      · exact hq
      · have := entries_nonneg a
        omega
    rw [forwardedFindLater]
    split_ifs with hlt
    · rcases y with _ | ⟨_ | p, y⟩
      · rw [List.append_nil] at hts
        rw [hts] at hsize
        omega
      · obtain ⟨hsep, -, hle⟩ := (hts ▸ h).sep
        refine (gives_readOffset hx (by omega)).bind fun k hk => ?_
        rw [if_pos (hk.trans hsep),
          show entries x + 1 = entries (x ++ [.sep]) by simp [entries_append, entries]]
        refine ih (y := y) (by rw [hts]; simp) ho ?_
        simp only [entries] at hfuel
        push_cast at hfuel
        omega
      · obtain ⟨⟨hpk, -⟩, hp, -, hle⟩ := (hts ▸ h).param
        have hk0 := hp.key
        refine (gives_readOffset hx (by omega)).bind fun k hk => ?_
        rw [if_neg (by omega)]
        refine (gives_keyIs (hts ▸ h) _).bind fun found hfound => ?_
        subst hfound
        rw [show entries x + 4 = entries (x ++ [.param p]) by simp [entries_append, entries],
          laterFound_cons once name p fun honce => hnone (hlt.2 honce)]
        refine ih (y := y) (by rw [hts]; simp) (ho.next hts name) ?_
        simp only [entries] at hfuel
        push_cast at hfuel
        omega
    · refine gives_pure ?_
      by_cases hend : entries x < used
      · -- there is one already
        have honce : once = true ∧ o ≠ -1 := by
          by_contra hno
          exact hlt ⟨hend, fun h => by_contra fun h' => hno ⟨h, h'⟩⟩
        rcases ho with ⟨ho, -⟩ | ⟨a, p, b, hplace, rfl, rfl⟩
        · exact absurd ho honce.2
        · rw [laterFound, if_pos honce.1]
          exact .inr ⟨a, p, b, hplace, rfl, rfl⟩
      · have hy := entries_nonneg y
        rw [hts, entries_append] at hsize
        have hnil : y = [] := entries_eq_zero (by omega)
        subst hnil
        have hsame : laterFound once (namedParams s name []) q = q := by
          cases once <;> simp [laterFound]
        rw [hsame]
        exact ho

theorem gives_forwardedValue (h : Tabled s offsets used (a ++ .param p :: b)) :
    Gives (forwardedValue s offsets (entries a)) fun r => r = unquotedValue (p.text s) := by
  obtain ⟨⟨-, -, hv, hn⟩, hp, h0, hle⟩ := h.param
  have hfits := h.fits
  have hlen := hp.len
  have hend := hp.value_end
  refine (gives_readOffset (by omega) (by omega)).bind fun v hv' => ?_
  refine (gives_readOffset (by omega) (by omega)).bind fun n hn' => ?_
  rw [hv', hn', hv, hn]
  have hv0 := hp.value
  refine (gives_trimBlanks _ _ hv0 (by omega) hend (by push_cast; omega)).bind fun e he => ?_
  exact gives_valueSpan hp he

/-- A step that takes the value at `o`, where there is a parameter. -/
theorem gives_valueAt {α : Type} (h : Tabled s offsets used ts) {p : Option ForwardedParam}
    (ho : ParamAt ts o p) (x : α) (f : Bytes × Bool → α) :
    Gives (if o = -1 then pure x else forwardedValue s offsets o >>= fun v => pure (f v))
      fun r => r = p.elim x fun p => f (unquotedValue (p.text s)) := by
  rcases ho with ⟨rfl, rfl⟩ | ⟨a, p, b, rfl, rfl, rfl⟩
  · exact gives_pure rfl
  · have ha := entries_nonneg a
    rw [if_neg (by omega)]
    refine (gives_forwardedValue h).bind fun value hvalue => ?_
    exact gives_pure (by rw [hvalue]; rfl)

theorem gives_forwardedSetProto (h : Tabled s offsets used ts) (conf : ExtforwardConf)
    {p : Option ForwardedParam} (ho : ParamAt ts o p) (con : ForwardedCon) :
    Gives (forwardedSetProto conf s offsets o con) fun r => r = takeProto conf s con p := by
  cases p <;> exact gives_valueAt h ho _ _

theorem gives_forwardedSetHost (h : Tabled s offsets used ts) (conf : ExtforwardConf)
    {p : Option ForwardedParam} (ho : ParamAt ts o p) (con : ForwardedCon) :
    Gives (forwardedSetHost conf s offsets o con) fun r => r = takeHost conf s con p := by
  cases p <;> exact gives_valueAt h ho _ _

theorem gives_forwardedSetRemoteUser (h : Tabled s offsets used ts) {p : Option ForwardedParam}
    (ho : ParamAt ts o p) (con : ForwardedCon) :
    Gives (forwardedSetRemoteUser s offsets o con) fun r => r = takeRemoteUser s con p := by
  cases p <;> exact gives_valueAt h ho _ _

theorem laterTokens_eq_cons {z : List ForwardedToken} {t : ForwardedToken}
    (h : laterTokens b = t :: z) : t = .sep := by
  have hne : b.dropWhile (·.inElement) ≠ [] := by
    rw [← laterTokens, h]
    simp
  have hhead := List.head_dropWhile_not ForwardedToken.inElement hne
  have ht : (b.dropWhile (·.inElement)).head hne = t := by
    rw [← Option.some_inj, ← List.head?_eq_some_head, ← laterTokens, h, List.head?_cons]
  rw [ht] at hhead
  simpa [ForwardedToken.inElement] using hhead

/-- The names that are looked for are not that of the `for`. -/
theorem not_named_of_isFor (hp : p.IsFor s) (hname : name.length ≠ 3) : ¬ p.Named s name := fun h =>
  hname (by exact_mod_cast (h.1.symm.trans hp.1 : (name.length : ℤ) = 3))

/-- All the parameters around a `for`. -/
theorem gives_forwardedAround (conf : ExtforwardConf)
    (h : Tabled s offsets used (a ++ .param p :: b)) (hp : p.IsFor s) (con : ForwardedCon) :
    Gives (forwardedAround conf s offsets used (entries a) con) fun r =>
      r = aroundMeaning conf s con a.reverse b := by
  have hfits := h.fits
  have hsize := h.entries_eq
  refine (gives_forwardedElement h).bind fun j hj => ?_
  obtain ⟨x, y, hxy, rfl, hy⟩ := hj
  rw [hxy] at h hsize
  have hx := entries_nonneg x
  rw [entries_append] at hsize
  have hnone : PlacesOk (x ++ y) ⟨-1, -1, -1⟩ fun _ => none := ⟨.none _, .none _, .none _⟩
  refine (gives_forwardedParams h 256 rfl hnone (by push_cast; omega)).bind fun r hr => ?_
  obtain ⟨hr1, hproto, hhost, huser⟩ := hr
  simp only [Option.or_none] at hproto hhost huser
  rw [hy.named (not_named_of_isFor hp (by decide))] at hproto hhost huser
  refine (gives_forwardedSetProto h conf hproto con).bind fun con' hcon => ?_
  have hlater (enabled once : Bool) (name : Bytes) {o : ℤ} {q : Option ForwardedParam}
      (ho : ParamAt (x ++ y) o q) :
      Gives (forwardedOption enabled
        (forwardedFindLater once name s offsets used 257 (r.1 + 1) o)) fun r =>
          ParamAt (x ++ y) r (optionParam enabled
            (laterFound once (namedParams s name (laterTokens b)) q)) := by
    unfold forwardedOption optionParam
    split_ifs
    · have hsplit := List.takeWhile_append_dropWhile (p := (·.inElement)) (l := y)
      rw [hy.later] at hsplit
      cases hrest : laterTokens b with
      | nil =>
        -- the element is the last one
        rw [hrest, List.append_nil] at hsplit
        rw [hsplit, entries_append, hsize] at hr1
        rw [forwardedFindLater, if_neg (by omega)]
        have hsame : laterFound once (namedParams s name []) q = q := by
          cases once <;> simp [laterFound]
        rw [hsame]
        exact gives_pure ho
      | cons t z =>
        obtain rfl := laterTokens_eq_cons hrest
        rw [hrest] at hsplit
        have hts : x ++ y = (x ++ y.takeWhile (·.inElement) ++ [.sep]) ++ z := by
          conv_lhs => rw [← hsplit]
          simp
        have htotal := congrArg entries hts
        simp only [entries_append, entries] at htotal hr1
        have hz := entries_nonneg (y.takeWhile (·.inElement))
        rw [hr1, show entries x + entries (y.takeWhile (·.inElement)) + 1 =
          entries (x ++ y.takeWhile (·.inElement) ++ [.sep]) by
            simp [entries_append, entries, add_assoc]]
        exact gives_forwardedFindLater h once name 257 hts ho (by push_cast; omega)
    · exact gives_pure (.none _)
  refine (hlater _ _ _ hhost).bind fun ohost hohost => ?_
  refine (gives_forwardedSetHost h conf hohost con').bind fun handled hhandled => ?_
  change con' = takeProto conf s con (protoParam s a.reverse b) at hcon
  change handled = takeHost conf s con' (optionParam conf.forwardedHost (hostParam s a.reverse b))
    at hhandled
  unfold aroundMeaning
  rw [← hcon]
  dsimp only
  rw [← hhandled]
  cases handled with
  | finished con => exact gives_pure rfl
  | goOn con =>
    refine (hlater _ _ _ huser).bind fun ouser houser => ?_
    exact gives_forwardedSetRemoteUser h houser con

/-! ## The header without the table -/

theorem namedParams_clear (hname : name.length ≠ 3) (ts : List ForwardedToken) :
    namedParams s name (ts.map (·.clear s)) = namedParams s name ts := by
  have hnamed (t : ForwardedToken) : (t.clear s).named s name = t.named s name := by
    cases t with
    | sep => rfl
    | param p =>
      rw [ForwardedToken.clear]
      split_ifs with hp
      · have hp' : ({ p with v := 0, vlen := 0 } : ForwardedParam).IsFor s := hp
        rw [ForwardedToken.named, ForwardedToken.named, if_neg (not_named_of_isFor hp hname),
          if_neg (not_named_of_isFor hp' hname)]
      · rfl
  rw [namedParams, List.filterMap_map]
  exact List.filterMap_congr fun t _ => hnamed t

theorem SameTokens.namedParams_eq (hname : name.length ≠ 3) (h : SameTokens s a b) :
    namedParams s name a = namedParams s name b := by
  rw [← namedParams_clear hname a, h, namedParams_clear hname]

theorem inElement_clear (t : ForwardedToken) : (t.clear s).inElement = t.inElement := by
  cases t with
  | sep => rfl
  | param p =>
    rw [ForwardedToken.clear]
    split_ifs <;> rfl

theorem inElement_comp_clear :
    (·.inElement) ∘ (·.clear s) = fun t : ForwardedToken => t.inElement :=
  funext inElement_clear

theorem SameTokens.takeWhile (h : SameTokens s a b) :
    SameTokens s (a.takeWhile (·.inElement)) (b.takeWhile (·.inElement)) := by
  have hclear (ts : List ForwardedToken) : (ts.takeWhile (·.inElement)).map (·.clear s) =
      (ts.map (·.clear s)).takeWhile (·.inElement) := by
    rw [List.takeWhile_map, inElement_comp_clear]
  rw [SameTokens, hclear, hclear, h]

theorem SameTokens.dropWhile (h : SameTokens s a b) :
    SameTokens s (a.dropWhile (·.inElement)) (b.dropWhile (·.inElement)) := by
  have hclear (ts : List ForwardedToken) : (ts.dropWhile (·.inElement)).map (·.clear s) =
      (ts.map (·.clear s)).dropWhile (·.inElement) := by
    rw [List.dropWhile_map, inElement_comp_clear]
  rw [SameTokens, hclear, hclear, h]

theorem SameTokens.reverse (h : SameTokens s a b) : SameTokens s a.reverse b.reverse := by
  unfold SameTokens at *
  rw [List.map_reverse, List.map_reverse, h]

theorem SameTokens.drop (h : SameTokens s a b) (n : ℕ) : SameTokens s (a.drop n) (b.drop n) := by
  unfold SameTokens at *
  rw [List.map_drop, List.map_drop, h]

/-- The table and the header have the same parameters around a `for`. -/
theorem SameTokens.aroundMeaning_eq (conf : ExtforwardConf) (con : ForwardedCon)
    {front front' behind behind' : List ForwardedToken} (hfront : SameTokens s front front')
    (hbehind : SameTokens s behind behind') :
    aroundMeaning conf s con front behind = aroundMeaning conf s con front' behind' := by
  have helement : SameTokens s (elementTokens front behind) (elementTokens front' behind') :=
    (hfront.takeWhile.reverse.append_right _).trans (hbehind.takeWhile.append_left _)
  have hlater : SameTokens s (laterTokens behind) (laterTokens behind') := hbehind.dropWhile
  have hproto : protoParam s front behind = protoParam s front' behind' := by
    rw [protoParam, protoParam, helement.namedParams_eq (by decide)]
  have hhost : hostParam s front behind = hostParam s front' behind' := by
    rw [hostParam, hostParam, helement.namedParams_eq (by decide),
      hlater.namedParams_eq (by decide)]
  have huser : remoteUserParam s front behind = remoteUserParam s front' behind' := by
    rw [remoteUserParam, remoteUserParam, helement.namedParams_eq (by decide),
      hlater.namedParams_eq (by decide)]
  rw [aroundMeaning, aroundMeaning, hproto, hhost, huser]

end Passes

/-- The header does not fit: a comma is one too many for the table, or the whole header is in the
table and the walk comes to the value `"["`. -/
def ForwardedMisfit (conf : ExtforwardConf) (s : Bytes) : Prop :=
  ∃ ts atEnd, forwardedTokens s (s.length + 1) 0 = .ok (ts, atEnd) ∧
    (CommaOverflows 0 ts ∨ atEnd = true ∧ entries ts ≤ 252 ∧ BracketReached conf s ts.reverse)

theorem gives_taken (conf : ExtforwardConf) (con : ForwardedCon) {offsets : Offsets} {used ofor : ℤ}
    {ts ts' : List ForwardedToken} {o : Option ForwardedTaken} (h : Tabled s offsets used ts')
    (hsame : SameTokens s ts' ts) (ho : TakenAt s [] ts' ofor o) :
    Gives (if ofor = -1 then pure (.goOn con)
      else do
        let v ← readOffset offsets (ofor + 2)
        let n ← readOffset offsets (ofor + 3)
        let addr ← derived s v n
        match modExtforwardSetAddr conf con addr with
        | none => pure (.goOn con)
        | some con => forwardedAround conf s offsets used ofor con)
      fun r => r = takenMeaning conf s con ts o := by
  rcases ho with ⟨rfl, rfl⟩ | ⟨a, p, b, t, rfl, rfl, rfl, hp, hfront, haddr⟩
  · exact gives_pure rfl
  · rw [show entries [] + entries a = entries a from zero_add _]
    rw [List.nil_append] at hfront
    obtain ⟨⟨-, -, hv, hn⟩, hvalid, h0, hle⟩ := h.param
    have hfits := h.fits
    rw [if_neg (by omega), takenMeaning, haddr, Option.bind_some]
    refine (gives_readOffset (by omega) (by omega)).bind fun v hv' => ?_
    refine (gives_readOffset (by omega) (by omega)).bind fun n hn' => ?_
    rw [hv', hn', hv, hn]
    refine (gives_derived hvalid.value hvalid.len hvalid.value_end).bind fun addr hbytes => ?_
    rw [hbytes, ← ForwardedParam.text]
    cases modExtforwardSetAddr conf con (p.text s) with
    | none => exact gives_pure rfl
    | some con =>
      have hbehind : SameTokens s b (t.behind ts) := by
        have hlen := hfront.length_eq
        rw [List.length_reverse] at hlen
        have := hsame.drop (t.front.length + 1)
        rwa [← hlen, List.drop_append, List.drop_eq_nil_of_le (by omega), List.nil_append,
          show a.length + 1 - a.length = 1 by omega, List.drop_succ_cons, List.drop_zero,
          hlen] at this
      refine (gives_forwardedAround conf h hp con).mono fun r hr => ?_
      rw [hr]
      refine SameTokens.aroundMeaning_eq conf con ?_ hbehind
      simpa using hfront.reverse

theorem ends_modExtforwardForwarded (conf : ExtforwardConf) (s : Bytes) (offsets : Offsets)
    (con : ForwardedCon) :
    Ends (modExtforwardForwarded conf s offsets con)
      (fun r => ¬ ForwardedMisfit conf s ∧ r = forwardedMeaning conf s con)
      fun _ => ForwardedMisfit conf s := by
  obtain ⟨⟨ts, atEnd⟩, hts, hvalid⟩ := gives_iff.mp
    (gives_forwardedTokens (s := s) (s.length + 1) 0 le_rfl (by omega) (by push_cast; omega))
  have hiff : ForwardedMisfit conf s ↔
      CommaOverflows 0 ts ∨ atEnd = true ∧ entries ts ≤ 252 ∧ BracketReached conf s ts.reverse := by
    constructor
    · rintro ⟨ts', atEnd', hts', h⟩
      obtain ⟨rfl, rfl⟩ := Prod.mk.inj (Except.ok.inj (hts.symm.trans hts'))
      exact h
    · exact fun h => ⟨ts, atEnd, hts, h⟩
  have hmeaning : forwardedMeaning conf s con =
      if atEnd = true ∧ entries ts ≤ 252 then tokensMeaning conf s con ts else con.reject := by
    rw [forwardedMeaning, hts]
    cases atEnd <;> simp
  rw [hiff, hmeaning]
  have hfill := ends_forwardedFill (s.length + 1) 0 (-1) offsets [] le_rfl (by omega)
    (by push_cast; omega) trivial rfl (by norm_num) hts
  refine Ends.bind (hfill.mono (fun _ => id) fun f hf => .inl hf.1) fun r hr => ?_
  obtain ⟨hover, hr⟩ := hr
  rw [show (-1 : ℤ) + 1 = 0 by norm_num] at hover
  simp only [hover, false_or]
  rcases r with _ | ⟨j, o⟩
  · have hend : ¬ atEnd = true := by rw [hr]; decide
    exact ends_pure ⟨fun h => hend h.1, by rw [if_neg fun h => hend h.1]⟩
  · rw [List.nil_append] at hr
    dsimp only
    by_cases hfull : 252 ≤ j
    · have hmisfit : ¬ (atEnd = true ∧ entries ts ≤ 252) := by
        rcases hr with hr | hr
        · omega
        · omega
      rw [if_pos hfull, if_neg hmisfit]
      exact ends_pure ⟨fun h => hmisfit ⟨h.1, h.2.1⟩, rfl⟩
    · rw [if_neg hfull]
      obtain ⟨hatEnd, hsize, hholds⟩ := hr.resolve_left fun hr => hfull hr.1
      have hfits : atEnd = true ∧ entries ts ≤ 252 := ⟨hatEnd, by omega⟩
      rw [if_pos hfits]
      by_cases hnone : j = -1
      · obtain rfl := entries_eq_zero (show entries ts = 0 by omega)
        rw [if_pos hnone]
        exact ends_pure ⟨fun h => not_bracketReached_nil h.2.2, rfl⟩
      · rw [if_neg hnone]
        have hpos := entries_nonneg ts
        refine (gives_writeOffset (by omega) (by omega)).then fun o' ho' => ?_
        subst ho'
        have htab : Tabled s (Function.update o (j + 1) (-1)) (j + 1) (ts ++ []) := by
          rw [List.append_nil]
          refine ⟨?_, hvalid, hsize.symm, by omega⟩
          rw [inTable_append, zero_add, ← hsize]
          exact ⟨hholds.update (by omega), by simp, trivial⟩
        have hsame : SameTokens s (ts ++ []) ts := by
          rw [List.append_nil]
          exact .refl ts
        have hwalk := ends_forwardedWalk conf 256 ts [] (-1) _ none htab hsame (.inl ⟨rfl, rfl⟩)
          (by push_cast; omega)
        rw [← hsize, add_sub_cancel_right] at hwalk
        refine Ends.bind (hwalk.mono (fun _ => id)
          fun f hf => ⟨hatEnd, by omega, hf.1⟩) fun r hr => ?_
        obtain ⟨hreached, hr⟩ := hr
        have hgood : ¬ (atEnd = true ∧ entries ts ≤ 252 ∧ BracketReached conf s ts.reverse) :=
          fun h => hreached h.2.2
        unfold tokensMeaning
        generalize forwardedTaken conf s false ts.reverse none = taken at hr ⊢
        cases hr with
        | rejected => exact ends_pure ⟨hgood, rfl⟩
        | taken htab' hsame' htaken =>
          exact Ends.mono (gives_taken conf con htab' hsame' htaken) (fun _ h => ⟨hgood, h⟩)
            fun _ => False.elim

/-- A header that fits sets what it means, and another one faults. -/
theorem modExtforwardForwarded_eq_ok_iff {conf : ExtforwardConf} {offsets : Offsets}
    {con : ForwardedCon} {handled : ForwardedHandled} :
    modExtforwardForwarded conf s offsets con = .ok handled ↔
      ¬ ForwardedMisfit conf s ∧ handled = forwardedMeaning conf s con := by
  have hends := ends_modExtforwardForwarded conf s offsets con
  cases hrun : modExtforwardForwarded conf s offsets con with
  | ok result =>
    rw [hrun] at hends
    refine ⟨?_, fun h => by rw [h.2, hends.2]⟩
    rintro ⟨⟩
    exact hends
  | error f =>
    rw [hrun] at hends
    exact iff_of_false (by simp) fun h => h.1 hends

/-- Parsing the header stays in the table and in the value, and ends, unless the header does not
fit. -/
theorem modExtforwardForwarded_ok_iff (conf : ExtforwardConf) (s : Bytes) (offsets : Offsets)
    (con : ForwardedCon) :
    (∃ handled, modExtforwardForwarded conf s offsets con = .ok handled) ↔
      ¬ ForwardedMisfit conf s := by
  have h := ends_modExtforwardForwarded conf s offsets con
  cases hrun : modExtforwardForwarded conf s offsets con with
  | ok handled =>
    rw [hrun] at h
    exact iff_of_true ⟨handled, rfl⟩ h.1
  | error f =>
    rw [hrun] at h
    exact iff_of_false (by simp) (not_not.mpr h)

/-- A comma with 256 entries in use is written behind the table. -/
theorem modExtforwardForwarded_of_commaOverflows (conf : ExtforwardConf) (offsets : Offsets)
    (con : ForwardedCon) {ts : List ForwardedToken} {atEnd : Bool}
    (hts : forwardedTokens s (s.length + 1) 0 = .ok (ts, atEnd)) (h : CommaOverflows 0 ts) :
    modExtforwardForwarded conf s offsets con = .error .index := by
  have hfill := ends_forwardedFill (s.length + 1) 0 (-1) offsets [] le_rfl (by omega)
    (by push_cast; omega) trivial rfl (by norm_num) hts
  unfold modExtforwardForwarded
  cases hrun : forwardedFill s (s.length + 1) 0 (-1) offsets with
  | ok r =>
    rw [hrun] at hfill
    exact absurd h hfill.1
  | error f =>
    rw [hrun] at hfill
    rw [hfill.2]
    rfl

/-- No address is trusted, and no parameter but `for` and `proto` is looked at. -/
def plainExtforward : ExtforwardConf where
  isProxyTrusted := fun _ => false
  isNumericAddr := fun _ => false
  hostPolicy := fun host _ => some host
  forwardedHost := false
  forwardedRemoteUser := false
  checkProxy := false

/-- 257 commas: the last one is written to `offsets[256]`. The value `"["`: its address has the
length -1. -/
theorem modExtforwardForwarded_faults :
    (∀ offsets con, modExtforwardForwarded plainExtforward (List.replicate 257 44) offsets con =
      .error .index) ∧
      ∀ offsets con, modExtforwardForwarded plainExtforward (str "for=\"[\"") offsets con =
        .error .offset := by
  have hcommas (s : Bytes) (hs : s = List.replicate 257 44) :
      forwardedTokens s (s.length + 1) 0 = .ok (List.replicate 257 .sep, true) := by
    rw [hs, List.length_replicate]
    decide +kernel
  have hover : CommaOverflows 0 (List.replicate 257 .sep) := by decide +kernel
  refine ⟨fun offsets con => ?_, fun offsets con => rfl⟩
  exact modExtforwardForwarded_of_commaOverflows _ offsets con (hcommas _ rfl) hover

end Lighttpd
