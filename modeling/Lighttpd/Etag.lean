import Lighttpd.Buffer
import Lighttpd.Lib.EntityTag

/-!
# Comparing entity tags

`etag_is_equal` looks for a tag in a list of tags, with a cursor in the tag that moves along with the
one in the list. When a tag of the list ends before the one that is looked for, the cursor is not at
its end, and the function takes the tag that is looked for to be malformed and gives up
(`etagIsEqual_iff`).
-/

namespace Lighttpd

open CString EntityTag

/-- The states of `etag_is_equal`. -/
inductive EtagState
  | start
  | check
  | checkQuoted
  | skip
  | skipQuoted
  | tail
  deriving DecidableEq, Repr

/-- ` `, `\t`, `\r` and `\n`. -/
def isEtagBlank (c : UInt8) : Bool := c = SP || c = HT || c = CR || c = LF

/-- The loop over the line; `tok` is the string from the cursor in the tag on, and `tokStart` that
behind its first quote. -/
def etagLoop (weakOk : Bool) (tokStart : Bytes) : EtagState → Bytes → Bytes → Bool
  | _, _, [] => false
  | .start, tok, c :: line =>
    if c = 87 then
      match line with
      | c₁ :: c₂ :: line' =>
        if c₁ ≠ 47 then false
        else if c₂ ≠ 34 then false
        else if ¬ weakOk then etagLoop weakOk tokStart .skip tok line'
        else etagLoop weakOk tokStart .check tokStart line'
      | _ => false
    else if c = 34 then etagLoop weakOk tokStart .check tokStart line
    else if c = 44 ∨ isEtagBlank c then etagLoop weakOk tokStart .start tok line
    else false
  | .check, tok, c :: line =>
    let isMatch := tok.head? = some c
    let tok := tok.tail
    if c = 92 then
      etagLoop weakOk tokStart (if isMatch then .checkQuoted else .skipQuoted) tok line
    else if c = 34 then
      -- the tag should end behind the quote
      if tok ≠ [] then false
      else if isMatch then true
      else etagLoop weakOk tokStart .tail tok line
    else etagLoop weakOk tokStart (if isMatch then .check else .skip) tok line
  | .checkQuoted, tok, c :: line =>
    if tok.head? ≠ some c then etagLoop weakOk tokStart .skip tok line
    else etagLoop weakOk tokStart .check tok.tail line
  | .skip, tok, c :: line =>
    if c = 92 then etagLoop weakOk tokStart .skipQuoted tok line
    else if c = 34 then etagLoop weakOk tokStart .tail tok line
    else etagLoop weakOk tokStart .skip tok line
  | .skipQuoted, tok, _ :: line => etagLoop weakOk tokStart .skip tok line
  | .tail, tok, c :: line =>
    if c = 44 then etagLoop weakOk tokStart .start tok line
    else if isEtagBlank c then etagLoop weakOk tokStart .tail tok line
    else false

/-- `etag_is_equal` -/
def etagIsEqual (etag : Buffer) (line : Bytes) (weakOk : Bool) : Bool :=
  if cstr line = str "*" then true
  else if bufferStringIsEmpty etag then false
  else
    let tokStart := cstr etag.string
    let isWeak := tokStart.head? = some 87
    if isWeak ∧ (¬ weakOk ∨ tokStart[1]? ≠ some 47) then false
    else
      let tokStart := if isWeak then tokStart.drop 2 else tokStart
      if tokStart.head? ≠ some 34 then false
      else etagLoop weakOk tokStart.tail .start [] (cstr line)

variable {weakOk : Bool} {tokStart body : Bytes} {state : EtagState} {E : Tag}

theorem etagLoop_tok (hstate : state ≠ .check ∧ state ≠ .checkQuoted) (tok tok' line : Bytes) :
    etagLoop weakOk tokStart state tok line = etagLoop weakOk tokStart state tok' line := by
  fun_induction etagLoop weakOk tokStart state tok line
  all_goals first
    | (simp_all [etagLoop]; done)
    | (conv_rhs => unfold etagLoop
       simp_all)

theorem etagLoop_skip {body : Bytes} (h : TagBody body) (tok rest : Bytes) :
    etagLoop weakOk tokStart .skip tok (quoted body ++ rest) =
      etagLoop weakOk tokStart .tail [] rest := by
  induction h with
  | nil => exact etagLoop_tok (by decide) tok [] rest
  | plain h0 h34 h92 _ ih =>
    rw [quoted, List.cons_append, List.cons_append, etagLoop, if_neg h92, if_neg h34]
    exact ih
  | pair h0 _ ih => exact ih

/-- A tag that is compared: found, a part of the one that is looked for, or another one. -/
theorem etagLoop_check {body : Bytes} (h : TagBody body) :
    ∀ {tokBody : Bytes}, TagBody tokBody → ∀ rest,
      etagLoop weakOk tokStart .check (quoted tokBody) (quoted body ++ rest) =
        if body = tokBody then true
        else if body <+: tokBody then false
        else etagLoop weakOk tokStart .tail [] rest := by
  induction h with
  | nil =>
    intro tokBody htok rest
    cases htok with
    | nil => rfl
    | plain h0 h34 h92 _ =>
      rw [if_neg (by simp), if_pos (List.nil_prefix)]
      simp [quoted, etagLoop]
    | pair h0 _ =>
      rw [if_neg (by simp), if_pos (List.nil_prefix)]
      simp [quoted, etagLoop]
  | @plain c s h0 h34 h92 hbody ih =>
    intro tokBody htok rest
    have hskip : ∀ tok : Bytes, tok.head? ≠ some c →
        etagLoop weakOk tokStart .check tok (quoted (c :: s) ++ rest) =
          etagLoop weakOk tokStart .tail [] rest := by
      intro tok htok
      rw [quoted, List.cons_append, List.cons_append, etagLoop, if_neg h92, if_neg h34,
        if_neg (by simpa using htok)]
      exact etagLoop_skip hbody _ rest
    cases htok with
    | nil =>
      rw [if_neg (by simp), if_neg (by simp)]
      exact hskip _ (by simpa [quoted] using h34.symm)
    | @plain d t _ _ _ ht =>
      by_cases hd : d = c
      · subst hd
        simp only [List.cons.injEq, true_and, List.cons_prefix_cons]
        rw [← ih ht rest]
        rw [quoted, quoted, List.cons_append, List.cons_append, List.cons_append, etagLoop,
          if_neg h92, if_neg h34, if_pos (by simp)]
        rfl
      · rw [if_neg (by simp [Ne.symm hd]), if_neg (by simp [List.cons_prefix_cons, Ne.symm hd])]
        exact hskip _ (by simpa [quoted] using hd)
    | pair _ _ =>
      rw [if_neg (by simp [h92]), if_neg (by simp [List.cons_prefix_cons, h92])]
      exact hskip _ (by simpa [quoted] using h92.symm)
  | @pair q s h0 hbody ih =>
    intro tokBody htok rest
    have hskip : ∀ tok : Bytes, tok.head? ≠ some 92 →
        etagLoop weakOk tokStart .check tok (quoted (92 :: q :: s) ++ rest) =
          etagLoop weakOk tokStart .tail [] rest := by
      intro tok htok
      rw [quoted, List.cons_append, List.cons_append, etagLoop, if_pos rfl,
        if_neg (by simpa using htok), List.cons_append, List.cons_append, etagLoop]
      exact etagLoop_skip hbody _ rest
    cases htok with
    | nil =>
      rw [if_neg (by simp), if_neg (by simp)]
      exact hskip _ (by simp [quoted])
    | plain _ _ h92 _ =>
      rw [if_neg (by simp [h92.symm]), if_neg (by simp [List.cons_prefix_cons, h92.symm])]
      exact hskip _ (by simpa [quoted] using h92)
    | @pair r t _ ht =>
      have hquoted : etagLoop weakOk tokStart .check (quoted (92 :: r :: t))
          (quoted (92 :: q :: s) ++ rest) =
            etagLoop weakOk tokStart .checkQuoted (r :: quoted t) (q :: (quoted s ++ rest)) := by
        simp [quoted, etagLoop]
      rw [hquoted, etagLoop]
      by_cases hr : r = q
      · subst hr
        simp only [List.cons.injEq, true_and, List.cons_prefix_cons]
        rw [if_neg (by simp)]
        exact ih ht rest
      · rw [if_pos (by simpa using hr), if_neg (by simp [Ne.symm hr]),
          if_neg (by simp [List.cons_prefix_cons, Ne.symm hr])]
        exact etagLoop_skip hbody _ rest

/-! ## A list of tags -/

/-- What the function does with the tags of a list, one after the other. -/
def etagSearch (weakOk : Bool) (body : Bytes) : List Tag → Bool
  | [] => false
  | t :: ts =>
    if weakOk = false ∧ t.weak = true then etagSearch weakOk body ts
    else if t.body = body then true
    else if t.body <+: body then false
    else etagSearch weakOk body ts

theorem isEtagBlank_of_isBlank {c : UInt8} (h : IsBlank c) :
    isEtagBlank c = true ∧ c ≠ 44 ∧ c ≠ 34 ∧ c ≠ 87 := by
  rcases h with rfl | rfl | rfl | rfl <;> decide

theorem etagLoop_blanks (hstate : state = .start ∨ state = .tail) {ws : Bytes}
    (h : ∀ c ∈ ws, IsBlank c) (tok rest : Bytes) :
    etagLoop weakOk tokStart state tok (ws ++ rest) = etagLoop weakOk tokStart state tok rest := by
  induction ws with
  | nil => rfl
  | cons c ws ih =>
    obtain ⟨hblank, h44, h34, h87⟩ := isEtagBlank_of_isBlank (h c List.mem_cons_self)
    rw [← ih fun c hc => h c (List.mem_cons_of_mem _ hc), List.cons_append]
    rcases hstate with rfl | rfl
    · conv_lhs => unfold etagLoop
      rw [if_neg h87, if_neg h34, if_pos (.inr hblank)]
    · rw [etagLoop, if_neg h44, if_pos hblank]

theorem etagLoop_quote (tok line : Bytes) :
    etagLoop weakOk tokStart .start tok (34 :: line) =
      etagLoop weakOk tokStart .check tokStart line := by
  conv_lhs => unfold etagLoop
  rfl

theorem etagLoop_weak (tok line : Bytes) :
    etagLoop weakOk tokStart .start tok (str "W/" ++ 34 :: line) =
      if ¬ weakOk then etagLoop weakOk tokStart .skip tok line
      else etagLoop weakOk tokStart .check tokStart line := by
  conv_lhs => unfold etagLoop
  rfl

theorem etagLoop_tag (hbody : TagBody body) (t : Tag) (tok rest : Bytes) (ts : List Tag)
    (hrest : etagLoop weakOk (quoted body) .tail [] rest = etagSearch weakOk body ts) :
    etagLoop weakOk (quoted body) .start tok (t.text ++ rest) =
      etagSearch weakOk body (t :: ts) := by
  have hcheck := @etagLoop_check weakOk (quoted body) _ t.tagBody _ hbody rest
  have hskip := @etagLoop_skip weakOk (quoted body) _ t.tagBody tok rest
  rw [hrest] at hcheck hskip
  rw [etagSearch, Tag.text]
  cases hweak : t.weak with
  | false =>
    rw [if_neg (by simp), if_neg (by simp), ← hcheck]
    exact etagLoop_quote tok _
  | true =>
    have hstart := @etagLoop_weak weakOk (quoted body) tok
      (quoted t.body ++ rest)
    rw [if_pos rfl, List.append_assoc, List.cons_append, hstart]
    cases weakOk with
    | false =>
      rw [if_pos (by decide), if_pos ⟨rfl, rfl⟩]
      exact hskip
    | true =>
      rw [if_neg (by simp), if_neg (by simp)]
      exact hcheck

/-- The places of a list: `,` stands where a tag may begin, and ends what follows a tag. -/
theorem etagLoop_element (hbody : TagBody body) (e : Element) (es : List Element) (tok : Bytes)
    (hrest : ∀ state tok, state = .start ∨ state = .tail →
      etagLoop weakOk (quoted body) state tok (restText es) = etagSearch weakOk body (tags es)) :
    etagLoop weakOk (quoted body) .start tok (e.text ++ restText es) =
      etagSearch weakOk body (tags (e :: es)) := by
  have hafter : ∀ state, state = .start ∨ state = .tail →
      etagLoop weakOk (quoted body) state [] (e.after ++ restText es) =
        etagSearch weakOk body (tags es) := by
    intro state hstate
    rw [etagLoop_blanks hstate e.blank_after, hrest state [] hstate]
  rw [Element.text, List.append_assoc, etagLoop_blanks (.inl rfl) e.blank_before,
    List.append_assoc]
  cases htag : e.tag with
  | none =>
    rw [tags, List.filterMap_cons_none htag, etagLoop_tok (by decide) tok []]
    exact hafter .start (.inl rfl)
  | some t =>
    rw [tags, List.filterMap_cons_some htag]
    exact etagLoop_tag hbody t tok _ _ (hafter .tail (.inr rfl))

theorem etagLoop_restText (hbody : TagBody body) (es : List Element) :
    ∀ state tok, state = .start ∨ state = .tail →
      etagLoop weakOk (quoted body) state tok (restText es) =
        etagSearch weakOk body (tags es) := by
  induction es with
  | nil =>
    intro state tok _
    cases state <;> rfl
  | cons e es ih =>
    intro state tok hstate
    rw [← etagLoop_element hbody e es tok ih]
    change etagLoop weakOk (quoted body) state tok (44 :: (e.text ++ restText es)) = _
    rcases hstate with rfl | rfl
    · conv_lhs => unfold etagLoop
      rfl
    · rw [etagLoop, if_pos rfl]

/-- On a list the function looks at its tags, one after the other. -/
theorem etagIsEqual_listText (E : Tag) (es : List Element) :
    etagIsEqual (some E.text) (listText es) weakOk =
      if weakOk = false ∧ E.weak = true then false else etagSearch weakOk E.body (tags es) := by
  have hcstr := cstr_of_notMem (notMem_zero_listText es)
  have hcstrE := cstr_of_notMem E.notMem_zero
  have hloop : etagLoop weakOk (quoted E.body) .start [] (listText es) =
      etagSearch weakOk E.body (tags es) := by
    cases es with
    | nil => rfl
    | cons e es =>
      exact etagLoop_element E.tagBody e es [] (etagLoop_restText E.tagBody es)
  unfold etagIsEqual
  rw [hcstr, if_neg (listText_ne_star es)]
  simp only [Buffer.string, Option.getD_some, hcstrE, bufferStringIsEmpty]
  cases hweak : E.weak with
  | false =>
    have htext : E.text = 34 :: quoted E.body := by simp [Tag.text, hweak]
    rw [← hloop]
    simp [htext]
  | true =>
    have htext : E.text = 87 :: 47 :: 34 :: quoted E.body := by
      rw [Tag.text, hweak]
      rfl
    rw [← hloop]
    cases weakOk <;> simp [htext]

/-- Before the first tag that matches stands one that is compared, and whose text the tag that is
looked for goes on from. -/
inductive Shadowed (weakOk : Bool) (E : Tag) : List Tag → Prop
  | here {t : Tag} {ts : List Tag} : (weakOk = true ∨ t.weak = false) → t.body <+: E.body →
      t.body ≠ E.body → (∃ u ∈ ts, Tag.Matches weakOk E u) → Shadowed weakOk E (t :: ts)
  | later {t : Tag} {ts : List Tag} : ¬ Tag.Matches weakOk E t → Shadowed weakOk E ts →
      Shadowed weakOk E (t :: ts)

theorem Shadowed.exists_matches {ts : List Tag} (h : Shadowed weakOk E ts) :
    ∃ u ∈ ts, Tag.Matches weakOk E u := by
  induction h with
  | here _ _ _ hmatch =>
    obtain ⟨u, hu, hmatch⟩ := hmatch
    exact ⟨u, List.mem_cons_of_mem _ hu, hmatch⟩
  | later _ _ ih =>
    obtain ⟨u, hu, hmatch⟩ := ih
    exact ⟨u, List.mem_cons_of_mem _ hu, hmatch⟩

theorem exists_matches_and_not_shadowed_cons {t : Tag} {ts : List Tag}
    (hmatch : ¬ Tag.Matches weakOk E t)
    (hway : ¬ ((weakOk = true ∨ t.weak = false) ∧ t.body <+: E.body)) :
    ((∃ u ∈ t :: ts, Tag.Matches weakOk E u) ∧ ¬ Shadowed weakOk E (t :: ts)) ↔
      (∃ u ∈ ts, Tag.Matches weakOk E u) ∧ ¬ Shadowed weakOk E ts := by
  have hshadowed : Shadowed weakOk E (t :: ts) ↔ Shadowed weakOk E ts := by
    constructor
    · intro h
      cases h with
      | here hcompared hprefix _ _ => exact absurd ⟨hcompared, hprefix⟩ hway
      | later _ h => exact h
    · exact .later hmatch
  rw [hshadowed]
  simp [hmatch]

theorem etagSearch_iff (hE : weakOk = true ∨ E.weak = false) (ts : List Tag) :
    etagSearch weakOk E.body ts = true ↔
      (∃ u ∈ ts, Tag.Matches weakOk E u) ∧ ¬ Shadowed weakOk E ts := by
  induction ts with
  | nil => simp [etagSearch]
  | cons t ts ih =>
    rw [etagSearch]
    by_cases hskip : weakOk = false ∧ t.weak = true
    · have hcompared : ¬ (weakOk = true ∨ t.weak = false) := by simp [hskip.1, hskip.2]
      rw [if_pos hskip, ih, exists_matches_and_not_shadowed_cons]
      · intro hmatch
        exact hcompared (hmatch.1.imp_right And.right)
      · exact fun h => hcompared h.1
    · have hcompared : weakOk = true ∨ t.weak = false := by
        by_contra h
        exact hskip (by simpa using h)
      rw [if_neg hskip]
      by_cases heq : t.body = E.body
      · have hmatch : Tag.Matches weakOk E t := by
          refine ⟨?_, heq.symm⟩
          rcases hE with hE | hE
          · exact .inl hE
          · exact hcompared.imp_right (⟨hE, ·⟩)
        rw [if_pos heq]
        refine iff_of_true rfl ⟨⟨t, List.mem_cons_self, hmatch⟩, ?_⟩
        intro h
        cases h with
        | here _ _ hne _ => exact hne heq
        | later hnot _ => exact hnot hmatch
      · have hmatch : ¬ Tag.Matches weakOk E t := fun h => heq h.2.symm
        rw [if_neg heq]
        by_cases hprefix : t.body <+: E.body
        · rw [if_pos hprefix]
          refine iff_of_false Bool.false_ne_true ?_
          rintro ⟨⟨u, hu, hu'⟩, hnot⟩
          rcases List.mem_cons.mp hu with rfl | hu
          · exact hmatch hu'
          · exact hnot (.here hcompared hprefix heq ⟨u, hu, hu'⟩)
        · rw [if_neg hprefix, ih, exists_matches_and_not_shadowed_cons hmatch]
          exact fun h => hprefix h.2

/-- The function finds the tag where the header names it, unless a tag before the first one that
matches is the beginning of the one that is looked for. -/
theorem etagIsEqual_iff (E : Tag) (l : TagList) (weakOk : Bool) :
    (etagIsEqual (some E.text) l.text weakOk = true ↔ l.Contains weakOk E) ↔
      ¬ ∃ es, l = .elements es ∧ Shadowed weakOk E (tags es) := by
  cases l with
  | any =>
    refine iff_of_true (iff_of_true rfl trivial) ?_
    rintro ⟨es, h, -⟩
    cases h
  | elements es =>
    rw [TagList.text, etagIsEqual_listText]
    simp only [TagList.Contains, TagList.elements.injEq, exists_eq_left']
    have hmatch : Shadowed weakOk E (tags es) → ∃ u ∈ tags es, Tag.Matches weakOk E u :=
      Shadowed.exists_matches
    by_cases hE : weakOk = true ∨ E.weak = false
    · rw [if_neg (by rcases hE with hE | hE <;> simp [hE]), etagSearch_iff hE]
      constructor
      · intro h hshadowed
        exact (h.mpr (hmatch hshadowed)).2 hshadowed
      · intro h
        exact and_iff_left h
    · have hnone : ¬ ∃ u ∈ tags es, Tag.Matches weakOk E u := by
        rintro ⟨u, -, hu⟩
        exact hE (hu.1.imp_right And.left)
      rw [if_pos (by simpa using hE)]
      exact iff_of_true (iff_of_false Bool.false_ne_true hnone) (hnone ∘ hmatch)

/-- `"ab"` is not found in `"a", "ab"`. -/
theorem etagIsEqual_shadowed :
    ¬ ∀ (E : Tag) (l : TagList) (weakOk : Bool),
      etagIsEqual (some E.text) l.text weakOk = true ↔ l.Contains weakOk E := by
  intro h
  have hplain : ∀ {s : Bytes}, TagBody s → TagBody (97 :: s) :=
    TagBody.plain (by decide) (by decide) (by decide)
  let a : Tag := ⟨false, [97], hplain .nil⟩
  let ab : Tag := ⟨false, [97, 98], hplain (.plain (by decide) (by decide) (by decide) .nil)⟩
  let es : List Element :=
    [⟨[], some a, [], by simp, by simp⟩, ⟨[SP], some ab, [], by simp [IsBlank], by simp⟩]
  -- the texts are `"ab"` and `"a", "ab"`
  have hab : ab.text = [34, 97, 98, 34] := rfl
  have hes : (TagList.elements es).text = [34, 97, 34, 44, 32, 34, 97, 98, 34] := rfl
  have htrue := (h ab (.elements es) false).mpr ⟨ab, by simp [es, tags], .inr ⟨rfl, rfl⟩, rfl⟩
  rw [hab, hes] at htrue
  exact absurd htrue (by decide)

end Lighttpd
