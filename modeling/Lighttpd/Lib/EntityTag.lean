import Lighttpd.Lib.CString

/-!
# Entity tags

An entity tag is a quoted string in which a backslash keeps the byte behind it, weak when `W/` stands
before it. Tags are the same when their texts are and neither is weak, or, in the weak comparison,
when what is between their quotes is the same.
-/

namespace EntityTag

open CString

/-- What may stand between the quotes. -/
inductive TagBody : Bytes → Prop
  | nil : TagBody []
  | plain {c : UInt8} {s : Bytes} : c ≠ 0 → c ≠ 34 → c ≠ 92 → TagBody s → TagBody (c :: s)
  | pair {c : UInt8} {s : Bytes} : c ≠ 0 → TagBody s → TagBody (92 :: c :: s)

/-- An entity tag. -/
structure Tag where
  weak : Bool
  body : Bytes
  tagBody : TagBody body

/-- The text between quotes, with the closing one. -/
def quoted (body : Bytes) : Bytes := body ++ [34]

/-- The text of a tag. -/
def Tag.text (t : Tag) : Bytes := (if t.weak then str "W/" else []) ++ 34 :: quoted t.body

/-- The two comparisons. -/
def Tag.Matches (weakOk : Bool) (a b : Tag) : Prop :=
  (weakOk = true ∨ a.weak = false ∧ b.weak = false) ∧ a.body = b.body

/-- White space around a tag in a list. -/
def IsBlank (c : UInt8) : Prop := c = SP ∨ c = HT ∨ c = CR ∨ c = LF

/-- A place between commas, with a tag or without one. -/
structure Element where
  before : Bytes
  tag : Option Tag
  after : Bytes
  blank_before : ∀ c ∈ before, IsBlank c
  blank_after : ∀ c ∈ after, IsBlank c

/-- The text of a place. -/
def Element.text (e : Element) : Bytes :=
  e.before ++ (e.tag.elim [] Tag.text ++ e.after)

/-- The text of the places behind another one. -/
def restText (es : List Element) : Bytes := es.flatMap fun e => 44 :: e.text

/-- The text of a list. -/
def listText : List Element → Bytes
  | [] => []
  | e :: es => e.text ++ restText es

/-- The tags of a list. -/
def tags (es : List Element) : List Tag := es.filterMap Element.tag

theorem TagBody.notMem_zero {s : Bytes} (h : TagBody s) : (0 : UInt8) ∉ s := by
  induction h with
  | nil => simp
  | plain h0 _ _ _ ih => exact List.not_mem_cons_of_ne_of_not_mem h0.symm ih
  | pair h0 _ ih =>
    exact List.not_mem_cons_of_ne_of_not_mem (by decide)
      (List.not_mem_cons_of_ne_of_not_mem h0.symm ih)

theorem Tag.notMem_zero (t : Tag) : (0 : UInt8) ∉ t.text := by
  have hbody := t.tagBody.notMem_zero
  have hweak : (0 : UInt8) ∉ str "W/" := by decide
  unfold Tag.text quoted
  cases t.weak <;> simp [hweak, hbody]

theorem Element.notMem_zero (e : Element) : (0 : UInt8) ∉ e.text := by
  have hblank : ∀ {s : Bytes}, (∀ c ∈ s, IsBlank c) → (0 : UInt8) ∉ s := by
    intro s hs h0
    rcases hs 0 h0 with h | h | h | h <;> cases h
  have htag : (0 : UInt8) ∉ e.tag.elim [] Tag.text := by
    cases e.tag with
    | none => simp
    | some t => exact t.notMem_zero
  simp [Element.text, hblank e.blank_before, hblank e.blank_after, htag]

theorem notMem_zero_listText (es : List Element) : (0 : UInt8) ∉ listText es := by
  have hrest : (0 : UInt8) ∉ restText es := by
    intro h0
    obtain ⟨e, -, h0⟩ := List.mem_flatMap.mp h0
    rcases List.mem_cons.mp h0 with h0 | h0
    · cases h0
    · exact e.notMem_zero h0
  cases es with
  | nil => simp [listText]
  | cons e es =>
    have hes : (0 : UInt8) ∉ restText es := fun h => hrest (by
      rw [restText, List.flatMap_cons]
      exact List.mem_append_right _ h)
    simp [listText, e.notMem_zero, hes]

theorem listText_ne_star (es : List Element) : listText es ≠ str "*" := by
  have hblank : ∀ {s : Bytes}, (∀ c ∈ s, IsBlank c) → s.head? ≠ some 42 := by
    intro s hs h
    rcases hs 42 (List.mem_of_mem_head? h) with h | h | h | h <;> cases h
  have hrest : (restText es.tail).head? ≠ some 42 := by
    cases es.tail with
    | nil => simp [restText]
    | cons e es => simp [restText]
  intro h
  replace h : (listText es).head? = some 42 := by rw [h]; decide
  cases es with
  | nil => simp [listText] at h
  | cons e es =>
    simp only [listText, Element.text, List.head?_append] at h
    cases hbefore : e.before.head? with
    | some c =>
      rw [hbefore] at h
      exact hblank e.blank_before (hbefore.trans h)
    | none =>
      cases htag : e.tag with
      | some t =>
        have htext : t.text.head? ≠ some 42 := by
          unfold Tag.text
          cases t.weak
          · simp
          · exact fun h => absurd (Option.some.inj h) (by decide)
        obtain ⟨c, hc⟩ : ∃ c, t.text.head? = some c := by
          unfold Tag.text
          cases t.weak <;> exact ⟨_, rfl⟩
        simp only [hbefore, htag, Option.elim_some, hc, Option.none_or, Option.some_or] at h
        exact htext (hc.trans h)
      | none =>
        simp only [hbefore, htag, Option.elim_none, List.head?_nil, Option.none_or] at h
        cases hafter : e.after.head? with
        | some c =>
          rw [hafter] at h
          exact hblank e.blank_after (hafter.trans h)
        | none => exact hrest (by simpa [hafter] using h)

/-- All tags, or the ones of a list. -/
inductive TagList
  | any
  | elements (es : List Element)

/-- The text of the header. -/
def TagList.text : TagList → Bytes
  | .any => str "*"
  | .elements es => listText es

/-- The tag is among those the header names. -/
def TagList.Contains (weakOk : Bool) (a : Tag) : TagList → Prop
  | .any => True
  | .elements es => ∃ t ∈ tags es, Tag.Matches weakOk a t

end EntityTag
