import Lighttpd.ResponseHeaders

/-!
# Fixed headers and many connections

The fixed headers are shared by the response headers of all connections. An operation on one
connection reads and writes the instances as well as the array of the connection.

`sharedHeadersRun_constant`: the instances stay as they were registered while no operation meets a
fixed header under the key it writes to, and only registered types are used. Both conditions are
needed (`sharedHeaders_not_constant`), and `http_response_send_file` breaks the second one.
-/

namespace Lighttpd

open CString ResponseHeaders

/-- A call on the response headers of a connection. -/
inductive HeaderOp
  | insert (key value : Bytes)
  | overwrite (key value : Bytes)
  | append (key value : Bytes)
  | fixedOverwrite (headerType : FixedType)
  | fixedAppend (key value : Bytes) (headerType : FixedType)
  | insertUnique (entry : HeaderRef)
  | reset

/-- The headers after the call; `none` when an assertion fails. -/
def HeaderOp.apply (h : ResponseHeaders) : HeaderOp → Option ResponseHeaders
  | .insert key value => responseHeaderInsert h key value
  | .overwrite key value => responseHeaderOverwrite h key value
  | .append key value => responseHeaderAppend h key value
  | .fixedOverwrite headerType => responseHeaderFixedOverwrite h headerType
  | .fixedAppend key value headerType => responseHeaderFixedAppend h key value headerType
  | .insertUnique entry => h.insertUnique entry
  | .reset => some h.reset

/-- The fixed headers of the server and the header arrays of its connections. -/
structure HeaderSystem where
  fixed : FixedHeaders
  arrays : ℕ → HeaderArray

/-- The headers of one connection. -/
def HeaderSystem.headers (s : HeaderSystem) (con : ℕ) : ResponseHeaders := ⟨s.fixed, s.arrays con⟩

/-- The server after `http_response_fixed_header_register`. -/
def HeaderSystem.start : HeaderSystem := ⟨.register, fun _ => ⟨[], [], 0⟩⟩

/-- A call on one connection. -/
def HeaderSystem.step (s : HeaderSystem) (call : ℕ × HeaderOp) : Option HeaderSystem :=
  (call.2.apply (s.headers call.1)).map fun h =>
    ⟨h.fixed, Function.update s.arrays call.1 h.array⟩

/-- A sequence of calls. -/
def sharedHeadersRun (s : HeaderSystem) (calls : List (ℕ × HeaderOp)) : Option HeaderSystem :=
  calls.foldlM HeaderSystem.step s

/-- Every instance has the key and the value it was registered with. -/
def FixedHeaders.Constant (fixed : FixedHeaders) : Prop :=
  ∀ (t : FixedType) (key value : Bytes), t.registered = some (key, value) →
    (fixed.instances t).key = some key ∧ (fixed.instances t).value = some value

/-- The type of fixed header that a call uses. -/
def HeaderOp.headerType : HeaderOp → Option FixedType
  | .fixedOverwrite t | .fixedAppend _ _ t | .insertUnique (.fixed t) => some t
  | _ => none

/-- A type is registered with a key and a value that are not empty. -/
def FixedType.IsRegistered (t : FixedType) : Prop :=
  ∃ key value, t.registered = some (key, value) ∧ key ≠ [] ∧ value ≠ []

variable {t : FixedType} {h h' : ResponseHeaders}

theorem FixedType.isRegistered_iff : t.IsRegistered ↔ t.registered ≠ none := by
  constructor
  · rintro ⟨key, value, h, -⟩
    simp [h]
  · intro h
    cases t with
    | acceptRangesBytes => exact absurd rfl h
    | _ => exact ⟨_, _, rfl, by decide, by decide⟩

/-! ## When the instances stay as they are -/

/-- The element with this key is a fixed header. -/
def FindsFixed (h : ResponseHeaders) (key : Bytes) : Prop :=
  ∃ e, h.getElement key = some e ∧ e.type = .fixedHeader

/-- A fixed header that is inserted is registered, and not merged into another one. -/
def InsertsFixedOnce (h : ResponseHeaders) (t : FixedType) : Prop :=
  t.registered ≠ none ∧ ¬ FindsFixed h (h.fixed.instances t).key.string

/-- The call does not write to a fixed header: none is found under the key that is written to,
and only a registered one, not there yet, is inserted. -/
def HeaderOp.Harmless (h : ResponseHeaders) : HeaderOp → Prop
  | .overwrite key _ | .append key _ => ¬ FindsFixed h key
  | .fixedOverwrite t | .insertUnique (.fixed t) => InsertsFixedOnce h t
  | .fixedAppend key _ t => ¬ FindsFixed h key ∧ InsertsFixedOnce h t
  | .insert _ _ | .insertUnique (.own _ _ _) | .reset => True

/-- Every call of the sequence is harmless where it is made. -/
def HarmlessRun : HeaderSystem → List (ℕ × HeaderOp) → Prop
  | _, [] => True
  | s, call :: calls =>
    call.2.Harmless (s.headers call.1) ∧ ∀ s', s.step call = some s' → HarmlessRun s' calls

theorem HeaderOp.Harmless.registered {op : HeaderOp} (hop : op.Harmless h)
    (ht : op.headerType = some t) : t.IsRegistered := by
  rw [FixedType.isRegistered_iff]
  cases op with
  | fixedOverwrite t' => cases ht; exact hop.1
  | fixedAppend key value t' => cases ht; exact hop.2.1
  | insertUnique entry =>
    cases entry with
    | fixed t' => cases ht; exact hop.1
    | own key isIndexKey value => cases ht
  | _ => cases ht

theorem fixed_setValueAt {ndx : ℕ} {value : Buffer}
    (hne : ∀ e, h.view.element ndx = some e → e.type ≠ .fixedHeader) :
    (h.setValueAt ndx value).fixed = h.fixed := by
  unfold setValueAt
  split
  · rfl
  · next t ht =>
    refine absurd (h.fixed.hasKey t).1 (hne _ ?_)
    rw [element_view, getElem?_elements, ht]
    rfl
  · rfl

/-- The element at the position that was found is the element found. -/
theorem getElement_of_index {key : Bytes} {ndx : ℕ} {e : DataUnset Buffer}
    (hget : (arrayGetIndex h.view key).1 = some ndx) (he : h.view.element ndx = some e) :
    h.getElement key = some e := by
  rw [getElement, arrayGetElementKlen, hget, Option.bind_some, he]

theorem fixed_insertUnique_own {key : Buffer} {isIndexKey : Bool} {value : Buffer}
    (hins : h.insertUnique (.own key isIndexKey value) = some h') : h'.fixed = h.fixed := by
  have hgen : (h.generateKey (.own key isIndexKey value)).2.fixed = h.fixed ∧
      ((h.generateKey (.own key isIndexKey value)).1.get h.fixed).type = .response := by
    unfold ResponseHeaders.generateKey
    dsimp only
    split_ifs <;> exact ⟨rfl, rfl⟩
  unfold insertUnique at hins
  dsimp only at hins
  split at hins
  · cases hins
    exact hgen.1
  · split at hins
    · next old hold =>
      split_ifs at hins with htype
      cases hins
      rw [hgen.1, hgen.2] at htype
      refine (fixed_setValueAt fun e he => ?_).trans hgen.1
      rw [hold] at he
      cases he
      rw [htype]
      decide
    · simp at hins

theorem fixed_insertUnique_fixed (ht : InsertsFixedOnce h t)
    (hins : h.insertUnique (.fixed t) = some h') : h'.fixed = h.fixed := by
  unfold insertUnique at hins
  rw [generateKey_of_settled (settled_fixed h.fixed ht.1)] at hins
  dsimp only at hins
  split at hins
  · cases hins
    rfl
  · next ndx pos hget =>
    split at hins
    · next old hold =>
      split_ifs at hins with htype
      have hfound : (arrayGetIndex h.view (h.fixed.instances t).key.string).1 = some ndx :=
        congrArg Prod.fst hget
      exact absurd ⟨old, getElement_of_index hfound hold, htype.trans (h.fixed.hasKey t).1⟩ ht.2
    · simp at hins

theorem HeaderOp.Harmless.fixed_apply {op : HeaderOp} (hop : op.Harmless h)
    (happ : op.apply h = some h') : h'.fixed = h.fixed := by
  have hwrite : ∀ {key : Bytes} {ndx : ℕ} {value : Buffer}, ¬ FindsFixed h key →
      (arrayGetIndex h.view key).1 = some ndx → (h.setValueAt ndx value).fixed = h.fixed :=
    fun hne hget => fixed_setValueAt fun e he htype =>
      hne ⟨e, getElement_of_index hget he, htype⟩
  cases op with
  | insert key value => exact fixed_insertUnique_own happ
  | overwrite key value =>
    simp only [apply, responseHeaderOverwrite] at happ
    split at happ
    · next hget =>
      cases happ
      exact hwrite hop hget
    · exact fixed_insertUnique_own happ
  | append key value =>
    simp only [apply, responseHeaderAppend] at happ
    split at happ
    · next hget =>
      cases happ
      exact hwrite hop hget
    · exact fixed_insertUnique_own happ
  | fixedOverwrite t => exact fixed_insertUnique_fixed hop happ
  | fixedAppend key value t =>
    simp only [apply, responseHeaderFixedAppend] at happ
    split at happ
    · next hget =>
      cases happ
      exact hwrite hop.1 hget
    · exact fixed_insertUnique_fixed hop.2 happ
  | insertUnique entry =>
    cases entry with
    | own key isIndexKey value => exact fixed_insertUnique_own happ
    | fixed t => exact fixed_insertUnique_fixed hop happ
  | reset =>
    cases happ
    rfl

/-- Harmless calls leave the instances alone, and use registered types only. -/
theorem HarmlessRun.fixed_run :
    ∀ {calls : List (ℕ × HeaderOp)} {s s' : HeaderSystem}, HarmlessRun s calls →
      sharedHeadersRun s calls = some s' → s'.fixed = s.fixed
  | [], s, s', _, hrun => by
    cases hrun
    rfl
  | call :: calls, s, s', h, hrun => by
    rw [sharedHeadersRun, List.foldlM_cons] at hrun
    obtain ⟨s₁, hstep, hrun⟩ := Option.bind_eq_some_iff.mp hrun
    refine (HarmlessRun.fixed_run (h.2 s₁ hstep) hrun).trans ?_
    obtain ⟨h₁, happ, rfl⟩ := Option.map_eq_some_iff.mp hstep
    exact h.1.fixed_apply happ

theorem constant_register : FixedHeaders.register.Constant := fun t key value ht => by
  simp [FixedHeaders.register, FixedType.instance, ht]

theorem HarmlessRun.of_isPrefix :
    ∀ {calls done : List (ℕ × HeaderOp)} {s : HeaderSystem}, HarmlessRun s calls → done <+: calls →
      HarmlessRun s done
  | [], done, s, h, hd => by
    rw [List.prefix_nil.mp hd]
    exact h
  | call :: calls, done, s, h, hd => by
    rcases List.prefix_cons_iff.mp hd with rfl | ⟨done', rfl, hd'⟩
    · trivial
    · exact ⟨h.1, fun s' hs' => (h.2 s' hs').of_isPrefix hd'⟩

theorem HarmlessRun.isRegistered :
    ∀ {calls : List (ℕ × HeaderOp)} {s s' : HeaderSystem}, HarmlessRun s calls →
      sharedHeadersRun s calls = some s' → ∀ call ∈ calls, ∀ t, call.2.headerType = some t →
        t.IsRegistered
  | [], s, s', _, _, call, hcall => absurd hcall (by simp)
  | first :: rest, s, s', h, hrun, call, hcall => by
    rw [sharedHeadersRun, List.foldlM_cons] at hrun
    obtain ⟨s₁, hstep, hrun⟩ := Option.bind_eq_some_iff.mp hrun
    rcases List.mem_cons.mp hcall with rfl | hcall
    · exact fun t ht => h.1.registered ht
    · exact (h.2 s₁ hstep).isRegistered hrun call hcall

/-- In a run of harmless calls on any number of connections, every instance has in every state
reached the key and the value it was registered with, and every type used so far is registered. -/
theorem sharedHeadersRun_constant (calls done : List (ℕ × HeaderOp)) (s : HeaderSystem)
    (hcalls : HarmlessRun .start calls) (hdone : done <+: calls)
    (hrun : sharedHeadersRun .start done = some s) :
    s.fixed.Constant ∧
      ∀ call ∈ done, ∀ t, call.2.headerType = some t → t.IsRegistered := by
  have hharmless := hcalls.of_isPrefix hdone
  refine ⟨?_, hharmless.isRegistered hrun⟩
  rw [hharmless.fixed_run hrun]
  exact constant_register

theorem sharedHeadersRun_constant_close :
    ∃ s, sharedHeadersRun .start [(0, .fixedOverwrite .connectionClose)] = some s ∧
      s.fixed.Constant := by
  have hnone : (HeaderSystem.start.headers 0).getElement (str "Connection") = none := by
    decide +kernel
  have hharmless : HarmlessRun .start [(0, .fixedOverwrite .connectionClose)] := by
    refine ⟨⟨by decide, ?_⟩, fun _ _ => trivial⟩
    rintro ⟨e, he, -⟩
    exact absurd (he.symm.trans hnone) (by simp)
  exact ⟨_, rfl, (sharedHeadersRun_constant _ _ _ hharmless (List.prefix_refl _) rfl).1⟩

/-- `http_response_send_file` inserts `RESP_FIXED_HEADER_ACCEPT_RANGES_BYTES`, which has no header
of its own; and a value appended on one connection is seen by all. -/
theorem sharedHeaders_not_constant :
    (∃ s, sharedHeadersRun .start [(0, .fixedOverwrite .acceptRangesBytes)] = some s ∧
      (s.fixed.instances .acceptRangesBytes).key = some (str "0") ∧
      ¬ FixedType.acceptRangesBytes.IsRegistered) ∧
    ∃ s, sharedHeadersRun .start [(0, .fixedOverwrite .transferEncodingChunked),
        (1, .fixedOverwrite .transferEncodingChunked),
        (0, .append (str "Transfer-Encoding") (str "gzip"))] = some s ∧
      ¬ s.fixed.Constant ∧
      ((s.headers 1).getElement (str "transfer-encoding")).bind DataUnset.value =
        some (str "chunked, gzip") := by
  refine ⟨⟨_, rfl, by decide +kernel, fun h => FixedType.isRegistered_iff.mp h rfl⟩,
    ⟨_, rfl, fun h => ?_, by decide +kernel⟩⟩
  exact absurd (h .transferEncodingChunked _ _ rfl).2 (by decide +kernel)

end Lighttpd
