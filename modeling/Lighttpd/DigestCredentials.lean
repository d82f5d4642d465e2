import Mathlib.Data.List.Nodup
import Lighttpd.Lib.CString

/-!
# Reading Digest credentials

`mod_auth_check_digest` goes over the credentials and tries its nine keys at each byte it comes to.
Behind a key it goes on at the end of the value, but of a parameter that it does not know it tries
every byte. So the credentials are read as written exactly when no such parameter has a key in its
text (`readsAsWritten_iff`). The scan ends inside the buffer in any case (`digestScan_ends`).
-/

namespace Lighttpd

open CString

/-! ## The scan -/

/-- The entries of `dkv`. -/
inductive DigestKey
  | username
  | realm
  | nonce
  | uri
  | algorithm
  | qop
  | cnonce
  | nc
  | respons
  deriving DecidableEq, Repr

/-- `dkv[i].key` -/
def DigestKey.key : DigestKey → Bytes
  | .username => str "username="
  | .realm => str "realm="
  | .nonce => str "nonce="
  | .uri => str "uri="
  | .algorithm => str "algorithm="
  | .qop => str "qop="
  | .cnonce => str "cnonce="
  | .nc => str "nc="
  | .respons => str "response="

/-- `dkv`, in its order. -/
def dkv : List DigestKey :=
  [.username, .realm, .nonce, .uri, .algorithm, .qop, .cnonce, .nc, .respons]

/-- The bytes of the buffer `b`, the place of `c` in it, and the assignments to the pointers of
`dkv`, the last one first. -/
structure DigestScan where
  b : Bytes
  c : ℕ
  ptrs : List (DigestKey × ℕ)
  deriving DecidableEq, Repr

/-- `c++` -/
def DigestScan.next (s : DigestScan) : DigestScan := { s with c := s.c + 1 }

/-- The blanks that are skipped. -/
def digestBlank (x : UInt8) : Bool := x = SP || x = HT

/-- `while (*c == ' ' || *c == '\t') c++` -/
def DigestScan.skipBlanks (s : DigestScan) : DigestScan :=
  { s with c := s.c + ((s.b.drop s.c).takeWhile digestBlank).length }

/-- The first entry of `dkv` whose key is at `c`. -/
def digestKeyAt (text : Bytes) : Option DigestKey := dkv.find? fun k => k.key.isPrefixOf text

/-- The value behind a key is assigned and ended with a NUL. -/
def takeValue (k : DigestKey) (s : DigestScan) : DigestScan :=
  let v := s.c + k.key.length
  match if s.b[v]? = some 34 then strchr (s.b.drop (v + 1)) 34 else none with
  | some e => ⟨s.b.set (v + 1 + e) 0, v + 1 + e, (k, v + 1) :: s.ptrs⟩
  | none =>
    match strchr (s.b.drop v) 44 with
    | some e => ⟨s.b.set (v + e) 0, v + e, (k, v) :: s.ptrs⟩
    | none => ⟨s.b, s.c + (cstr (s.b.drop s.c)).length - 1, (k, v) :: s.ptrs⟩

/-- The keys are tried at `c`. -/
def digestTurn (s : DigestScan) : DigestScan :=
  match digestKeyAt (s.b.drop s.c) with
  | none => s
  | some k => takeValue k s

/-- The loop over the credentials; no result when `*c` is read outside of the buffer. -/
def digestLoop : ℕ → DigestScan → Option DigestScan
  | 0, _ => none
  | n + 1, s => do
    let x ← s.b[s.c]?
    if x = 0 then some s
    else
      let s := s.skipBlanks
      let x ← s.b[s.c]?
      if x = 0 then some s else digestLoop n (digestTurn s).next

/-- What is behind `Digest ` in the header. -/
def digestCredentials (value : Bytes) : Option Bytes :=
  if CaseEq (value.take 7) (str "Digest ") then some (value.drop 7) else none

/-- The scan of the credentials in a buffer with a NUL behind them. -/
def digestScan (b : Bytes) : Option DigestScan := digestLoop (b.length + 1) ⟨b ++ [0], 0, []⟩

/-- The value of a pointer of `dkv` after the scan, unless it is `NULL`. -/
def DigestScan.value (s : DigestScan) (k : DigestKey) : Option Bytes :=
  (s.ptrs.lookup k).map fun p => cstr (s.b.drop p)

/-! ## The credentials -/

/-- At least one character, none of which can end a name or a value. -/
def IsAuthToken (w : Bytes) : Prop := w ≠ [] ∧ ∀ c ∈ w, c ∉ [0, HT, SP, 34, 44, 61]

instance (w : Bytes) : Decidable (IsAuthToken w) := inferInstanceAs (Decidable (_ ∧ _))

/-- What can be the value of a parameter. -/
def IsAuthValue (quoted : Bool) (w : Bytes) : Prop :=
  if quoted = true then (0 : UInt8) ∉ w ∧ (34 : UInt8) ∉ w else IsAuthToken w

instance (quoted : Bool) (w : Bytes) : Decidable (IsAuthValue quoted w) :=
  inferInstanceAs (Decidable
    (if quoted = true then (0 : UInt8) ∉ w ∧ (34 : UInt8) ∉ w else IsAuthToken w))

/-- A parameter, with the blanks before it. -/
structure AuthParam where
  blanks : Bytes
  name : Bytes
  quoted : Bool
  value : Bytes
  all_blank : ∀ c ∈ blanks, digestBlank c
  name_token : IsAuthToken name
  value_ok : IsAuthValue quoted value

namespace AuthParam

/-- The parameter as it is written. -/
def written (p : AuthParam) : Bytes :=
  p.name ++ 61 :: if p.quoted = true then 34 :: (p.value ++ [34]) else p.value

/-- The parameter with the blanks. -/
def text (p : AuthParam) : Bytes := p.blanks ++ p.written

/-- Where the value is in the text. -/
def start (p : AuthParam) : ℕ :=
  p.blanks.length + p.name.length + if p.quoted = true then 2 else 1

/-- The parameter has exactly the name of the key. -/
def Is (p : AuthParam) (k : DigestKey) : Prop := p.name ++ [61] = k.key

instance (p : AuthParam) (k : DigestKey) : Decidable (p.Is k) := inferInstanceAs (Decidable (_ = _))

/-- Where the value of `p` is, in a list of parameters that is at the place `o`. -/
def Placed (p : AuthParam) (i : ℕ) : ℕ → List AuthParam → Prop
  | _, [] => False
  | o, q :: qs => p = q ∧ i = o + q.start ∨ Placed p i (o + q.text.length + 1) qs

end AuthParam

/-- The parameters with commas between them. -/
def authText : List AuthParam → Bytes
  | [] => []
  | [p] => p.text
  | p :: q :: qs => p.text ++ 44 :: authText (q :: qs)

/-- Parameters with distinct names. -/
structure AuthParams where
  params : List AuthParam
  distinct : (params.map AuthParam.name).Nodup

/-- The value of the parameter with the name of the key. -/
def AuthParams.value (ps : AuthParams) (k : DigestKey) : Option Bytes :=
  (ps.params.find? fun p => decide (p.Is k)).map AuthParam.value

/-- The scan ends inside the buffer, each pointer has the value of the parameter with its name, and
nothing but the values of the parameters with these names has been assigned. -/
def ReadsAsWritten (ps : AuthParams) : Prop :=
  ∃ b s, digestCredentials (str "Digest " ++ authText ps.params) = some b ∧
    digestScan b = some s ∧ s.c ≤ b.length ∧ (∀ k, s.value k = ps.value k) ∧
      ∀ k i, (k, i) ∈ s.ptrs → ∃ p : AuthParam, p.Is k ∧ p.Placed i 0 ps.params

/-- No key is in the text of a parameter, unless it is its name. -/
def AuthParam.HidesNoKey (p : AuthParam) : Prop :=
  (∀ k, ¬ p.Is k) → ∀ k : DigestKey, ¬ k.key <:+: p.written

theorem mem_dkv (k : DigestKey) : k ∈ dkv := by
  cases k <;> decide

theorem key_prefix_key : ∀ k ∈ dkv, ∀ k' ∈ dkv, k.key <+: k'.key → k = k' := by
  decide +kernel

theorem notMem_key (k : DigestKey) : ∀ x ∈ [0, HT, SP, 34, 44], x ∉ k.key := by
  cases k <;> decide +kernel

variable {k : DigestKey} {x : UInt8} {s s' r : DigestScan} {p : AuthParam} {i : ℕ}

theorem key_unique {k' : DigestKey} {text : Bytes} (h : k.key <+: text) (h' : k'.key <+: text) :
    k = k' := by
  rcases List.prefix_or_prefix_of_prefix h h' with hk | hk
  · exact key_prefix_key k (mem_dkv k) k' (mem_dkv k') hk
  · exact (key_prefix_key k' (mem_dkv k') k (mem_dkv k) hk).symm

theorem digestKeyAt_eq_some_iff {text : Bytes} : digestKeyAt text = some k ↔ k.key <+: text := by
  have hfound : ∀ {k}, digestKeyAt text = some k → k.key <+: text := fun {k} h =>
    List.isPrefixOf_iff_prefix.mp
      (List.find?_some (p := fun k : DigestKey => k.key.isPrefixOf text) h)
  constructor
  · exact hfound
  · intro h
    cases hfind : digestKeyAt text with
    | none =>
      have hnone := List.find?_eq_none.mp hfind k (mem_dkv k)
      exact absurd (List.isPrefixOf_iff_prefix.mpr h) hnone
    | some k' => rw [key_unique (hfound hfind) h]

theorem key_prefix_of_append {u rest : Bytes} (hx : x ∈ [0, HT, SP, 34, 44])
    (h : k.key <+: u ++ x :: rest) : k.key <+: u := by
  by_cases hlen : k.key.length ≤ u.length
  · exact List.prefix_of_prefix_length_le h (List.prefix_append u _) hlen
  · have hpre : u ++ [x] <+: u ++ x :: rest := ⟨rest, by simp⟩
    have hux : u ++ [x] <+: k.key := by
      refine List.prefix_of_prefix_length_le hpre h ?_
      rw [List.length_append, List.length_singleton]
      omega
    exact absurd (hux.subset (by simp)) (notMem_key k x hx)

/-! ## Where the scan goes -/

/-- The scan comes to its end with `r`. -/
def Yields (s r : DigestScan) : Prop := ∃ n, digestLoop n s = some r

/-- The scan comes to its end from `s` as it does from `s'`. -/
def GoesOn (s s' : DigestScan) : Prop := ∀ r, Yields s r ↔ Yields s' r

theorem GoesOn.trans {s s' s'' : DigestScan} (h : GoesOn s s') (h' : GoesOn s' s'') :
    GoesOn s s'' := fun r => (h r).trans (h' r)

theorem goesOn_of_loop (h : ∀ n, digestLoop (n + 1) s = digestLoop n s') : GoesOn s s' := by
  intro r
  constructor
  · rintro ⟨_ | n, hn⟩
    · cases hn
    · exact ⟨n, (h n).symm.trans hn⟩
  · rintro ⟨n, hn⟩
    exact ⟨n + 1, (h n).trans hn⟩

theorem digestLoop_mono : ∀ {n : ℕ}, digestLoop n s = some r →
    digestLoop (n + 1) s = some r := by
  intro n
  induction n generalizing s with
  | zero => exact fun h => by cases h
  | succ n ih =>
    intro h
    unfold digestLoop at h ⊢
    obtain ⟨x, hx, h⟩ := Option.bind_eq_some_iff.mp h
    rw [hx, Option.bind_eq_bind, Option.bind_some]
    split_ifs at h ⊢
    · exact h
    · obtain ⟨y, hy, h⟩ := Option.bind_eq_some_iff.mp h
      dsimp only
      rw [hy, Option.bind_some]
      split_ifs at h ⊢
      · exact h
      · exact ih h

theorem Yields.unique {r' : DigestScan} (h : Yields s r) (h' : Yields s r') : r = r' := by
  have hmono : ∀ {n r} k, digestLoop n s = some r → digestLoop (n + k) s = some r := by
    intro n r k h
    induction k with
    | zero => exact h
    | succ k ih => exact digestLoop_mono ih
  obtain ⟨n, hn⟩ := h
  obtain ⟨m, hm⟩ := h'
  have hr := hmono m hn
  rw [Nat.add_comm, hmono n hm] at hr
  exact (Option.some.inj hr).symm

/-- The scan is at `rest`, with `pre` behind it. -/
structure At (s : DigestScan) (pre rest : Bytes) : Prop where
  b : s.b = pre ++ rest ++ [0]
  c : s.c = pre.length
  notMem : (0 : UInt8) ∉ rest

section At

variable {s : DigestScan} {pre rest u : Bytes} {x : UInt8}

theorem At.drop (h : At s pre rest) : s.b.drop s.c = rest ++ [0] := by
  rw [h.b, h.c, List.append_assoc, List.drop_left]

theorem At.byte (h : At s pre (x :: rest)) : s.b[s.c]? = some x := by
  rw [← Nat.add_zero s.c, ← List.getElem?_drop, h.drop]
  rfl

theorem At.ne_zero (h : At s pre (x :: rest)) : x ≠ 0 := fun h0 =>
  h.notMem (h0 ▸ List.mem_cons_self)

theorem At.end (h : At s pre []) : Yields s s := by
  refine ⟨1, ?_⟩
  have hbyte : s.b[s.c]? = some 0 := by
    rw [← Nat.add_zero s.c, ← List.getElem?_drop, h.drop]
    rfl
  rw [digestLoop, hbyte]
  rfl

theorem At.next (h : At s pre (x :: rest)) : At s.next (pre ++ [x]) rest where
  b := by
    change s.b = _
    rw [h.b]
    simp
  c := by
    change s.c + 1 = _
    rw [h.c, List.length_append, List.length_singleton]
  notMem h0 := h.notMem (List.mem_cons_of_mem x h0)

theorem At.skipBlanks (h : At s pre (x :: rest)) (hx : digestBlank x = false) :
    s.skipBlanks = s := by
  unfold DigestScan.skipBlanks
  rw [h.drop, List.cons_append, List.takeWhile_cons_of_neg (by simp [hx])]
  rfl

theorem At.turn (h : At s pre (x :: rest)) (hx : digestBlank x = false) :
    GoesOn s (digestTurn s).next := by
  refine goesOn_of_loop fun n => ?_
  rw [digestLoop, h.byte, Option.bind_eq_bind, Option.bind_some, if_neg h.ne_zero]
  dsimp only
  rw [h.skipBlanks hx, h.byte, Option.bind_some, if_neg h.ne_zero]

theorem At.blank (h : At s pre (x :: rest)) (hx : digestBlank x = true) : GoesOn s s.next := by
  have hskip : s.skipBlanks = s.next.skipBlanks := by
    unfold DigestScan.skipBlanks
    rw [h.drop, List.cons_append, List.takeWhile_cons_of_pos hx, h.next.drop]
    simp only [DigestScan.next, List.length_cons, DigestScan.mk.injEq, true_and, and_true]
    omega
  have hloop : ∀ n, digestLoop (n + 1) s = digestLoop (n + 1) s.next := by
    intro n
    rw [digestLoop, h.byte, Option.bind_eq_bind, Option.bind_some, if_neg h.ne_zero, digestLoop,
      ← hskip]
    cases rest with
    | nil =>
      have hend : s.next.b[s.next.c]? = some 0 := by
        rw [← Nat.add_zero s.next.c, ← List.getElem?_drop, h.next.drop]
        rfl
      have hself : s.skipBlanks = s.next := by
        rw [hskip, DigestScan.skipBlanks, h.next.drop]
        rfl
      dsimp only
      rw [hself, hend]
      rfl
    | cons y rest =>
      rw [h.next.byte, Option.bind_eq_bind, Option.bind_some, if_neg h.next.ne_zero]
  intro r
  constructor
  · rintro ⟨_ | n, hn⟩
    · cases hn
    · exact ⟨n + 1, (hloop n).symm.trans hn⟩
  · rintro ⟨_ | n, hn⟩
    · cases hn
    · exact ⟨n + 1, (hloop n).trans hn⟩

theorem At.keyAt (h : At s pre rest) : digestKeyAt (s.b.drop s.c) = some k ↔ k.key <+: rest := by
  rw [h.drop, digestKeyAt_eq_some_iff]
  constructor
  · exact key_prefix_of_append (by simp)
  · exact fun hk => hk.trans (List.prefix_append rest [0])

theorem At.pass (h : At s pre (x :: rest)) (hkey : ∀ k : DigestKey, ¬ k.key <+: x :: rest) :
    GoesOn s s.next := by
  cases hx : digestBlank x with
  | true => exact h.blank hx
  | false =>
    have hturn := h.turn hx
    have hnone : digestKeyAt (s.b.drop s.c) = none :=
      Option.eq_none_iff_forall_ne_some.mpr fun k hk => hkey k (h.keyAt.mp hk)
    rwa [digestTurn, hnone] at hturn

theorem At.pass_append (h : At s pre (u ++ rest))
    (hkey : ∀ a b, u = a ++ b → b ≠ [] → ∀ k : DigestKey, ¬ k.key <+: b ++ rest) :
    ∃ s', GoesOn s s' ∧ At s' (pre ++ u) rest ∧ s'.ptrs = s.ptrs := by
  induction u generalizing s pre with
  | nil => exact ⟨s, fun r => Iff.rfl, by simpa using h, rfl⟩
  | cons x u ih =>
    have hnext : At s.next (pre ++ [x]) (u ++ rest) := h.next
    obtain ⟨s', hs', hat, hptrs⟩ := ih hnext fun a b hab hb =>
      hkey (x :: a) b (by rw [hab]; rfl) hb
    refine ⟨s', (h.pass (hkey [] (x :: u) rfl (by simp))).trans hs', ?_, hptrs⟩
    rwa [List.append_assoc] at hat

end At

section Take

variable {s : DigestScan} {k : DigestKey} {pre rest v w : Bytes} {x : UInt8}

theorem At.turn_key (h : At s pre (k.key ++ rest)) : GoesOn s (takeValue k s).next := by
  have hkey : digestKeyAt (s.b.drop s.c) = some k := h.keyAt.mpr (List.prefix_append _ _)
  obtain ⟨x, key, hx⟩ : ∃ x key, k.key = x :: key := by
    cases k <;> exact ⟨_, _, rfl⟩
  have hblank : digestBlank x = false := by
    have hmem : x ∈ k.key := by simp [hx]
    have hSP : x ≠ SP := fun heq => notMem_key k SP (by simp) (heq ▸ hmem)
    have hHT : x ≠ HT := fun heq => notMem_key k HT (by simp) (heq ▸ hmem)
    simp [digestBlank, hSP, hHT]
  rw [hx, List.cons_append] at h
  have hturn := h.turn hblank
  rwa [digestTurn, hkey] at hturn

theorem At.drop_key (h : At s pre (w ++ rest)) : s.b.drop (s.c + w.length) = rest ++ [0] := by
  rw [← List.drop_drop, h.drop, List.append_assoc, List.drop_left]

/-- The bytes up to the one that ends the value are passed over. -/
theorem At.set (h : At s pre (w ++ x :: rest)) {ptrs : List (DigestKey × ℕ)} :
    At (DigestScan.next ⟨s.b.set (s.c + w.length) 0, s.c + w.length, ptrs⟩) (pre ++ w ++ [0])
      rest where
  b := by
    change s.b.set _ 0 = _
    rw [h.b, h.c, ← List.length_append, ← List.append_assoc, List.append_assoc (pre ++ w),
      List.set_append_right _ _ (Nat.le_refl _), Nat.sub_self]
    simp
  c := by
    change s.c + w.length + 1 = _
    rw [h.c]
    simp [Nat.add_assoc]
  notMem h0 := h.notMem (List.mem_append_right w (List.mem_cons_of_mem x h0))

theorem At.take_quoted (h : At s pre (k.key ++ 34 :: (v ++ 34 :: rest))) (hv : (34 : UInt8) ∉ v) :
    ∃ s', GoesOn s s' ∧ At s' (pre ++ (k.key ++ 34 :: v) ++ [0]) rest ∧
      s'.ptrs = (k, pre.length + k.key.length + 1) :: s.ptrs := by
  have h0 : (0 : UInt8) ∉ v := fun hm => h.notMem (by simp [hm])
  have hquote : s.b[s.c + k.key.length]? = some 34 := by
    rw [← Nat.add_zero (s.c + k.key.length), ← List.getElem?_drop, h.drop_key]
    rfl
  have hw : k.key ++ 34 :: (v ++ 34 :: rest) = (k.key ++ [34]) ++ (v ++ 34 :: rest) := by simp
  have hend : strchr (s.b.drop (s.c + k.key.length + 1)) 34 = some v.length := by
    have hdrop := (hw ▸ h).drop_key
    rw [List.length_append, List.length_singleton, ← Nat.add_assoc] at hdrop
    rw [hdrop, List.append_assoc]
    exact strchr_append_cons hv h0 (by decide) _
  have htake : takeValue k s = ⟨s.b.set (s.c + (k.key ++ 34 :: v).length) 0,
      s.c + (k.key ++ 34 :: v).length, (k, s.c + k.key.length + 1) :: s.ptrs⟩ := by
    have hlen : s.c + (k.key ++ 34 :: v).length = s.c + k.key.length + 1 + v.length := by
      rw [List.length_append, List.length_cons]
      omega
    unfold takeValue
    dsimp only
    rw [if_pos hquote, hend, hlen]
  refine ⟨_, h.turn_key, ?_, ?_⟩
  · rw [htake]
    have hat : At s pre ((k.key ++ 34 :: v) ++ 34 :: rest) := by simpa using h
    exact hat.set
  · rw [htake, ← h.c]
    rfl

/-- Where a value that is no quote begins, `c` is at no quote. -/
theorem At.not_quoted (h : At s pre (k.key ++ (v ++ rest))) (hv : (34 : UInt8) ∉ v) (hne : v ≠ []) :
    s.b[s.c + k.key.length]? ≠ some 34 := by
  obtain ⟨x, v, rfl⟩ := List.exists_cons_of_ne_nil hne
  rw [← Nat.add_zero (s.c + k.key.length), ← List.getElem?_drop, h.drop_key]
  intro hx
  have hx' : x = 34 := Option.some.inj hx
  exact hv (hx' ▸ List.mem_cons_self)

theorem At.take_token (h : At s pre (k.key ++ (v ++ 44 :: rest))) (hv : (34 : UInt8) ∉ v)
    (hcomma : (44 : UInt8) ∉ v) (hne : v ≠ []) :
    ∃ s', GoesOn s s' ∧ At s' (pre ++ (k.key ++ v) ++ [0]) rest ∧
      s'.ptrs = (k, pre.length + k.key.length) :: s.ptrs := by
  have h0 : (0 : UInt8) ∉ v := fun hm => h.notMem (by simp [hm])
  have hend : strchr (s.b.drop (s.c + k.key.length)) 44 = some v.length := by
    rw [h.drop_key, List.append_assoc]
    exact strchr_append_cons hcomma h0 (by decide) _
  have htake : takeValue k s = ⟨s.b.set (s.c + (k.key ++ v).length) 0,
      s.c + (k.key ++ v).length, (k, s.c + k.key.length) :: s.ptrs⟩ := by
    rw [List.length_append, ← Nat.add_assoc]
    unfold takeValue
    dsimp only
    rw [if_neg (h.not_quoted hv hne), hend]
  refine ⟨_, h.turn_key, ?_, ?_⟩
  · rw [htake]
    have hat : At s pre ((k.key ++ v) ++ 44 :: rest) := by simpa using h
    exact hat.set
  · rw [htake, ← h.c]
    rfl

theorem At.take_last (h : At s pre (k.key ++ v)) (hv : (34 : UInt8) ∉ v) (hcomma : (44 : UInt8) ∉ v)
    (hne : v ≠ []) : ∃ s', GoesOn s s' ∧ At s' (pre ++ (k.key ++ v)) [] ∧
      s'.ptrs = (k, pre.length + k.key.length) :: s.ptrs := by
  have hquote : s.b[s.c + k.key.length]? ≠ some 34 := by
    have hat : At s pre (k.key ++ (v ++ [])) := by rwa [List.append_nil]
    exact hat.not_quoted hv hne
  have hnone : strchr (s.b.drop (s.c + k.key.length)) 44 = none := by
    rw [h.drop_key]
    exact strchr_of_notMem (by simp [hcomma])
  have hlen : (cstr (s.b.drop s.c)).length = (k.key ++ v).length := by
    rw [h.drop, cstr_append_of_notMem h.notMem]
    simp [cstr]
  have hpos : 0 < v.length := List.length_pos_of_ne_nil hne
  have htake : takeValue k s = ⟨s.b, s.c + (k.key ++ v).length - 1,
      (k, s.c + k.key.length) :: s.ptrs⟩ := by
    unfold takeValue
    dsimp only
    rw [if_neg hquote, hnone, hlen]
  refine ⟨_, h.turn_key, ?_, ?_⟩
  · rw [htake]
    refine ⟨?_, ?_, List.not_mem_nil⟩
    · change s.b = _
      rw [h.b, List.append_nil, List.append_assoc pre]
    · change s.c + (k.key ++ v).length - 1 + 1 = _
      rw [h.c]
      simp only [List.length_append]
      omega
  · rw [htake, ← h.c]
    rfl

end Take

/-! ## Reading a parameter -/

namespace AuthParam

variable {p : AuthParam} {k k' : DigestKey}

theorem Is.unique (h : p.Is k) (h' : p.Is k') : k = k' :=
  key_unique (List.prefix_refl k.key) (h'.symm.trans h ▸ List.prefix_refl k'.key)

theorem notMem_value (h : p.quoted = false) :
    p.value ≠ [] ∧ (34 : UInt8) ∉ p.value ∧ (44 : UInt8) ∉ p.value := by
  have hvalue := p.value_ok
  rw [IsAuthValue, h, if_neg Bool.false_ne_true] at hvalue
  exact ⟨hvalue.1, fun hm => hvalue.2 34 hm (by simp), fun hm => hvalue.2 44 hm (by simp)⟩

theorem notMem_value_of_quoted (h : p.quoted = true) : (34 : UInt8) ∉ p.value := by
  have hvalue := p.value_ok
  rw [IsAuthValue, if_pos h] at hvalue
  exact hvalue.2

theorem zero_notMem_value (p : AuthParam) : (0 : UInt8) ∉ p.value := by
  have hvalue := p.value_ok
  unfold IsAuthValue at hvalue
  split_ifs at hvalue
  · exact hvalue.1
  · exact fun hm => hvalue.2 0 hm (by simp)

theorem zero_notMem_text (p : AuthParam) : (0 : UInt8) ∉ p.text := by
  have hblank : (0 : UInt8) ∉ p.blanks := fun hm => absurd (p.all_blank 0 hm) (by decide)
  have hname : (0 : UInt8) ∉ p.name := fun hm => p.name_token.2 0 hm (by simp)
  have hvalue := p.zero_notMem_value
  unfold text written
  split_ifs <;> simp [hblank, hname, hvalue]

theorem written_of_is (h : p.Is k) : p.written =
    k.key ++ if p.quoted = true then 34 :: (p.value ++ [34]) else p.value := by
  rw [written, ← h]
  simp

theorem start_of_is (h : p.Is k) : p.start =
    p.blanks.length + k.key.length + if p.quoted = true then 1 else 0 := by
  rw [start, ← h, List.length_append, List.length_singleton]
  split_ifs <;> omega

theorem length_text (p : AuthParam) :
    p.text.length = p.start + p.value.length + if p.quoted = true then 1 else 0 := by
  unfold start text written
  split_ifs <;> simp only [List.length_append, List.length_cons, List.length_nil] <;> omega

end AuthParam

section Params

variable {s : DigestScan} {p : AuthParam} {pre rest : Bytes}

theorem At.blanks (h : At s pre (p.text ++ rest)) : ∃ s', GoesOn s s' ∧
    At s' (pre ++ p.blanks) (p.written ++ rest) ∧ s'.ptrs = s.ptrs := by
  rw [AuthParam.text, List.append_assoc] at h
  refine h.pass_append fun a b hab hb k hk => ?_
  obtain ⟨x, b, rfl⟩ := List.exists_cons_of_ne_nil hb
  obtain ⟨y, key, hy⟩ : ∃ y key, k.key = y :: key := by
    cases k <;> exact ⟨_, _, rfl⟩
  rw [hy, List.cons_append, List.cons_prefix_cons] at hk
  have hblank := p.all_blank x (by simp [hab])
  rcases (by simpa [digestBlank] using hblank : x = SP ∨ x = HT) with rfl | rfl
  · exact notMem_key k SP (by simp) (by simp [hy, hk.1])
  · exact notMem_key k HT (by simp) (by simp [hy, hk.1])

/-- A parameter without a key in its text is passed over, with what no key begins at behind it. -/
theorem At.pass_written (hp : ∀ k : DigestKey, ¬ k.key <:+: p.written)
    (h : At s pre (p.written ++ rest)) (hrest : ∀ x ∈ rest.head?, x = 44) :
    ∃ s', GoesOn s s' ∧ At s' (pre ++ p.written) rest ∧ s'.ptrs = s.ptrs := by
  refine h.pass_append fun a b hab hb k hk => hp k ?_
  have hkb : k.key <+: b := by
    cases rest with
    | nil => rwa [List.append_nil] at hk
    | cons x rest =>
      rw [hrest x rfl] at hk
      exact key_prefix_of_append (by simp) hk
  obtain ⟨c, rfl⟩ := hkb
  exact ⟨a, c, by rw [hab, List.append_assoc]⟩

theorem At.comma (h : At s pre (44 :: rest)) : GoesOn s s.next := by
  refine h.pass fun k hk => ?_
  obtain ⟨y, key, hy⟩ : ∃ y key, k.key = y :: key := by
    cases k <;> exact ⟨_, _, rfl⟩
  rw [hy, List.cons_prefix_cons] at hk
  exact notMem_key k 44 (by simp) (by simp [hy, hk.1])

/-- The value of a parameter with the name of a key is taken. -/
theorem At.take (hk : p.Is k) (h : At s (pre ++ p.blanks) (p.written ++ rest))
    (hrest : ∀ x ∈ rest.head?, x = 44) : ∃ s' mid z rest', GoesOn s s' ∧
      At s' (mid ++ (p.value ++ z)) rest' ∧ pre <+: mid ∧ mid.length = pre.length + p.start ∧
      s'.ptrs = (k, pre.length + p.start) :: s.ptrs ∧
      (z = [0] ∧ p.quoted = true ∧ rest' = rest ∨
        z = [0] ∧ p.quoted = false ∧ rest = 44 :: rest' ∨
        z = [] ∧ p.quoted = false ∧ rest = [] ∧ rest' = []) := by
  have hstart := AuthParam.start_of_is hk
  rw [AuthParam.written_of_is hk] at h
  cases hq : p.quoted with
  | true =>
    rw [hq, if_pos rfl] at h hstart
    have htext : At s (pre ++ p.blanks) (k.key ++ 34 :: (p.value ++ 34 :: rest)) := by
      simpa using h
    obtain ⟨s', hs', hat, hptrs⟩ := htext.take_quoted (AuthParam.notMem_value_of_quoted hq)
    refine ⟨s', pre ++ p.blanks ++ k.key ++ [34], [0], rest, hs', by simpa using hat, ?_, ?_, ?_,
      .inl ⟨rfl, rfl, rfl⟩⟩
    · simp only [List.append_assoc]
      exact List.prefix_append _ _
    · simp only [hstart, List.length_append, List.length_singleton]
      omega
    · simp only [hptrs, hstart, List.length_append, Nat.add_assoc]
  | false =>
    rw [hq, if_neg Bool.false_ne_true] at h hstart
    obtain ⟨hne, hquote, hcomma⟩ := AuthParam.notMem_value hq
    have hpre : pre <+: pre ++ p.blanks ++ k.key := by
      rw [List.append_assoc]
      exact List.prefix_append _ _
    have hlen : (pre ++ p.blanks ++ k.key).length = pre.length + p.start := by
      simp only [hstart, List.length_append]
      omega
    have hplace : (pre ++ p.blanks).length + k.key.length = pre.length + p.start := by
      rw [← hlen]
      simp only [List.length_append]
    cases rest with
    | nil =>
      rw [List.append_nil] at h
      obtain ⟨s', hs', hat, hptrs⟩ := h.take_last hquote hcomma hne
      exact ⟨s', _, [], [], hs', by simpa using hat, hpre, hlen, by rw [hptrs, hplace],
        .inr (.inr ⟨rfl, rfl, rfl, rfl⟩)⟩
    | cons x rest =>
      rw [hrest x rfl, List.append_assoc] at h
      rw [hrest x rfl]
      obtain ⟨s', hs', hat, hptrs⟩ := h.take_token hquote hcomma hne
      exact ⟨s', _, [0], rest, hs', by simpa using hat, hpre, hlen, by rw [hptrs, hplace],
        .inr (.inl ⟨rfl, rfl, rfl⟩)⟩

/-- The scan has read a parameter. -/
structure ReadsParam (p : AuthParam) (s s' : DigestScan) (pre pre' : Bytes) : Prop where
  goesOn : GoesOn s s'
  keeps : pre <+: pre'
  known : ∀ k, p.Is k → s'.ptrs = (k, pre.length + p.start) :: s.ptrs
  unknown : (∀ k, ¬ p.Is k) → s'.ptrs = s.ptrs

theorem readsParam_comma (hp : p.HidesNoKey) (h : At s pre (p.text ++ 44 :: rest)) :
    ∃ s' pre', At s' pre' rest ∧ ReadsParam p s s' pre pre' ∧
      pre'.length = pre.length + p.text.length + 1 ∧
      ∀ k, p.Is k → p.value ++ [0] <+: pre'.drop (pre.length + p.start) := by
  obtain ⟨s₁, hs₁, hat₁, hptrs₁⟩ := h.blanks
  have hlen := p.length_text
  by_cases hknown : ∃ k, p.Is k
  · obtain ⟨k, hk⟩ := hknown
    obtain ⟨s₂, mid, z, rest', hs₂, hat₂, hmid, hstart, hptrs₂, hz⟩ := hat₁.take hk (by simp)
    have hptrs : ∀ k', p.Is k' → s₂.ptrs = (k', pre.length + p.start) :: s.ptrs := by
      intro k' hk'
      rw [hptrs₂, hptrs₁, hk'.unique hk]
    have hpre : pre <+: mid ++ (p.value ++ z) := hmid.trans (List.prefix_append _ _)
    rcases hz with ⟨rfl, hq, rfl⟩ | ⟨rfl, hq, hrest⟩ | ⟨-, -, hrest, -⟩
    · -- the comma is behind the quote
      refine ⟨s₂.next, _, hat₂.next, ⟨(hs₁.trans hs₂).trans hat₂.comma,
        hpre.trans (List.prefix_append _ _), hptrs, fun hnone => absurd hk (hnone k)⟩, ?_, ?_⟩
      · rw [hlen, hq, if_pos rfl]
        simp only [List.length_append, List.length_singleton, hstart]
        omega
      · intro _ _
        rw [← hstart, List.append_assoc, List.drop_left]
        exact List.prefix_append _ _
    · -- the NUL is in place of the comma
      obtain rfl := (List.cons.inj hrest).2
      refine ⟨s₂, _, hat₂, ⟨hs₁.trans hs₂, hpre, hptrs, fun hnone => absurd hk (hnone k)⟩, ?_, ?_⟩
      · rw [hlen, hq, if_neg Bool.false_ne_true]
        simp only [List.length_append, List.length_singleton, hstart]
        omega
      · intro _ _
        rw [← hstart, List.drop_left]
    · cases hrest
  · have hnone : ∀ k, ¬ p.Is k := fun k hk => hknown ⟨k, hk⟩
    obtain ⟨s₂, hs₂, hat₂, hptrs₂⟩ := hat₁.pass_written (hp hnone) (by simp)
    refine ⟨s₂.next, _, hat₂.next, ⟨(hs₁.trans hs₂).trans hat₂.comma, ?_,
      fun k hk => absurd hk (hnone k), fun _ => hptrs₂.trans hptrs₁⟩, ?_,
      fun k hk => absurd hk (hnone k)⟩
    · simp only [List.append_assoc]
      exact List.prefix_append _ _
    · simp only [AuthParam.text, List.length_append, List.length_singleton]
      omega

theorem readsParam_last (hp : p.HidesNoKey) (h : At s pre p.text) :
    ∃ s' pre', At s' pre' [] ∧ ReadsParam p s s' pre pre' ∧
      ∀ k, p.Is k → p.value ++ [0] <+: (pre' ++ [0]).drop (pre.length + p.start) := by
  rw [← List.append_nil p.text] at h
  obtain ⟨s₁, hs₁, hat₁, hptrs₁⟩ := h.blanks
  by_cases hknown : ∃ k, p.Is k
  · obtain ⟨k, hk⟩ := hknown
    obtain ⟨s₂, mid, z, rest', hs₂, hat₂, hmid, hstart, hptrs₂, hz⟩ := hat₁.take hk (by simp)
    have hptrs : ∀ k', p.Is k' → s₂.ptrs = (k', pre.length + p.start) :: s.ptrs := by
      intro k' hk'
      rw [hptrs₂, hptrs₁, hk'.unique hk]
    have hpre : pre <+: mid ++ (p.value ++ z) := hmid.trans (List.prefix_append _ _)
    have hrest : rest' = [] := by
      rcases hz with ⟨-, -, rfl⟩ | ⟨-, -, hcons⟩ | ⟨-, -, -, rfl⟩
      · rfl
      · cases hcons
      · rfl
    subst hrest
    refine ⟨s₂, _, hat₂, ⟨hs₁.trans hs₂, hpre, hptrs, fun hnone => absurd hk (hnone k)⟩, ?_⟩
    intro _ _
    rw [← hstart, List.append_assoc, List.drop_left, List.append_assoc,
      List.prefix_append_right_inj]
    rcases hz with ⟨rfl, -⟩ | ⟨rfl, -⟩ | ⟨rfl, -⟩ <;> simp
  · have hnone : ∀ k, ¬ p.Is k := fun k hk => hknown ⟨k, hk⟩
    obtain ⟨s₂, hs₂, hat₂, hptrs₂⟩ := hat₁.pass_written (hp hnone) (by simp)
    refine ⟨s₂, _, hat₂, ⟨hs₁.trans hs₂, ?_, fun k hk => absurd hk (hnone k),
      fun _ => hptrs₂.trans hptrs₁⟩, fun k hk => absurd hk (hnone k)⟩
    rw [List.append_assoc]
    exact List.prefix_append _ _

end Params

/-! ## Reading all parameters -/

section Lists

variable {s : DigestScan} {pre : Bytes}

theorem AuthParam.Placed.le : ∀ {ps : List AuthParam} {o : ℕ},
    p.Placed i o ps → o ≤ i
  | [], _, h => h.elim
  | _ :: _, o, .inl h => h.2 ▸ Nat.le_add_right o _
  | _ :: _, _, .inr h => by
    have := AuthParam.Placed.le h
    omega

theorem AuthParam.Placed.mem : ∀ {ps : List AuthParam} {o : ℕ},
    p.Placed i o ps → p ∈ ps
  | [], _, h => h.elim
  | _ :: _, _, .inl h => h.1 ▸ List.mem_cons_self
  | _ :: _, _, .inr h => List.mem_cons_of_mem _ (AuthParam.Placed.mem h)

theorem AuthParam.exists_placed : ∀ {ps : List AuthParam} (o : ℕ),
    p ∈ ps → ∃ i, p.Placed i o ps
  | _ :: _, o, h => by
    rcases List.mem_cons.mp h with rfl | h
    · exact ⟨_, .inl ⟨rfl, rfl⟩⟩
    · obtain ⟨i, hi⟩ := AuthParam.exists_placed _ h
      exact ⟨i, .inr hi⟩

/-- The scan has read the parameters of the list. -/
structure ReadsParams (ps : List AuthParam) (s s' : DigestScan) (pre pre' : Bytes) : Prop where
  goesOn : GoesOn s s'
  keeps : pre <+: pre'
  ptrs : ∃ l, s'.ptrs = l ++ s.ptrs ∧
    ∀ k i, (k, i) ∈ l ↔ ∃ p : AuthParam, p.Is k ∧ p.Placed i pre.length ps
  value : ∀ (p : AuthParam) k i, p.Is k → p.Placed i pre.length ps →
    p.value ++ [0] <+: (pre' ++ [0]).drop i

theorem ReadsParam.ptrs {pre' : Bytes} (h : ReadsParam p s s' pre pre') :
    ∃ l, s'.ptrs = l ++ s.ptrs ∧
      ∀ k i, (k, i) ∈ l ↔ p.Is k ∧ i = pre.length + p.start := by
  by_cases hknown : ∃ k, p.Is k
  · obtain ⟨k, hk⟩ := hknown
    refine ⟨[(k, pre.length + p.start)], h.known k hk, fun k' i => ?_⟩
    rw [List.mem_singleton, Prod.mk.injEq]
    exact and_congr_left fun _ => ⟨fun heq => heq ▸ hk, fun hk' => hk'.unique hk⟩
  · have hnone : ∀ k, ¬ p.Is k := fun k hk => hknown ⟨k, hk⟩
    exact ⟨[], h.unknown hnone, fun k i => by simp [hnone k]⟩

theorem reads_all : ∀ (ps : List AuthParam) {s : DigestScan} {pre : Bytes},
    (∀ p ∈ ps, p.HidesNoKey) → At s pre (authText ps) →
    ∃ s' pre', At s' pre' [] ∧ ReadsParams ps s s' pre pre'
  | [], s, pre, _, h => ⟨s, pre, h, fun _ => Iff.rfl, List.prefix_refl pre,
      ⟨[], rfl, fun k i => by simp [AuthParam.Placed]⟩, fun _ _ _ _ hp => hp.elim⟩
  | [p], s, pre, hps, h => by
    obtain ⟨s', pre', hat, hreads, hvalue⟩ := readsParam_last (hps p (by simp)) h
    obtain ⟨l, hl, hmem⟩ := hreads.ptrs
    refine ⟨s', pre', hat, hreads.goesOn, hreads.keeps, ⟨l, hl, fun k i => ?_⟩, ?_⟩
    · simp [hmem, AuthParam.Placed]
    · rintro q k i hk (⟨rfl, rfl⟩ | hq)
      · exact hvalue k hk
      · exact hq.elim
  | p :: q :: ps, s, pre, hps, h => by
    obtain ⟨s₁, pre₁, hat₁, hreads₁, hlen, hvalue₁⟩ := readsParam_comma (hps p (by simp)) h
    obtain ⟨s', pre', hat, hreads⟩ := reads_all (q :: ps)
      (fun r hr => hps r (List.mem_cons_of_mem p hr)) hat₁
    obtain ⟨l₁, hl₁, hmem₁⟩ := hreads₁.ptrs
    obtain ⟨l, hl, hmem⟩ := hreads.ptrs
    refine ⟨s', pre', hat, hreads₁.goesOn.trans hreads.goesOn, hreads₁.keeps.trans hreads.keeps,
      ⟨l ++ l₁, by rw [hl, hl₁, List.append_assoc], fun k i => ?_⟩, ?_⟩
    · rw [List.mem_append, hmem, hmem₁, hlen]
      constructor
      · rintro (⟨r, hk, hr⟩ | ⟨hk, rfl⟩)
        · exact ⟨r, hk, .inr hr⟩
        · exact ⟨p, hk, .inl ⟨rfl, rfl⟩⟩
      · rintro ⟨r, hk, ⟨rfl, rfl⟩ | hr⟩
        · exact .inr ⟨hk, rfl⟩
        · exact .inl ⟨r, hk, hr⟩
    · rintro r k i hk (⟨rfl, rfl⟩ | hr)
      · -- what has been read stays
        obtain ⟨z, hz⟩ := hreads.keeps
        refine (hvalue₁ k hk).trans ?_
        rw [← hz, List.append_assoc, List.drop_append]
        exact List.prefix_append _ _
      · exact hreads.value r k i hk (hlen ▸ hr)

theorem takeValue_ptrs (k : DigestKey) (s : DigestScan) :
    ∃ d ≤ 1, (takeValue k s).ptrs = (k, s.c + k.key.length + d) :: s.ptrs := by
  unfold takeValue
  dsimp only
  split
  · exact ⟨1, Nat.le_refl _, rfl⟩
  · split
    · exact ⟨0, Nat.zero_le _, rfl⟩
    · exact ⟨0, Nat.zero_le _, rfl⟩

theorem digestTurn_ptrs (s : DigestScan) : s.ptrs <:+ (digestTurn s).ptrs := by
  unfold digestTurn
  split
  · exact List.suffix_refl _
  · next k _ =>
    obtain ⟨d, -, hd⟩ := takeValue_ptrs k s
    rw [hd]
    exact List.suffix_cons _ _

theorem digestLoop_ptrs : ∀ {n : ℕ} {s : DigestScan},
    digestLoop n s = some r → s.ptrs <:+ r.ptrs := by
  intro n
  induction n with
  | zero => exact fun h => by cases h
  | succ n ih =>
    intro s h
    unfold digestLoop at h
    obtain ⟨x, -, h⟩ := Option.bind_eq_some_iff.mp h
    split_ifs at h
    · rw [← Option.some.inj h]
    · obtain ⟨y, -, h⟩ := Option.bind_eq_some_iff.mp h
      split_ifs at h
      · rw [← Option.some.inj h]
        exact List.suffix_refl _
      · have hrest : (digestTurn s.skipBlanks).next.ptrs <:+ r.ptrs := ih h
        exact (digestTurn_ptrs s.skipBlanks).trans hrest

theorem At.takes_key {rest : Bytes} (hrest : ∀ x ∈ rest.head?, x = 44) : ∀ {u : Bytes}
    {s : DigestScan} {pre : Bytes}, At s pre (u ++ rest) → (∃ k : DigestKey, k.key <:+: u) →
    (∀ k : DigestKey, ¬ k.key <:+ u) →
    ∃ s' k i, GoesOn s s' ∧ (k, i) ∈ s'.ptrs ∧ pre.length ≤ i ∧ i ≤ pre.length + u.length := by
  intro u
  induction u with
  | nil =>
    rintro s pre h ⟨k, hk⟩ hsuffix
    exact absurd (List.infix_nil.mp hk ▸ List.suffix_refl k.key) (hsuffix k)
  | cons x u ih =>
    rintro s pre h ⟨k, hk⟩ hsuffix
    by_cases hkey : ∃ k : DigestKey, k.key <+: x :: u ++ rest
    · obtain ⟨k, hk⟩ := hkey
      obtain ⟨z, hz⟩ := hk
      have hturn := (hz.symm ▸ h : At s pre (k.key ++ z)).turn_key
      obtain ⟨d, hd, hptrs⟩ := takeValue_ptrs k s
      have hku : k.key <+: x :: u := by
        cases rest with
        | nil => exact ⟨z, by simpa using hz⟩
        | cons y rest =>
          rw [hrest y rfl] at hz
          exact key_prefix_of_append (by simp) ⟨z, hz⟩
      have hlt : k.key.length < (x :: u).length := by
        refine lt_of_le_of_ne hku.length_le fun heq => hsuffix k ?_
        rw [hku.eq_of_length heq]
      refine ⟨_, k, s.c + k.key.length + d, hturn, ?_, ?_, ?_⟩
      · change _ ∈ (takeValue k s).ptrs
        rw [hptrs]
        exact List.mem_cons_self
      · rw [h.c]
        omega
      · rw [h.c]
        omega
    · have hnone : ∀ k : DigestKey, ¬ k.key <+: x :: (u ++ rest) := fun k hk => hkey ⟨k, hk⟩
      have hku : k.key <:+: u := by
        rcases List.infix_cons_iff.mp hk with hpre | hin
        · exact absurd (hpre.trans (List.prefix_append (x :: u) rest)) (hnone k)
        · exact hin
      have hnext : At s.next (pre ++ [x]) (u ++ rest) := h.next
      obtain ⟨s', k', i, hs', hmem, hle, hle'⟩ := ih hnext ⟨k, hku⟩ fun k hk =>
        hsuffix k (hk.trans (List.suffix_cons x u))
      rw [List.length_append, List.length_singleton] at hle hle'
      exact ⟨s', k', i, (h.pass hnone).trans hs', hmem, by omega, by
        rw [List.length_cons]
        omega⟩

end Lists

section Ends

variable {s : DigestScan}

/-- The scan is in a buffer of `n` bytes and a NUL. -/
structure InBuffer (n : ℕ) (s : DigestScan) : Prop where
  b : ∃ u : Bytes, s.b = u ++ [0] ∧ u.length = n
  c : s.c ≤ n

theorem strchr_lt_of_append_zero {u : Bytes} {c : UInt8} {e : ℕ} (hc : c ≠ 0)
    (h : strchr ((u ++ [0]).drop i) c = some e) : i + e < u.length := by
  obtain ⟨v, w, hdrop, rfl, -, -⟩ := strchr_eq_some h
  have hlen : i + v.length + 1 + w.length = u.length + 1 := by
    have hlt : i < (u ++ [0]).length := by
      by_contra hge
      rw [List.drop_of_length_le (by omega)] at hdrop
      simp at hdrop
    have hd := congrArg List.length hdrop
    simp only [List.length_drop, List.length_append, List.length_cons, List.length_nil] at hd hlt
    omega
  have hw : w ≠ [] := by
    rintro rfl
    have hlast := congrArg List.getLast? hdrop
    rw [List.getLast?_drop, if_neg (by simp at hlen ⊢; omega)] at hlast
    simp at hlast
    exact hc hlast.symm
  have hpos := List.length_pos_of_ne_nil hw
  omega

theorem cstr_append_zero (w : Bytes) : cstr (w ++ [0]) = cstr w := by
  by_cases h : (0 : UInt8) ∈ w
  · exact cstr_append_of_mem h [0]
  · rw [cstr_append_of_notMem h, cstr_of_notMem h]
    simp [cstr]

variable {n : ℕ}

/-- A byte before the NUL, and what `c` points to. -/
theorem InBuffer.split (h : InBuffer n s) (hx : s.b[s.c]? = some x) (hx0 : x ≠ 0) :
    ∃ w : Bytes, s.b.drop s.c = x :: w ++ [0] ∧ s.c + w.length < n := by
  obtain ⟨⟨u, hu, rfl⟩, hc⟩ := h
  rw [← Nat.add_zero s.c, ← List.getElem?_drop, hu, List.drop_append_of_le_length hc] at hx
  cases hdrop : u.drop s.c with
  | nil =>
    rw [hdrop] at hx
    exact absurd (Option.some.inj hx).symm hx0
  | cons y w =>
    rw [hdrop] at hx
    obtain rfl : y = x := Option.some.inj hx
    have hlen := congrArg List.length hdrop
    rw [List.length_drop, List.length_cons] at hlen
    exact ⟨w, by rw [hu, List.drop_append_of_le_length hc, hdrop], by omega⟩

theorem takeValue_inBuffer (k : DigestKey) (h : InBuffer n s) (hx : s.b[s.c]? = some x)
    (hx0 : x ≠ 0) :
    InBuffer n (takeValue k s) ∧ (takeValue k s).c < n ∧ s.c ≤ (takeValue k s).c := by
  obtain ⟨w, hdrop, hlt⟩ := h.split hx hx0
  obtain ⟨⟨u, hu, rfl⟩, -⟩ := h
  have hset : ∀ {i : ℕ} {ptrs}, i < u.length → s.c ≤ i →
      InBuffer u.length ⟨s.b.set i 0, i, ptrs⟩ ∧ i < u.length ∧ s.c ≤ i := by
    intro i ptrs hi hle
    refine ⟨⟨⟨u.set i 0, ?_, List.length_set⟩, hi.le⟩, hi, hle⟩
    rw [hu, List.set_append_left _ _ hi]
  unfold takeValue
  dsimp only
  split
  · next e he =>
    split_ifs at he
    rw [hu] at he
    exact hset (strchr_lt_of_append_zero (by decide) he) (by omega)
  · split
    · next e he =>
      rw [hu] at he
      exact hset (strchr_lt_of_append_zero (by decide) he) (by omega)
    · -- the string at `c` is not empty
      have hlen : 0 < (cstr (s.b.drop s.c)).length ∧
          (cstr (s.b.drop s.c)).length ≤ w.length + 1 := by
        rw [hdrop, cstr_append_zero]
        constructor
        · simp [cstr, hx0]
        · exact (cstr_isPrefix (x :: w)).length_le
      exact ⟨⟨⟨u, hu, rfl⟩, by dsimp only; omega⟩, by dsimp only; omega, by dsimp only; omega⟩

theorem skipBlanks_inBuffer (h : InBuffer n s) :
    InBuffer n s.skipBlanks ∧ s.c ≤ s.skipBlanks.c := by
  obtain ⟨⟨u, hu, rfl⟩, hc⟩ := h
  refine ⟨⟨⟨u, hu, rfl⟩, ?_⟩, Nat.le_add_right _ _⟩
  have hlen : ((s.b.drop s.c).takeWhile digestBlank).length ≤ (u.drop s.c).length := by
    rw [hu, List.drop_append_of_le_length hc]
    by_contra hlt
    have hpre := List.takeWhile_prefix digestBlank (l := u.drop s.c ++ [0])
    have hall : (u.drop s.c ++ [0]).takeWhile digestBlank = u.drop s.c ++ [0] := by
      refine hpre.eq_of_length (Nat.le_antisymm hpre.length_le ?_)
      rw [List.length_append, List.length_singleton]
      omega
    have hzero : digestBlank 0 = true :=
      List.takeWhile_eq_self_iff.mp hall 0 (List.mem_append_right _ List.mem_cons_self)
    exact absurd hzero (by decide)
  rw [List.length_drop] at hlen
  change s.c + _ ≤ u.length
  omega

theorem digestLoop_inBuffer : ∀ {m : ℕ} {s : DigestScan}, InBuffer n s → n < s.c + m →
    ∃ r, digestLoop m s = some r ∧ InBuffer n r := by
  intro m
  induction m with
  | zero =>
    intro s h hm
    have hc := h.c
    omega
  | succ m ih =>
    intro s h hm
    have hbyte : ∀ {s}, InBuffer n s → ∃ x, s.b[s.c]? = some x := by
      intro s h
      obtain ⟨⟨u, hu, rfl⟩, hc⟩ := h
      have hlt : s.c < s.b.length := by
        rw [hu, List.length_append, List.length_singleton]
        exact Nat.lt_succ_of_le hc
      exact ⟨s.b[s.c], List.getElem?_eq_getElem hlt⟩
    obtain ⟨x, hx⟩ := hbyte h
    obtain ⟨hskip, hle⟩ := skipBlanks_inBuffer h
    obtain ⟨y, hy⟩ := hbyte hskip
    unfold digestLoop
    rw [hx, Option.bind_eq_bind, Option.bind_some]
    split_ifs with hx0
    · exact ⟨s, rfl, h⟩
    · dsimp only
      rw [hy, Option.bind_some]
      split_ifs with hy0
      · exact ⟨_, rfl, hskip⟩
      · -- the turn ends before the NUL
        have hturn : InBuffer n (digestTurn s.skipBlanks) ∧ (digestTurn s.skipBlanks).c < n ∧
            s.skipBlanks.c ≤ (digestTurn s.skipBlanks).c := by
          unfold digestTurn
          split
          · obtain ⟨w, -, hlt⟩ := hskip.split hy hy0
            exact ⟨hskip, by omega, Nat.le_refl _⟩
          · exact takeValue_inBuffer _ hskip hy hy0
        obtain ⟨hin, hlt, hge⟩ := hturn
        exact ih ⟨hin.b, hlt⟩ (by change n < (digestTurn s.skipBlanks).c + 1 + m; omega)

end Ends

theorem digestScan_ends (b : Bytes) : ∃ s, digestScan b = some s ∧ s.c ≤ b.length := by
  obtain ⟨s, hs, hin⟩ := digestLoop_inBuffer (n := b.length) (m := b.length + 1)
    (s := ⟨b ++ [0], 0, []⟩) ⟨⟨b, rfl, rfl⟩, Nat.zero_le _⟩ (by dsimp only; omega)
  exact ⟨s, hs, hin.c⟩

/-! ## Reading credentials as they are written -/

theorem zero_notMem_authText : ∀ ps : List AuthParam, (0 : UInt8) ∉ authText ps
  | [] => List.not_mem_nil
  | [p] => p.zero_notMem_text
  | p :: q :: ps => by
    have htail := zero_notMem_authText (q :: ps)
    have hhead := p.zero_notMem_text
    simp [authText, hhead, htail]

theorem at_start (ps : List AuthParam) :
    At ⟨authText ps ++ [0], 0, []⟩ [] (authText ps) :=
  ⟨rfl, rfl, zero_notMem_authText ps⟩

theorem digestCredentials_append (text : Bytes) :
    digestCredentials (str "Digest " ++ text) = some text := by
  have hlen : (str "Digest ").length = 7 := rfl
  rw [digestCredentials, ← hlen, List.take_left, List.drop_left, if_pos (CaseEq.refl _)]

/-- Of parameters with distinct names one at most has the name of a key. -/
theorem AuthParams.eq_of_is (ps : AuthParams) {q : AuthParam} (hp : p ∈ ps.params)
    (hq : q ∈ ps.params) (hpk : p.Is k) (hqk : q.Is k) : p = q :=
  List.inj_on_of_nodup_map ps.distinct hp hq
    (List.append_cancel_right (hpk.trans hqk.symm))

theorem AuthParams.value_of_is (ps : AuthParams) (hp : p ∈ ps.params) (hpk : p.Is k) :
    ps.value k = some p.value := by
  unfold AuthParams.value
  cases hfind : ps.params.find? fun p => decide (p.Is k) with
  | none => exact absurd (decide_eq_true hpk) (List.find?_eq_none.mp hfind p hp)
  | some q =>
    have hqk : q.Is k := of_decide_eq_true
      (List.find?_some (p := fun p : AuthParam => decide (p.Is k)) hfind)
    rw [ps.eq_of_is (List.mem_of_find?_eq_some hfind) hp hqk hpk]
    rfl

/-- The pointers have the values of the parameters that have been read. -/
theorem ReadsParams.value_eq {ps : AuthParams} {pre' : Bytes}
    (h : ReadsParams ps.params s s' [] pre') (hat : At s' pre' []) (hs : s.ptrs = [])
    (k : DigestKey) : s'.value k = ps.value k := by
  obtain ⟨l, hl, hmem⟩ := h.ptrs
  rw [hs, List.append_nil] at hl
  unfold DigestScan.value
  rw [hl]
  cases hlookup : l.lookup k with
  | none =>
    cases hvalue : ps.value k with
    | none => rfl
    | some v =>
      obtain ⟨p, hfind, -⟩ := Option.map_eq_some_iff.mp hvalue
      obtain ⟨i, hi⟩ := AuthParam.exists_placed 0 (List.mem_of_find?_eq_some hfind)
      have hpk : p.Is k := of_decide_eq_true
        (List.find?_some (p := fun p : AuthParam => decide (p.Is k)) hfind)
      have hin : (k, i) ∈ l := (hmem k i).mpr ⟨p, hpk, hi⟩
      exact absurd (List.lookup_eq_none_iff.mp hlookup (k, i) hin) (by simp)
  | some i =>
    have hin : (k, i) ∈ l := by
      obtain ⟨a, b, rfl, -⟩ := List.lookup_eq_some_iff.mp hlookup
      simp
    obtain ⟨p, hpk, hi⟩ := (hmem k i).mp hin
    obtain ⟨z, hz⟩ := h.value p k i hpk hi
    rw [ps.value_of_is hi.mem hpk, Option.map_some, hat.b, List.append_nil, ← hz,
      cstr_append_of_mem (by simp), cstr_append_zero, cstr_of_notMem p.zero_notMem_value]

theorem readsAsWritten_of_hidesNoKey {ps : AuthParams} (h : ∀ p ∈ ps.params, p.HidesNoKey) :
    ReadsAsWritten ps := by
  obtain ⟨s', pre', hat, hreads⟩ := reads_all ps.params h (at_start ps.params)
  obtain ⟨s, hs, hle⟩ := digestScan_ends (authText ps.params)
  obtain rfl : s' = s := ((hreads.goesOn s').mpr hat.end).unique ⟨_, hs⟩
  refine ⟨_, s', digestCredentials_append _, hs, hle, hreads.value_eq hat rfl, fun k i hk => ?_⟩
  obtain ⟨l, hl, hmem⟩ := hreads.ptrs
  rw [List.append_nil] at hl
  exact (hmem k i).mp (hl ▸ hk)

theorem AuthParam.not_key_suffix (p : AuthParam) (k : DigestKey) : ¬ k.key <:+ p.text := by
  intro h
  have hkey : k.key.getLast? = some 61 := by
    cases k <;> rfl
  have hlast : p.text.getLast? = some 61 := by
    obtain ⟨z, hz⟩ := h
    rw [← hz, List.getLast?_append, hkey]
    rfl
  unfold text written at hlast
  cases hq : p.quoted with
  | true =>
    rw [hq, if_pos rfl, ← List.cons_append, ← List.cons_append, ← List.append_assoc,
      ← List.append_assoc, List.getLast?_concat] at hlast
    exact absurd (Option.some.inj hlast) (by decide)
  | false =>
    have hvalue := p.value_ok
    rw [IsAuthValue, hq, if_neg Bool.false_ne_true] at hvalue
    obtain ⟨init, x, hx⟩ := (List.eq_nil_or_concat' p.value).resolve_left hvalue.1
    rw [hq, if_neg Bool.false_ne_true, hx, ← List.cons_append, ← List.append_assoc,
      ← List.append_assoc, List.getLast?_concat] at hlast
    exact hvalue.2 x (by simp [hx]) (by simp [Option.some.inj hlast])

theorem takes_hidden : ∀ (ps : List AuthParam) {s : DigestScan} {pre : Bytes},
    At s pre (authText ps) → (∃ p ∈ ps, ¬ p.HidesNoKey) →
    ∃ s' k i, GoesOn s s' ∧ (k, i) ∈ s'.ptrs ∧ pre.length ≤ i ∧
      ∀ q : AuthParam, q.Is k → ¬ q.Placed i pre.length ps
  | [], _, _, _, h => by
    obtain ⟨p, hp, -⟩ := h
    cases hp
  | p :: ps, s, pre, hat, h => by
    obtain ⟨rest, hrest, hcomma⟩ : ∃ rest, authText (p :: ps) = p.text ++ rest ∧
        ∀ x ∈ rest.head?, x = 44 := by
      cases ps with
      | nil => exact ⟨[], (List.append_nil _).symm, by simp⟩
      | cons q ps => exact ⟨44 :: authText (q :: ps), rfl, by simp⟩
    by_cases hp : p.HidesNoKey
    · cases ps with
      | nil =>
        obtain ⟨q, hq, hbad⟩ := h
        exact absurd hp (List.mem_singleton.mp hq ▸ hbad)
      | cons q ps =>
        obtain ⟨s₁, pre₁, hat₁, hreads, hlen, -⟩ := readsParam_comma hp hat
        have hbad : ∃ r ∈ q :: ps, ¬ r.HidesNoKey := by
          obtain ⟨r, hr, hbad⟩ := h
          rcases List.mem_cons.mp hr with rfl | hr
          · exact absurd hp hbad
          · exact ⟨r, hr, hbad⟩
        obtain ⟨s', k, i, hs', hmem, hle, hplace⟩ := takes_hidden (q :: ps) hat₁ hbad
        refine ⟨s', k, i, hreads.goesOn.trans hs', hmem, by omega, ?_⟩
        rintro r hk (⟨rfl, rfl⟩ | hr)
        · have := r.length_text
          omega
        · exact hplace r hk (hlen ▸ hr)
    · obtain ⟨hunknown, k, hk⟩ : (∀ k, ¬ p.Is k) ∧ ∃ k : DigestKey, k.key <:+: p.written := by
        unfold AuthParam.HidesNoKey at hp
        push Not at hp
        exact hp
      rw [hrest] at hat
      have htext : k.key <:+: p.text := hk.trans (List.suffix_append p.blanks p.written).isInfix
      obtain ⟨s', k', i, hs', hmem, hle, hle'⟩ := At.takes_key hcomma hat ⟨k, htext⟩
        p.not_key_suffix
      refine ⟨s', k', i, hs', hmem, hle, ?_⟩
      rintro q hqk (⟨rfl, -⟩ | hq)
      · exact hunknown k' hqk
      · have := hq.le
        omega

/-- Digest credentials are read as they are written exactly when no parameter that is not known has
a key in its text. -/
theorem readsAsWritten_iff (ps : AuthParams) :
    ReadsAsWritten ps ↔ ∀ p ∈ ps.params, p.HidesNoKey := by
  constructor
  · rintro ⟨b, s, hb, hs, -, -, hptrs⟩ p hp
    obtain rfl := Option.some.inj ((digestCredentials_append _).symm.trans hb)
    by_contra hbad
    obtain ⟨s', k, i, hs', hmem, -, hplace⟩ := takes_hidden ps.params (at_start ps.params)
      ⟨p, hp, hbad⟩
    obtain ⟨n, hn⟩ := (hs' s).mp ⟨_, hs⟩
    obtain ⟨q, hqk, hq⟩ := hptrs k i ((digestLoop_ptrs hn).mem hmem)
    exact hplace q hqk hq
  · exact readsAsWritten_of_hidesNoKey

/-- An unknown parameter `x="realm=a"` before the realm. -/
def hiddenRealm : AuthParams where
  params := [⟨[], str "realm", true, str "r", by decide +kernel, by decide +kernel,
      by decide +kernel⟩,
    ⟨[SP], str "x", true, str "realm=a", by decide +kernel, by decide +kernel,
      by decide +kernel⟩]
  distinct := by decide

/-- The realm is then what is in the quotes of the other parameter, with its last quote. -/
theorem not_readsAsWritten : ¬ ReadsAsWritten hiddenRealm := by
  rintro ⟨b, s, hb, hs, -, hvalue, -⟩
  obtain rfl := Option.some.inj ((digestCredentials_append _).symm.trans hb)
  have hscan : (digestScan (authText hiddenRealm.params)).map (fun s => s.value .realm) =
      some (some (str "a\"")) := by
    decide +kernel
  rw [hs, Option.map_some, hvalue .realm] at hscan
  exact absurd hscan (by decide +kernel)

end Lighttpd
