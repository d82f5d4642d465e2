import Lighttpd.ConfigCache

/-!
# Conditions on the host with and without a port

`$HTTP["host"] == "H:P"` is compared with the authority of the request, and where only one of the
two has a port, the port of the server is appended to the authority or its port is cut off. Whether
there is a port is decided by the first colon, which a bracketed address always has: there a port
that one side lacks is not made up for (`hostCondition_iff`).
-/

namespace Lighttpd

open CString

/-! ## Hosts with an optional port -/

/-- A host name, an IPv4 address or a bracketed IPv6 address. -/
inductive HostText
  | name (text : Bytes) (colon_notMem : 58 ∉ text) (nul_notMem : 0 ∉ text) (nonempty : text ≠ [])
    (bracket_notMem : 91 ∉ text)
  | bracketed (address : Bytes) (colon_mem : 58 ∈ address) (nul_notMem : 0 ∉ address)
    (bracket_notMem : 93 ∉ address)

namespace HostText

/-- The text of the host. -/
def bytes : HostText → Bytes
  | name text .. => text
  | bracketed address .. => 91 :: (address ++ [93])

/-- The host is a bracketed address. -/
def IsBracketed : HostText → Prop
  | name .. => False
  | bracketed .. => True

instance : DecidablePred IsBracketed
  | name .. => inferInstanceAs (Decidable False)
  | bracketed .. => inferInstanceAs (Decidable True)

/-- The colon and the port, if there is one. -/
def portText : Option Bytes → Bytes
  | none => []
  | some p => 58 :: p

/-- The host with its port. -/
def withPort (h : HostText) (p : Option Bytes) : Bytes := h.bytes ++ portText p

variable {p q : Option Bytes} {h : HostText}

theorem portText_inj : portText p = portText q ↔ p = q := by
  cases p <;> cases q <;> simp [portText]

theorem colon_notMem (hb : ¬ h.IsBracketed) : 58 ∉ h.bytes := by
  cases h with
  | name text hcolon => exact hcolon
  | bracketed => exact absurd trivial hb

theorem nul_notMem_bytes (h : HostText) : 0 ∉ h.bytes := by
  cases h with
  | name text _ hnul => exact hnul
  | bracketed address _ hnul => simp [bytes, hnul]

theorem bytes_ne_nil (h : HostText) : h.bytes ≠ [] := by
  cases h with
  | name text _ _ hne => exact hne
  | bracketed => simp [bytes]

theorem head?_bytes_iff (h : HostText) : h.bytes.head? = some 91 ↔ h.IsBracketed := by
  cases h with
  | name text _ _ _ hbracket => exact iff_of_false (fun h => hbracket (List.mem_of_head? h)) id
  | bracketed => exact iff_of_true rfl trivial

theorem isBracketed_iff_of_append {k : HostText} {x y : Bytes} (heq : h.bytes ++ x = k.bytes ++ y) :
    h.IsBracketed ↔ k.IsBracketed := by
  have hhead := congrArg List.head? heq
  rw [List.head?_append_of_ne_nil _ h.bytes_ne_nil, List.head?_append_of_ne_nil _ k.bytes_ne_nil]
    at hhead
  rw [← head?_bytes_iff, ← head?_bytes_iff, hhead]

theorem exists_strchr_of_isBracketed (hb : h.IsBracketed) (p : Option Bytes) :
    ∃ i, strchr (h.withPort p) 58 = some i := by
  cases h with
  | name => exact absurd hb id
  | bracketed address hcolon hnul hbracket =>
    obtain ⟨u, v, rfl, hu⟩ := List.eq_append_cons_of_mem hcolon
    refine ⟨(91 :: u).length, ?_⟩
    have h := strchr_append_cons (u := 91 :: u) (c := 58) (by simpa using hu)
      (by simpa using fun h0 => hnul (List.mem_append_left _ h0)) (by decide)
      (v ++ [93] ++ portText p)
    simpa [withPort, bytes] using h

/-- In other hosts there is a colon exactly where there is a port. -/
theorem strchr_withPort (hb : ¬ h.IsBracketed) (p : Option Bytes) :
    strchr (h.withPort p) 58 = p.map fun _ => h.bytes.length := by
  cases p with
  | none =>
    rw [withPort, portText, List.append_nil]
    exact strchr_of_notMem (colon_notMem hb)
  | some p => exact strchr_append_cons (colon_notMem hb) h.nul_notMem_bytes (by decide) p

theorem withPort_inj {k : HostText} : h.withPort p = k.withPort q ↔ h.bytes = k.bytes ∧ p = q := by
  constructor
  · intro heq
    have hbr := isBracketed_iff_of_append heq
    cases h with
    | name text hcolon =>
      have hk := colon_notMem (mt hbr.mpr id)
      unfold withPort at heq
      cases p with
      | none =>
        cases q with
        | none => exact ⟨by simpa [portText] using heq, rfl⟩
        | some q =>
          refine absurd ?_ hcolon
          rw [portText, List.append_nil, bytes] at heq
          simp [heq, portText]
      | some p =>
        cases q with
        | none =>
          refine absurd ?_ hk
          rw [portText, List.append_nil] at heq
          simp [← heq, portText]
        | some q =>
          obtain ⟨h1, h2⟩ := append_cons_inj hcolon hk heq
          exact ⟨h1, by rw [h2]⟩
    | bracketed address _ _ hend =>
      cases k with
      | name => exact absurd (hbr.mp trivial) id
      | bracketed address' _ _ hend' =>
        have htail : address ++ 93 :: portText p = address' ++ 93 :: portText q := by
          simpa [withPort, bytes] using heq
        obtain ⟨rfl, hport⟩ := append_cons_inj hend hend' htail
        exact ⟨rfl, portText_inj.mp hport⟩
  · rintro ⟨h1, rfl⟩
    rw [withPort, h1, withPort]

end HostText

/-! ## The comparison -/

open HostText

/-- The condition `H` or `H:P` is met by the authority `h` or `h:p`, where a missing `p` is the port
of the server. -/
def HostMeets (H : HostText) (P : Option Bytes) (h : HostText) (p : Option Bytes)
    (serverPort : ℕ) : Prop :=
  H.bytes = h.bytes ∧ (P = none ∨ P = some (p.getD (itostr serverPort)))

/-- What `config_check_cond_nocache` compares: behind a bracketed address, the ports as they are. -/
def HostCompares (H : HostText) (P : Option Bytes) (h : HostText) (p : Option Bytes)
    (serverPort : ℕ) : Prop :=
  H.bytes = h.bytes ∧ if h.IsBracketed then P = p else P = none ∨ P = some (p.getD (itostr serverPort))

section Compare

variable {a : ConAttrs} {H h : HostText} {P p : Option Bytes} {cond : ConfigCond}

/-- Between a bracketed address and another host nothing compares equal. -/
theorem not_hostCompares (hb : ¬ (H.IsBracketed ↔ h.IsBracketed)) (s : ℕ) :
    ¬ HostCompares H P h p s := fun hcomp =>
  hb (by rw [← head?_bytes_iff, ← head?_bytes_iff, hcomp.1])

theorem ne_withPort {l x y : Bytes} (hb : ¬ (H.IsBracketed ↔ h.IsBracketed))
    (hl : l ++ x = h.bytes ++ y) : l ≠ H.withPort P := by
  rintro rfl
  rw [withPort, List.append_assoc] at hl
  exact hb (isBracketed_iff_of_append hl)

/-- The buffer that the condition is compared with equals it where the hosts are the same and the
ports agree. -/
theorem hostSubject_compares (hauth : a.authority = some (h.withPort p)) (hport : 0 < a.serverPort)
    (hcond : cond = .eq ∨ cond = .ne) : ∃ ref l, hostSubject a cond (H.withPort P) = .buffer ref (some l) ∧
    (l = H.withPort P ↔ HostCompares H P h p a.serverPort) := by
  have hne : bufferStringIsEmpty a.authority = false := by
    simp [hauth, bufferStringIsEmpty, Buffer.string, withPort, bytes_ne_nil]
  have hstring : a.authority.string = h.withPort p := by rw [hauth]; rfl
  unfold hostSubject
  simp only [hne, Bool.false_eq_true, if_false, hcond, true_and, ne_eq,
    Nat.pos_iff_ne_zero.mp hport, not_false_eq_true, if_true, hstring]
  simp only [hauth]
  by_cases hb : h.IsBracketed
  · obtain ⟨i, hi⟩ := exists_strchr_of_isBracketed hb p
    by_cases Hb : H.IsBracketed
    · -- both have a colon of their own
      obtain ⟨j, hj⟩ := exists_strchr_of_isBracketed Hb P
      simp only [hi, hj]
      refine ⟨_, _, rfl, ?_⟩
      rw [HostCompares, if_pos hb, eq_comm]
      exact withPort_inj
    · have hkind : ¬ (H.IsBracketed ↔ h.IsBracketed) := fun hiff => Hb (hiff.mpr hb)
      rw [strchr_withPort Hb, hi]
      cases P with
      | none => exact ⟨_, _, rfl, iff_of_false
          (ne_withPort hkind (x := (h.withPort p).drop i) (List.take_append_drop _ _))
          (not_hostCompares hkind _)⟩
      | some P => exact ⟨_, _, rfl, iff_of_false
          (ne_withPort hkind (x := []) (List.append_nil _)) (not_hostCompares hkind _)⟩
  · rw [strchr_withPort hb]
    by_cases Hb : H.IsBracketed
    · have hkind : ¬ (H.IsBracketed ↔ h.IsBracketed) := fun hiff => hb (hiff.mp Hb)
      obtain ⟨j, hj⟩ := exists_strchr_of_isBracketed Hb P
      rw [hj]
      cases p with
      | none => exact ⟨_, _, rfl, iff_of_false
          (ne_withPort hkind (x := []) (by simp [withPort, portText]; rfl))
          (not_hostCompares hkind _)⟩
      | some p => exact ⟨_, _, rfl, iff_of_false
          (ne_withPort hkind (x := []) (List.append_nil _)) (not_hostCompares hkind _)⟩
    · rw [strchr_withPort Hb]
      unfold HostCompares
      rw [if_neg hb]
      cases P with
      | none =>
        cases p with
        | none =>
          refine ⟨_, _, rfl, ?_⟩
          rw [eq_comm, withPort_inj]
          simp
        | some p =>
          refine ⟨_, _, rfl, ?_⟩
          simp [withPort, portText, eq_comm]
      | some P =>
        cases p with
        | none =>
          refine ⟨_, _, rfl, ?_⟩
          have hl : h.withPort none ++ 58 :: itostr a.serverPort =
              h.withPort (some (itostr a.serverPort)) := by simp [withPort, portText]
          rw [hl, eq_comm, withPort_inj]
          simp
        | some p =>
          refine ⟨_, _, rfl, ?_⟩
          rw [eq_comm, withPort_inj]
          simp

end Compare

section Checked

variable {n : ℕ} {env : CondEnv} {a : ConAttrs} {t : ConfigTree n} {s : CondState n} {dc : Fin n}
  {fresh : Bool} {H h : HostText} {P p : Option Bytes}

theorem localValue_host (hcomp : (t.data dc).comp = .httpHost)
    (hcond : (t.data dc).cond = .eq ∨ (t.data dc).cond = .ne)
    (hstring : (t.data dc).string = some (H.withPort P)) (hauth : a.authority = some (h.withPort p))
    (hport : 0 < a.serverPort) :
    localValue env a t.toConfigContext dc =
      (if (t.data dc).cond = .eq then CondResult.true else .false) ↔
        HostCompares H P h p a.serverPort := by
  obtain ⟨ref, l, hsubject, hl⟩ := hostSubject_compares (P := P) (H := H) hauth hport hcond
  have helse : (t.data dc).cond ≠ .elseBranch := by rcases hcond with h | h <;> simp [h]
  have hsub : condSubject env a (t.data dc) = .buffer ref (some l) := by
    rw [condSubject, hcomp, hstring]
    exact hsubject
  rw [← hl, localValue, if_neg helse, hsub]
  rcases hcond with hc | hc
  · simp [compareBuffer, hc, bufferIsEqual, hstring]
  · simp [compareBuffer, hc, bufferIsEqual, hstring]

theorem hostCompares_iff_hostMeets (serverPort : ℕ) :
    (HostCompares H P h p serverPort ↔ HostMeets H P h p serverPort) ↔
      ¬ (H.bytes = h.bytes ∧ h.IsBracketed ∧
        (P = none ∧ p ≠ none ∨ P = some (itostr serverPort) ∧ p = none)) := by
  unfold HostCompares HostMeets
  by_cases heq : H.bytes = h.bytes
  · by_cases hb : h.IsBracketed
    · simp only [heq, hb, if_true, true_and]
      cases P <;> cases p <;> simp [eq_comm]
    · simp [hb]
  · simp [heq]

theorem Reachable.configCheckCondNocache_eq (hreach : Reachable env t a s ∅ fresh) (dc : Fin n) :
    (configCheckCondNocache env a t.toConfigContext s dc).2 =
      condValue env a t.toConfigContext dc := by
  have hspec : CheckSpec env a t.toConfigContext s dc
      (configCheckCondNocache env a t.toConfigContext s dc) :=
    (configCheckCondNocache_spec hreach.cacheInv.consistent t.cond_ne_unset
      fun g _ s' hc' => configCheckCondCached_spec (fun _ => t.cond_ne_unset) g s' hc').1
  exact hspec.value

/-- A condition on the host that is evaluated is true for `==`, and false for `!=`, for the
authorities that meet it, exactly when not one of host and condition lacks the port behind the same
bracketed address. -/
theorem configCheckCondNocache_host_iff (hreach : Reachable env t a s ∅ fresh)
    (hcomp : (t.data dc).comp = .httpHost)
    (hcond : (t.data dc).cond = .eq ∨ (t.data dc).cond = .ne)
    (hstring : (t.data dc).string = some (H.withPort P)) (hauth : a.authority = some (h.withPort p))
    (hport : 0 < a.serverPort)
    (hdecided : (configCheckCondNocache env a t.toConfigContext s dc).2 = .true ∨
      (configCheckCondNocache env a t.toConfigContext s dc).2 = .false) :
    ((configCheckCondNocache env a t.toConfigContext s dc).2 =
        (if (t.data dc).cond = .eq then CondResult.true else .false) ↔
          HostMeets H P h p a.serverPort) ↔
      ¬ (H.bytes = h.bytes ∧ h.IsBracketed ∧
        (P = none ∧ p ≠ none ∨ P = some (itostr a.serverPort) ∧ p = none)) := by
  rw [hreach.configCheckCondNocache_eq dc] at hdecided ⊢
  rw [condValue_eq_localValue hdecided, localValue_host hcomp hcond hstring hauth hport]
  exact hostCompares_iff_hostMeets a.serverPort

end Checked

/-- The host `[::1]`. -/
def loopbackHost : HostText := .bracketed (str "::1") (by decide) (by decide) (by decide)

/-- A block on the host `[::1]:80`. -/
def loopbackTree : ConfigTree 2 where
  data i :=
    if i.val = 0 then ⟨.unset, [], .unset, none, none, none, none, [⟨1, Nat.one_lt_two⟩]⟩
    else ⟨.httpHost, [], .eq, some (loopbackHost.withPort (some (str "80"))),
      some ⟨0, Nat.two_pos⟩, none, none, []⟩
  parent_lt {i p} := by revert i p; decide
  prev_lt {i q} := by revert i q; decide
  next_iff {i j} := by revert i j; decide
  prev_parent {i q} := by revert i q; decide
  children_iff {i j} := by revert i j; decide
  cond_ne_unset {i} := by revert i; decide

/-- A connection to the server on port 80, with a host. -/
def loopbackAttrs (p : Option Bytes) : ConAttrs :=
  requestAttrs (loopbackHost.withPort p) [] [.httpHost]

theorem loopback_reachable (p : Option Bytes) : Reachable plainEnv loopbackTree (loopbackAttrs p)
    (configCondCacheReset (emptyState 2)) ∅ true := by
  have h₀ : Reachable plainEnv loopbackTree (requestAttrs (loopbackHost.withPort p) [] [])
      (configCondCacheReset (emptyState 2)) ∅ true :=
    .start (requestAttrs (loopbackHost.withPort p) [] []) (emptyState 2)
  exact h₀.change .httpHost _ (sameAt_requestAttrs_host _ _ _ _)

theorem loopback_value (p : Option Bytes) :
    (configCheckCondNocache plainEnv (loopbackAttrs p) loopbackTree.toConfigContext
      (configCondCacheReset (emptyState 2)) 1).2 =
        ownValue plainEnv (loopbackAttrs p) loopbackTree.toConfigContext 1 := by
  have henc : loopbackTree.enclosing 1 = none := by rfl
  rw [(loopback_reachable p).configCheckCondNocache_eq 1, condValue_of_enclosing_ne (by simp [henc])]
  rfl

theorem configCheckCondNocache_host_iff_loopback :
    ((configCheckCondNocache plainEnv (loopbackAttrs (some (str "80"))) loopbackTree.toConfigContext
        (configCondCacheReset (emptyState 2)) 1).2 =
          (if (loopbackTree.data 1).cond = .eq then CondResult.true else .false) ↔
        HostMeets loopbackHost (some (str "80")) loopbackHost (some (str "80")) 80) ↔
      ¬ (loopbackHost.bytes = loopbackHost.bytes ∧ loopbackHost.IsBracketed ∧
        (some (str "80") = none ∧ some (str "80") ≠ none ∨
          some (str "80") = some (itostr 80) ∧ some (str "80") = none)) :=
  configCheckCondNocache_host_iff (loopback_reachable _) rfl (Or.inl rfl) rfl rfl (by decide)
    (Or.inl ((loopback_value _).trans (by decide)))

/-- The condition `[::1]:80` is false for the authority `[::1]` on port 80. -/
theorem configCheckCondNocache_lacksPort :
    ¬ ∀ (n : ℕ) (env : CondEnv) (t : ConfigTree n) (a : ConAttrs) (s : CondState n) (fresh : Bool)
      (dc : Fin n) (H h : HostText) (P p : Option Bytes), Reachable env t a s ∅ fresh →
      (t.data dc).comp = .httpHost → (t.data dc).cond = .eq ∨ (t.data dc).cond = .ne →
      (t.data dc).string = some (H.withPort P) → a.authority = some (h.withPort p) →
      0 < a.serverPort →
      (configCheckCondNocache env a t.toConfigContext s dc).2 = .true ∨
        (configCheckCondNocache env a t.toConfigContext s dc).2 = .false →
      ((configCheckCondNocache env a t.toConfigContext s dc).2 =
        (if (t.data dc).cond = .eq then CondResult.true else .false) ↔
          HostMeets H P h p a.serverPort) := by
  intro h
  have hvalue := (loopback_value none).trans (show _ = CondResult.false by decide)
  have hiff := h 2 plainEnv loopbackTree (loopbackAttrs none) _ true 1 loopbackHost loopbackHost
    (some (str "80")) none (loopback_reachable none) rfl (Or.inl rfl) rfl rfl (by decide)
    (Or.inr hvalue)
  rw [hvalue] at hiff
  exact absurd (hiff.mpr ⟨rfl, Or.inr (by decide)⟩) (by decide)

end Lighttpd
