import Lighttpd.RequestHost

/-!
# The normal form of a host

`http_request_host_normalize` ends the address in brackets with a NUL while it is read, and puts back
what was there (`hostNormalizeBuffer_eq`). Its result is its own normal form, and a port is written
in decimal. In a host that ends with `]` the bracket that closes the address is taken to be that
one, so that another one may stand in the name of the interface, with a colon behind it
(`hostNormalizeBuffer_iff`).
-/

namespace Lighttpd

open CString

/-! ## The buffer -/

/-- The bracket that closes the address, and the port behind it. -/
def bracketAndPort (b : Bytes) : Option (ℕ × ℤ) :=
  if b.length ≤ 2 then none
  else if b.getLast? = some 93 then some (b.length - 1, 0)
  else
    match (memchr b.tail 93).map (· + 1) with
    | none => none
    | some bracket =>
      if b[bracket + 1]? ≠ some 58 ∨ bracket = 1 then none
      else (hostPort (b.drop (bracket + 2))).map fun port => (bracket, port)

/-- The part of `http_request_host_normalize` for a host in brackets, with the buffer: whether it
goes on to the port, the buffer and the port. -/
def bracketBuffer (lib : AddrLib) (b : Bytes) : Bool × Bytes × ℤ :=
  let percent := (strchr b.tail 37).map (· + 1)
  match bracketAndPort b with
  | none => (false, b, 0)
  | some (bracket, port) =>
    -- the bracket and the sign before the interface are NUL while the address is read
    let b := b.set bracket 0
    let b := percent.elim b fun p => b.set p 0
    let addr := lib.inetPton6 (cstr (b.drop 1))
    let b := percent.elim b fun p => b.set p 37
    let b := b.set bracket 93
    match addr with
    | none => (false, b, port)
    | some a =>
      let buf := lib.inetNtop6 a
      match percent with
      | none => (true, b.take 1 ++ buf ++ [93], port)
      | some p =>
        if p > bracket then (false, b, port)
        else if buf.length + (bracket - p) ≥ 62 then (false, b, port)
        else (true, b.take 1 ++ (buf ++ (b.drop p).take (bracket - p)) ++ [93], port)

/-- `http_request_host_normalize` with the buffer: whether it returns zero, and the buffer
afterwards. -/
def hostNormalizeBuffer (lib : AddrLib) (b : Bytes) (schemePort : ℤ) : Bool × Bytes :=
  let r :=
    if b.head? ≠ some 91 then
      match hostNormalizeName lib b with
      | none => (false, b, 0)
      | some (host, port) => (true, host, port)
    else bracketBuffer lib b
  if ¬ r.1 then (false, r.2.1)
  else if r.2.2 ≠ 0 ∧ r.2.2 ≠ schemePort then (true, r.2.1 ++ 58 :: itostr r.2.2.toNat)
  else (true, r.2.1)

variable {s b w iface rest b' u : Bytes} {i p : ℕ} {c : UInt8} {port schemePort : ℤ}
  {a : Vector UInt8 16}

theorem cstr_set (hi : i < s.length) : cstr (s.set i 0) = cstr (s.take i) := by
  have hnil : ∀ u v : Bytes, cstr (u ++ 0 :: v) = cstr u := by
    intro u v
    by_cases h : 0 ∈ u
    · exact cstr_append_of_mem h _
    · rw [cstr_append_of_notMem h, cstr_of_notMem h]
      exact List.append_nil u
  rw [List.set_eq_take_append_cons_drop, if_pos hi, hnil]

theorem cstr_set_set {j : ℕ} (hi : i < s.length) (hj : j < s.length) :
    cstr ((s.set i 0).set j 0) = cstr (s.take (min j i)) := by
  rw [cstr_set (by simpa using hj)]
  rcases le_or_gt j i with h | h
  · rw [List.take_set_of_le h, min_eq_left h]
  · have hlt : i < (s.take j).length := by
      rw [List.length_take]
      exact lt_min h hi
    rw [List.take_set, cstr_set hlt, List.take_take, min_comm]

theorem set_restore (h : s[i]? = some c) (d : UInt8) : (s.set i d).set i c = s := by
  obtain ⟨hi, rfl⟩ := List.getElem?_eq_some_iff.mp h
  rw [List.set_set, List.set_getElem_self]

theorem strchr_getElem? (h : strchr s c = some i) : s[i]? = some c := by
  obtain ⟨u, v, rfl, rfl, -⟩ := strchr_eq_some h
  simp

theorem bracketAndPort_getElem? {bracket : ℕ} (h : bracketAndPort b = some (bracket, port)) :
    ∃ k, bracket = k + 1 ∧ b.tail[k]? = some 93 := by
  unfold bracketAndPort at h
  split_ifs at h with hlen hlast
  · cases h
    obtain ⟨c, d, e, t, rfl⟩ : ∃ c d e t, b = c :: d :: e :: t := by
      rcases b with _ | ⟨c, _ | ⟨d, _ | ⟨e, t⟩⟩⟩
      · simp at hlen
      · simp at hlen
      · simp at hlen
      · exact ⟨c, d, e, t, rfl⟩
    refine ⟨t.length + 1, by simp, ?_⟩
    rw [List.getLast?_cons_cons, List.getLast?_eq_getElem?] at hlast
    simpa using hlast
  · cases hmem : memchr b.tail 93 with
    | none =>
      rw [hmem] at h
      cases h
    | some k =>
      rw [hmem] at h
      dsimp only [Option.map_some] at h
      split_ifs at h
      obtain ⟨p, -, hp⟩ := Option.map_eq_some_iff.mp h
      cases hp
      obtain ⟨u, v, hs, rfl, -⟩ := memchr_eq_some hmem
      exact ⟨u.length, rfl, by simp [hs]⟩

theorem hostNormalizeBracket_eq (lib : AddrLib) (b : Bytes) :
    hostNormalizeBracket lib b = (bracketAndPort b).bind fun r =>
      let percent := (strchr b.tail 37).map (· + 1)
      (lib.inetPton6 (cstr ((b.take (percent.elim r.1 fun p => min p r.1)).drop 1))).bind fun a =>
        percent.elim (some (91 :: lib.inetNtop6 a ++ [93], r.2)) fun p =>
          if p > r.1 then none
          else if (lib.inetNtop6 a).length + (r.1 - p) ≥ 62 then none
          else some (91 :: lib.inetNtop6 a ++ (b.take r.1).drop p ++ [93], r.2) := by
  unfold hostNormalizeBracket
  change (match bracketAndPort b with
    | none => none
    | some (bracket, port) => _) = _
  cases bracketAndPort b with
  | none => rfl
  | some r =>
    obtain ⟨bracket, port⟩ := r
    cases strchr b.tail 37 with
    | none =>
      dsimp only [Option.map_none, Option.elim_none, Option.bind_some]
      cases lib.inetPton6 (cstr ((b.take bracket).drop 1)) <;> rfl
    | some k =>
      dsimp only [Option.map_some, Option.elim_some, Option.bind_some]
      cases lib.inetPton6 (cstr ((b.take (min (k + 1) bracket)).drop 1)) <;> rfl

/-- The buffer is as it was when the address is refused, and else it is what the address, the
interface and the port make. -/
theorem bracketBuffer_eq (lib : AddrLib) (h91 : b.head? = some 91) :
    (∃ port, bracketBuffer lib b = (false, b, port)) ∧ hostNormalizeBracket lib b = none ∨
      ∃ host port, bracketBuffer lib b = (true, host, port) ∧
        hostNormalizeBracket lib b = some (host, port) := by
  obtain ⟨t, rfl⟩ := List.head?_eq_some_iff.mp h91
  rw [hostNormalizeBracket_eq]
  unfold bracketBuffer
  cases hbp : bracketAndPort (91 :: t) with
  | none => exact .inl ⟨⟨0, rfl⟩, rfl⟩
  | some r =>
    obtain ⟨bracket, port⟩ := r
    obtain ⟨k, rfl, hk⟩ := bracketAndPort_getElem? hbp
    have hkt : k < t.length := (List.getElem?_eq_some_iff.mp hk).1
    rw [List.tail_cons] at hk ⊢
    cases hpercent : strchr t 37 with
    | none =>
      have hread : cstr (((91 :: t).set (k + 1) 0).drop 1) = cstr (((91 :: t).take (k + 1)).drop 1) :=
        cstr_set hkt
      have hrestore : ((91 :: t).set (k + 1) 0).set (k + 1) 93 = 91 :: t :=
        set_restore (s := 91 :: t) hk 0
      dsimp only [Option.map_none, Option.elim_none, Option.bind_some]
      rw [hrestore, hread]
      cases lib.inetPton6 (cstr (((91 :: t).take (k + 1)).drop 1)) with
      | none => exact .inl ⟨⟨port, rfl⟩, rfl⟩
      | some a => exact .inr ⟨_, port, rfl, rfl⟩
    | some j =>
      have hj := strchr_getElem? hpercent
      have hjt : j < t.length := (List.getElem?_eq_some_iff.mp hj).1
      have hne : k + 1 ≠ j + 1 := by
        intro heq
        rw [Nat.succ.inj heq, hj] at hk
        cases hk
      have hread : cstr ((((91 :: t).set (k + 1) 0).set (j + 1) 0).drop 1) =
          cstr (((91 :: t).take (min (j + 1) (k + 1))).drop 1) := by
        rw [Nat.add_min_add_right]
        exact cstr_set_set hkt hjt
      have hrestore : ((((91 :: t).set (k + 1) 0).set (j + 1) 0).set (j + 1) 37).set (k + 1) 93 =
          91 :: t := by
        have hj' : ((91 :: t).set (k + 1) 0)[j + 1]? = some 37 := by
          rw [List.getElem?_set_ne hne]
          exact hj
        rw [set_restore hj']
        exact set_restore (s := 91 :: t) hk 0
      dsimp only [Option.map_some, Option.elim_some, Option.bind_some]
      rw [hrestore, hread]
      cases lib.inetPton6 (cstr (((91 :: t).take (min (j + 1) (k + 1))).drop 1)) with
      | none => exact .inl ⟨⟨port, rfl⟩, rfl⟩
      | some a =>
        dsimp only [Option.bind_some]
        split_ifs
        · exact .inl ⟨⟨port, rfl⟩, rfl⟩
        · exact .inl ⟨⟨port, rfl⟩, rfl⟩
        · refine .inr ⟨_, port, rfl, ?_⟩
          rw [List.drop_take]
          simp

/-- The bytes of the buffer are kept when the function fails. -/
theorem hostNormalizeBuffer_eq (lib : AddrLib) (b : Bytes) (schemePort : ℤ) :
    hostNormalizeBuffer lib b schemePort =
      ((httpRequestHostNormalize lib b schemePort).isSome,
        (httpRequestHostNormalize lib b schemePort).getD b) := by
  unfold hostNormalizeBuffer httpRequestHostNormalize
  by_cases h91 : b.head? = some 91
  · rw [if_neg (not_not.mpr h91), if_neg (not_not.mpr h91)]
    rcases bracketBuffer_eq lib h91 with ⟨⟨port, heq⟩, heq'⟩ | ⟨host, port, heq, heq'⟩
    · rw [heq, heq']
      rfl
    · rw [heq, heq']
      dsimp only [Option.map_some]
      split_ifs <;> first | rfl | simp_all
  · rw [if_pos h91, if_pos h91]
    cases hostNormalizeName lib b with
    | none => rfl
    | some r =>
      dsimp only [Option.map_some]
      split_ifs <;> first | rfl | simp_all

/-! ## What is in brackets -/

/-- What may follow the bracket: nothing, or a port behind a bracket that is the first one. -/
def PortBehind (u rest : Bytes) (port : ℤ) : Prop :=
  rest = [] ∧ port = 0 ∨
    ∃ ps, rest = 58 :: ps ∧ hostPort ps = some port ∧ 93 ∉ u ∧ rest.getLast? ≠ some 93

theorem getLast?_append_cons (u : Bytes) (c : UInt8) (rest : Bytes) :
    (u ++ c :: rest).getLast? = (c :: rest).getLast? := by
  rw [List.getLast?_append_of_ne_nil _ (List.cons_ne_nil c rest)]

theorem bracketAndPort_eq_some_iff {t : Bytes} {bracket : ℕ} :
    bracketAndPort (91 :: t) = some (bracket, port) ↔
      ∃ u rest, t = u ++ 93 :: rest ∧ bracket = u.length + 1 ∧ u ≠ [] ∧ PortBehind u rest port := by
  constructor
  · intro h
    unfold bracketAndPort at h
    split_ifs at h with hlen hlast
    · cases h
      cases t with
      | nil => simp at hlen
      | cons c t =>
        rw [List.getLast?_cons_cons] at hlast
        obtain ⟨u, hu⟩ := List.getLast?_eq_some_iff.mp hlast
        refine ⟨u, [], hu, by simp [hu], ?_, .inl ⟨rfl, rfl⟩⟩
        rintro rfl
        simp [hu] at hlen
    · cases hmem : memchr (91 :: t).tail 93 with
      | none =>
        rw [hmem] at h
        cases h
      | some k =>
        rw [hmem] at h
        dsimp only [Option.map_some] at h
        split_ifs at h with hbad
        obtain ⟨p, hport, hp⟩ := Option.map_eq_some_iff.mp h
        cases hp
        obtain ⟨u, rest, rfl, rfl, h93⟩ := memchr_eq_some (s := t) hmem
        simp only [not_or, not_not] at hbad
        have hget : rest[0]? = some 58 := by
          have h := hbad.1
          rw [List.getElem?_cons_succ, List.getElem?_append_right (by omega)] at h
          simpa using h
        obtain ⟨ps, rfl⟩ : ∃ ps, rest = 58 :: ps := by
          cases rest with
          | nil => cases hget
          | cons c ps => exact ⟨ps, by rw [Option.some.inj hget]⟩
        refine ⟨u, 58 :: ps, rfl, rfl, ?_, .inr ⟨ps, rfl, ?_, h93, ?_⟩⟩
        · rintro rfl
          exact hbad.2 rfl
        · simpa using hport
        · rw [← List.cons_append, getLast?_append_cons, List.getLast?_cons_cons] at hlast
          exact hlast
  · rintro ⟨u, rest, rfl, rfl, hu, ⟨rfl, rfl⟩ | ⟨ps, rfl, hps, h93, hlast⟩⟩
    · have hpos := List.length_pos_iff.mpr hu
      have hlen : ¬ (91 :: (u ++ [93])).length ≤ 2 := by
        simp only [List.length_cons, List.length_append, List.length_nil]
        omega
      rw [bracketAndPort, if_neg hlen, if_pos (by rw [← List.cons_append, List.getLast?_concat])]
      simp
    · have hpos := List.length_pos_iff.mpr hu
      have hlen : ¬ (91 :: (u ++ 93 :: 58 :: ps)).length ≤ 2 := by
        simp only [List.length_cons, List.length_append]
        omega
      have hlast' : ¬ (91 :: (u ++ 93 :: 58 :: ps)).getLast? = some 93 := by
        rw [← List.cons_append, getLast?_append_cons, List.getLast?_cons_cons]
        exact hlast
      have hgood : ¬ ((91 :: (u ++ 93 :: 58 :: ps))[u.length + 1 + 1]? ≠ some 58 ∨
          u.length + 1 = 1) := by
        rw [List.getElem?_cons_succ, List.getElem?_append_right (by omega)]
        simp
        exact hu
      have hdrop : (91 :: (u ++ 93 :: 58 :: ps)).drop (u.length + 1 + 2) = ps := by
        simp
      rw [bracketAndPort, if_neg hlen, if_neg hlast', List.tail_cons, memchr_append_cons h93]
      dsimp only [Option.map_some]
      rw [if_neg hgood, hdrop, hps]
      rfl

theorem drop_take_iface (w iface : Bytes) (c : UInt8) (rest : Bytes) :
    ((c :: (w ++ iface ++ 93 :: rest)).take ((w ++ iface).length + 1)).drop (w.length + 1) =
      iface := by
  rw [List.take_succ_cons, List.take_left, List.drop_succ_cons, List.drop_left]

theorem hostPort_eq_some (h : hostPort s = some port) : 0 ≤ port ∧ port ≤ 65535 := by
  unfold hostPort at h
  split_ifs at h with hnil
  · cases h
    omega
  · dsimp only at h
    split_ifs at h with hok
    cases h
    omega

/-- An address in brackets that is read as `a`, with an interface or without one. -/
structure BracketForm (lib : AddrLib) (w iface rest : Bytes) (a : Vector UInt8 16) (port : ℤ) :
    Prop where
  read : lib.inetPton6 (cstr w) = some a
  percent : iface = [] ∧ strchr (w ++ 93 :: rest) 37 = none ∨
    (∃ v, iface = 37 :: v) ∧ 37 ∉ w ∧ 0 ∉ w ∧ (lib.inetNtop6 a).length + iface.length < 62
  ne_nil : w ++ iface ≠ []
  behind : PortBehind (w ++ iface) rest port

variable {lib : AddrLib}

theorem BracketForm.port_le (h : BracketForm lib w iface rest a port) :
    0 ≤ port ∧ port ≤ 65535 := by
  rcases h.behind with ⟨-, rfl⟩ | ⟨ps, -, hps, -⟩
  · omega
  · exact hostPort_eq_some hps

theorem BracketForm.hostNormalizeBracket_eq (h : BracketForm lib w iface rest a port) :
    hostNormalizeBracket lib (91 :: (w ++ iface ++ 93 :: rest)) =
      some (91 :: lib.inetNtop6 a ++ iface ++ [93], port) := by
  have hbp : bracketAndPort (91 :: (w ++ iface ++ 93 :: rest)) =
      some ((w ++ iface).length + 1, port) :=
    bracketAndPort_eq_some_iff.mpr ⟨w ++ iface, rest, rfl, rfl, h.ne_nil, h.behind⟩
  rw [Lighttpd.hostNormalizeBracket_eq, hbp, List.tail_cons, Option.bind_some]
  rcases h.percent with ⟨hnil, hpercent⟩ | ⟨⟨v, hv⟩, h37, h0, hlength⟩
  · have hread : ((91 :: (w ++ iface ++ 93 :: rest)).take ((w ++ iface).length + 1)).drop 1 = w := by
      simp [hnil]
    rw [hnil, List.append_nil] at *
    rw [hpercent]
    dsimp only [Option.map_none, Option.elim_none]
    rw [hread, h.read]
    simp
  · have hpercent : strchr (w ++ iface ++ 93 :: rest) 37 = some w.length := by
      rw [hv, List.append_assoc, List.cons_append]
      exact strchr_append_cons h37 h0 (by decide) _
    rw [hpercent]
    dsimp only [Option.map_some, Option.elim_some]
    have hmin : min (w.length + 1) ((w ++ iface).length + 1) = w.length + 1 :=
      min_eq_left (by simp)
    have hread : ((91 :: (w ++ iface ++ 93 :: rest)).take (w.length + 1)).drop 1 = w := by
      simp
    have hiface : ((91 :: (w ++ iface ++ 93 :: rest)).take ((w ++ iface).length + 1)).drop
        (w.length + 1) = iface := drop_take_iface w iface 91 rest
    have hdiff : (w ++ iface).length + 1 - (w.length + 1) = iface.length := by
      rw [List.length_append]
      omega
    rw [hmin, hread, h.read, Option.bind_some, hiface, hdiff, if_neg (by simp), if_neg (by omega)]

theorem exists_bracketForm {t host : Bytes}
    (h : hostNormalizeBracket lib (91 :: t) = some (host, port)) :
    ∃ w iface rest a, t = w ++ iface ++ 93 :: rest ∧ BracketForm lib w iface rest a port ∧
      host = 91 :: lib.inetNtop6 a ++ iface ++ [93] := by
  rw [Lighttpd.hostNormalizeBracket_eq, List.tail_cons] at h
  obtain ⟨⟨bracket, port'⟩, hbp, h⟩ := Option.bind_eq_some_iff.mp h
  obtain ⟨u, rest, rfl, rfl, hu, hbehind⟩ := bracketAndPort_eq_some_iff.mp hbp
  dsimp only at h
  cases hpercent : strchr (u ++ 93 :: rest) 37 with
  | none =>
    rw [hpercent] at h
    dsimp only [Option.map_none, Option.elim_none] at h
    obtain ⟨a, hread, h⟩ := Option.bind_eq_some_iff.mp h
    cases h
    refine ⟨u, [], rest, a, by simp, ⟨?_, .inl ⟨rfl, hpercent⟩, by simpa using hu, ?_⟩, by simp⟩
    · simpa using hread
    · simpa using hbehind
  | some j =>
    rw [hpercent] at h
    dsimp only [Option.map_some, Option.elim_some] at h
    obtain ⟨a, hread, h⟩ := Option.bind_eq_some_iff.mp h
    split_ifs at h with hlt hlength
    cases h
    obtain ⟨w, v, hsplit, rfl, h37, h0⟩ := strchr_eq_some hpercent
    have hlt : w.length ≤ u.length := by omega
    obtain ⟨iface, rfl⟩ : w <+: u :=
      List.prefix_of_prefix_length_le (hsplit ▸ List.prefix_append w (37 :: v))
        (List.prefix_append u (93 :: rest)) hlt
    obtain ⟨c, iface, rfl⟩ : ∃ c i, iface = c :: i := by
      refine List.exists_cons_of_ne_nil ?_
      rintro rfl
      rw [List.append_nil] at hsplit
      exact absurd (List.cons.inj (List.append_cancel_left hsplit)).1 (by decide)
    rw [List.append_assoc] at hsplit
    have hc := (List.cons.inj (List.append_cancel_left hsplit)).1
    have hdiff : (w ++ c :: iface).length + 1 - (w.length + 1) = (c :: iface).length := by
      rw [List.length_append]
      omega
    have hmin : min (w.length + 1) ((w ++ c :: iface).length + 1) = w.length + 1 :=
      min_eq_left (by simp)
    rw [hdiff] at hlength
    rw [hmin] at hread
    refine ⟨w, c :: iface, rest, a, rfl, ⟨?_, .inr ⟨⟨iface, by rw [hc]⟩, h37, h0, by omega⟩, hu,
      hbehind⟩, by rw [drop_take_iface]⟩
    simpa using hread

/-! ## The contract -/

/-- What the C library says of the addresses it reads: they are written with digits and dots, or with
hex digits, colons and dots, and what is written is read as the same address. -/
structure AddrLib.Documented (lib : AddrLib) : Prop where
  aton : ∀ s a, lib.inetAton s = some a → lib.inetAton (lib.inetNtop4 a) = some a
  ntop4 : ∀ s a, lib.inetAton s = some a → (∃ c t, lib.inetNtop4 a = c :: t ∧ isDigit c) ∧
    ∀ c ∈ lib.inetNtop4 a, isDigit c ∨ c = 46
  pton6 : ∀ s a, lib.inetPton6 s = some a → lib.inetPton6 (lib.inetNtop6 a) = some a
  ntop6 : ∀ s a, lib.inetPton6 s = some a → lib.inetNtop6 a ≠ [] ∧
    ∀ c ∈ lib.inetNtop6 a, isXDigit c ∨ c = 58 ∨ c = 46

/-- What follows the brackets of a host, the whole host when it is not in brackets. -/
def outsideBrackets (b : Bytes) : Bytes :=
  if b.head? = some 91 then (b.dropWhile (· ≠ 93)).tail else b

/-- A second call changes nothing, a colon outside the brackets starts the port, which is not that of
the scheme, and a host that is refused is left as it is. -/
structure NormalizesHost (lib : AddrLib) (b : Bytes) (schemePort : ℤ) : Prop where
  again : (hostNormalizeBuffer lib b schemePort).1 = true →
    hostNormalizeBuffer lib (hostNormalizeBuffer lib b schemePort).2 schemePort =
      (true, (hostNormalizeBuffer lib b schemePort).2)
  port : (hostNormalizeBuffer lib b schemePort).1 = true →
    ∀ u v, outsideBrackets (hostNormalizeBuffer lib b schemePort).2 = u ++ 58 :: v →
      ∃ p : ℕ, v = itostr p ∧ 0 < p ∧ p ≤ 65535 ∧ (p : ℤ) ≠ schemePort
  keeps : (hostNormalizeBuffer lib b schemePort).1 = false →
    (hostNormalizeBuffer lib b schemePort).2 = b

/-- A bracket in the name of the interface, and a colon behind it, in a host that ends with a
bracket. -/
def BracketInInterface (lib : AddrLib) (b : Bytes) : Prop :=
  ∃ w u v x a, b = 91 :: (w ++ 37 :: (u ++ 93 :: (v ++ 58 :: x)) ++ [93]) ∧ 37 ∉ w ∧ 0 ∉ w ∧
    lib.inetPton6 w = some a ∧
    (lib.inetNtop6 a).length + (37 :: (u ++ 93 :: (v ++ 58 :: x))).length < 62

theorem hostPort_itostr (hp : 0 < p) (hle : p ≤ 65535) : hostPort (itostr p) = some (p : ℤ) := by
  obtain ⟨hdecimal, -⟩ := ofDigits_itostr p
  obtain ⟨c, t, hc⟩ := List.exists_cons_of_ne_nil (itostr_ne_nil p)
  have hc0 : c ≠ 0 := by
    have hdigit := hdecimal.2 c (by rw [hc]; exact List.mem_cons_self)
    rintro rfl
    exact absurd hdigit (by decide)
  have hread := strtol_itostr hp (by omega)
  unfold hostPort
  rw [hread]
  dsimp only
  rw [if_neg (by simpa [hc] using hc0), if_pos ⟨by omega, by omega, by simp⟩]

/-- What is written of a port. -/
def portText (schemePort port : ℤ) : Bytes :=
  if port ≠ 0 ∧ port ≠ schemePort then 58 :: itostr port.toNat else []

theorem portText_cases (schemePort : ℤ) (h0 : 0 ≤ port) (hle : port ≤ 65535) :
    portText schemePort port = [] ∨ ∃ p : ℕ, port = p ∧ portText schemePort port = 58 :: itostr p ∧
      0 < p ∧ p ≤ 65535 ∧ (p : ℤ) ≠ schemePort := by
  obtain ⟨p, rfl⟩ := Int.eq_ofNat_of_zero_le h0
  unfold portText
  split_ifs with h
  · exact .inr ⟨p, rfl, by simp, by omega, by omega, h.2⟩
  · exact .inl rfl

theorem httpRequestHostNormalize_eq_some_iff :
    httpRequestHostNormalize lib b schemePort = some b' ↔
      ∃ host port, (if b.head? ≠ some 91 then hostNormalizeName lib b
        else hostNormalizeBracket lib b) = some (host, port) ∧
        b' = host ++ portText schemePort port := by
  unfold httpRequestHostNormalize
  simp only [Option.map_eq_some_iff, Prod.exists]
  refine exists_congr fun host => exists_congr fun port => and_congr_right fun _ => ?_
  unfold portText
  split_ifs
  · exact eq_comm
  · rw [List.append_nil]
    exact eq_comm

theorem isDigit_itostr (h : c ∈ itostr p) : isDigit c :=
  (ofDigits_itostr p).1.2 c h

theorem notMem_itostr (hc : isDigit c = false) : c ∉ itostr p := by
  intro h
  rw [isDigit_itostr h] at hc
  cases hc

theorem getLast?_port_ne (p : ℕ) : (58 :: itostr p : Bytes).getLast? ≠ some 93 := by
  intro h
  rcases List.mem_cons.mp (List.mem_of_getLast? h) with h | h
  · cases h
  · exact notMem_itostr (by decide) h

theorem hostNormalizeName_colon (hne : u ≠ []) (h58 : 58 ∉ u) (v : Bytes) :
    hostNormalizeName lib (u ++ 58 :: v) =
      (hostPort v).map fun port => (hostNormalizeName.addr lib u, port) := by
  obtain ⟨c, t, rfl⟩ := List.exists_cons_of_ne_nil hne
  have hdrop : (c :: t ++ 58 :: v).drop ((c :: t).length + 1) = v := by simp
  rw [hostNormalizeName, memchr_append_cons h58]
  change (hostPort ((c :: t ++ 58 :: v).drop ((c :: t).length + 1))).map
    (fun port => (hostNormalizeName.addr lib ((c :: t ++ 58 :: v).take (c :: t).length), port)) = _
  rw [hdrop, List.take_left]

theorem hostNormalizeName_of_notMem (h58 : 58 ∉ u) :
    hostNormalizeName lib u = some (hostNormalizeName.addr lib u, 0) := by
  rw [hostNormalizeName, memchr_of_notMem h58]

section Name

variable (hdoc : lib.Documented)
include hdoc

theorem AddrLib.Documented.cstr_ntop4 {a : BitVec 32} (h : lib.inetAton s = some a) :
    cstr (lib.inetNtop4 a) = lib.inetNtop4 a := by
  refine cstr_of_notMem fun h0 => ?_
  exact absurd ((hdoc.ntop4 s a h).2 0 h0) (by decide)

/-- The address of a name, and what a second reading makes of it. -/
theorem addr_spec {name : Bytes} (h58 : 58 ∉ name) (h91 : name.head? ≠ some 91) :
    58 ∉ hostNormalizeName.addr lib name ∧ (hostNormalizeName.addr lib name).head? ≠ some 91 ∧
      (name ≠ [] → hostNormalizeName.addr lib name ≠ []) ∧
      hostNormalizeName.addr lib (hostNormalizeName.addr lib name) =
        hostNormalizeName.addr lib name := by
  have hsame : hostNormalizeName.addr lib name = name ∨
      ∃ a, lib.inetAton (cstr name) = some a ∧
        hostNormalizeName.addr lib name = lib.inetNtop4 a := by
    unfold hostNormalizeName.addr
    split_ifs
    · cases hread : lib.inetAton (cstr name) with
      | none => exact .inl rfl
      | some a => exact .inr ⟨a, rfl, rfl⟩
    · exact .inl rfl
  rcases hsame with heq | ⟨a, hread, heq⟩
  · rw [heq]
    exact ⟨h58, h91, id, heq⟩
  · obtain ⟨⟨c, t, hc, hdigit⟩, hchars⟩ := hdoc.ntop4 _ a hread
    rw [heq]
    refine ⟨fun h => absurd (hchars 58 h) (by decide), ?_, ?_, ?_⟩
    · rw [hc]
      rintro ⟨⟩
      exact absurd hdigit (by decide)
    · intro _
      rw [hc]
      exact List.cons_ne_nil c t
    · have hhead : ((lib.inetNtop4 a).head?.map isDigit).getD false = true := by
        rw [hc]
        exact hdigit
      unfold hostNormalizeName.addr
      rw [if_pos hhead, hdoc.cstr_ntop4 hread, hdoc.aton _ a hread]

theorem name_spec {b host : Bytes} {port schemePort : ℤ} (h91 : b.head? ≠ some 91)
    (h : hostNormalizeName lib b = some (host, port)) :
    58 ∉ host ∧ (host ++ portText schemePort port).head? ≠ some 91 ∧
      (portText schemePort port = [] ∨ ∃ p : ℕ, port = p ∧
        portText schemePort port = 58 :: itostr p ∧ 0 < p ∧ p ≤ 65535 ∧ (p : ℤ) ≠ schemePort) ∧
      hostNormalizeName lib (host ++ portText schemePort port) =
        some (host, if portText schemePort port = [] then 0 else port) := by
  obtain ⟨name, hname58, hname91, hhost, hport, hne⟩ : ∃ name, 58 ∉ name ∧ name.head? ≠ some 91 ∧
      host = hostNormalizeName.addr lib name ∧ (0 ≤ port ∧ port ≤ 65535) ∧
      (port ≠ 0 → name ≠ []) := by
    by_cases h58 : 58 ∈ b
    · obtain ⟨u, v, rfl, hu⟩ := List.eq_append_cons_of_mem h58
      cases u with
      | nil =>
        rw [hostNormalizeName, memchr_append_cons hu] at h
        cases h
      | cons c u =>
        rw [hostNormalizeName_colon (List.cons_ne_nil c u) hu] at h
        obtain ⟨p, hp, heq⟩ := Option.map_eq_some_iff.mp h
        cases heq
        exact ⟨c :: u, hu, by simpa using h91, rfl, hostPort_eq_some hp, fun _ => by simp⟩
    · rw [hostNormalizeName_of_notMem h58] at h
      cases h
      exact ⟨b, h58, h91, rfl, by decide, absurd rfl⟩
  obtain ⟨haddr58, haddr91, haddrne, haddr⟩ := addr_spec hdoc hname58 hname91
  rw [← hhost] at haddr58 haddr91 haddrne haddr
  have htext := portText_cases schemePort hport.1 hport.2
  refine ⟨haddr58, ?_, htext, ?_⟩
  · rcases htext with htext | ⟨p, -, htext, -⟩ <;> rw [htext]
    · rwa [List.append_nil]
    · cases host with
      | nil => simp
      | cons c host => exact haddr91
  · rcases htext with htext | ⟨p, rfl, htext, hp, hle, -⟩ <;> rw [htext]
    · rw [List.append_nil, if_pos rfl, hostNormalizeName_of_notMem haddr58, haddr]
    · rw [if_neg (List.cons_ne_nil _ _), hostNormalizeName_colon (haddrne (hne (by omega))) haddr58,
        hostPort_itostr hp hle, haddr]
      rfl

end Name

section Bracket

variable (hdoc : lib.Documented)
include hdoc

theorem BracketForm.again (h : BracketForm lib w iface rest a port) (schemePort : ℤ) :
    BracketForm lib (lib.inetNtop6 a) iface (portText schemePort port) a
      (if portText schemePort port = [] then 0 else port) := by
  obtain ⟨hne, hchars⟩ := hdoc.ntop6 _ a h.read
  have hnot : ∀ {c : UInt8}, ¬ (isXDigit c = true ∨ c = 58 ∨ c = 46) → c ∉ lib.inetNtop6 a :=
    fun hc hmem => hc (hchars _ hmem)
  have h0 : 0 ∉ lib.inetNtop6 a := hnot (by decide)
  have h37 : 37 ∉ lib.inetNtop6 a := hnot (by decide)
  have hport := h.port_le
  have htext := portText_cases schemePort hport.1 hport.2
  refine ⟨?_, ?_, ?_, ?_⟩
  · rw [cstr_of_notMem h0]
    exact hdoc.pton6 _ a h.read
  · rcases h.percent with ⟨hnil, -⟩ | ⟨hiface, -, -, hlength⟩
    · refine .inl ⟨hnil, strchr_of_notMem ?_⟩
      rcases htext with htext | ⟨p, -, htext, -⟩ <;> rw [htext]
      · simp [h37]
      · simp [h37, notMem_itostr (p := p) (c := 37) (by decide)]
    · exact .inr ⟨hiface, h37, h0, hlength⟩
  · simp [hne]
  · rcases htext with htext | ⟨p, rfl, htext, hp, hle, -⟩ <;> rw [htext]
    · exact .inl ⟨rfl, if_pos rfl⟩
    · rw [if_neg (List.cons_ne_nil _ _)]
      refine .inr ⟨itostr p, rfl, hostPort_itostr hp hle, ?_, getLast?_port_ne p⟩
      rcases h.behind with ⟨-, hzero⟩ | ⟨ps, -, -, h93, -⟩
      · omega
      · have h93ntop : 93 ∉ lib.inetNtop6 a := hnot (by decide)
        simp only [List.mem_append, not_or] at h93 ⊢
        exact ⟨h93ntop, h93.2⟩

end Bracket

theorem httpRequestHostNormalize_again (hdoc : lib.Documented)
    (h : httpRequestHostNormalize lib b schemePort = some b') :
    httpRequestHostNormalize lib b' schemePort = some b' := by
  obtain ⟨host, port, hread, rfl⟩ := httpRequestHostNormalize_eq_some_iff.mp h
  have htext : portText schemePort (if portText schemePort port = [] then 0 else port) =
      portText schemePort port := by
    split_ifs with hnil
    · rw [hnil]
      rfl
    · rfl
  rw [httpRequestHostNormalize_eq_some_iff]
  refine ⟨host, _, ?_, by rw [htext]⟩
  by_cases h91 : b.head? = some 91
  · rw [if_neg (not_not.mpr h91)] at hread
    obtain ⟨t, rfl⟩ := List.head?_eq_some_iff.mp h91
    obtain ⟨w, iface, rest, a, -, hform, rfl⟩ := exists_bracketForm hread
    have hagain := (hform.again hdoc schemePort).hostNormalizeBracket_eq
    have hshape : 91 :: lib.inetNtop6 a ++ iface ++ [93] ++ portText schemePort port =
        91 :: (lib.inetNtop6 a ++ iface ++ 93 :: portText schemePort port) := by simp
    rw [hshape, if_neg (by simp)]
    exact hagain
  · rw [if_pos h91] at hread
    obtain ⟨-, hhead, -, hagain⟩ := @name_spec _ hdoc _ _ _ schemePort h91 hread
    rw [if_pos hhead]
    exact hagain

/-! ## The colon outside the brackets -/

theorem eq_of_append_colon {u' v v' : Bytes} (hu : 58 ∉ u) (hv : 58 ∉ v)
    (h : u ++ 58 :: v = u' ++ 58 :: v') : v' = v := by
  have hu' : 58 ∉ u' := by
    intro hmem
    obtain ⟨w, x, rfl, hw⟩ := List.eq_append_cons_of_mem hmem
    rw [List.append_assoc, List.cons_append] at h
    refine hv ?_
    rw [(append_cons_inj hu hw h).2]
    simp
  exact (append_cons_inj hu hu' h).2.symm

/-- A colon in a host that has none, with its port behind it, is the one before the port. -/
theorem port_of_colon {host u v : Bytes} {port schemePort : ℤ} (hhost : 58 ∉ host)
    (htext : portText schemePort port = [] ∨ ∃ p : ℕ, port = p ∧
      portText schemePort port = 58 :: itostr p ∧ 0 < p ∧ p ≤ 65535 ∧ (p : ℤ) ≠ schemePort)
    (h : host ++ portText schemePort port = u ++ 58 :: v) :
    ∃ p : ℕ, v = itostr p ∧ 0 < p ∧ p ≤ 65535 ∧ (p : ℤ) ≠ schemePort := by
  rcases htext with htext | ⟨p, -, htext, hp⟩
  · rw [htext, List.append_nil] at h
    exact absurd (by simp [h]) hhost
  · rw [htext] at h
    exact ⟨p, eq_of_append_colon hhost (notMem_itostr (by decide)) h, hp⟩

theorem outsideBrackets_bracket {x : Bytes} (hx : 93 ∉ x) (y : Bytes) :
    outsideBrackets (91 :: (x ++ 93 :: y)) = y := by
  have hall : ∀ c ∈ (91 :: x : Bytes), decide (c ≠ 93) = true := by
    intro c hc
    refine decide_eq_true fun h => ?_
    rcases List.mem_cons.mp hc with hc | hc
    · exact absurd (hc.symm.trans h) (by decide)
    · exact hx (h ▸ hc)
  rw [outsideBrackets, if_pos List.head?_cons, ← List.cons_append,
    List.dropWhile_append_of_pos hall]
  rfl

/-- What follows the first bracket has the colon behind any bracket. -/
theorem mem_of_append_bracket {u' v y : Bytes} (hu' : 93 ∉ u') (h : u ++ 93 :: v = u' ++ 93 :: y)
    (hc : c ∈ v) : c ∈ y := by
  by_cases hu : 93 ∈ u
  · obtain ⟨w, x, rfl, hw⟩ := List.eq_append_cons_of_mem hu
    rw [List.append_assoc, List.cons_append] at h
    rw [← (append_cons_inj hw hu' h).2]
    simp [hc]
  · rwa [← (append_cons_inj hu hu' h).2]

theorem BracketForm.result (h : BracketForm lib w iface rest a port) (schemePort : ℤ) :
    httpRequestHostNormalize lib (91 :: (w ++ iface ++ 93 :: rest)) schemePort =
      some (91 :: (lib.inetNtop6 a ++ iface ++ 93 :: portText schemePort port)) := by
  refine httpRequestHostNormalize_eq_some_iff.mpr
    ⟨91 :: lib.inetNtop6 a ++ iface ++ [93], port, ?_, ?_⟩
  · rw [if_neg (by simp)]
    exact h.hostNormalizeBracket_eq
  · simp

/-- A bracket in the name of an interface ends the brackets, as the one at the end of the host was
taken for it. -/
theorem BracketInInterface.not_port (hdoc : lib.Documented) (h : BracketInInterface lib b)
    (schemePort : ℤ) :
    ∃ b', httpRequestHostNormalize lib b schemePort = some b' ∧
      ¬ ∀ u v, outsideBrackets b' = u ++ 58 :: v →
        ∃ p : ℕ, v = itostr p ∧ 0 < p ∧ p ≤ 65535 ∧ (p : ℤ) ≠ schemePort := by
  obtain ⟨w, u, v, x, a, rfl, h37, h0, hread, hlength⟩ := h
  have hform : BracketForm lib w (37 :: (u ++ 93 :: (v ++ 58 :: x))) [] a 0 :=
    ⟨by rwa [cstr_of_notMem h0], .inr ⟨⟨_, rfl⟩, h37, h0, hlength⟩, by simp, .inl ⟨rfl, rfl⟩⟩
  refine ⟨_, hform.result schemePort, fun hport => ?_⟩
  have hntop : 93 ∉ lib.inetNtop6 a := fun hmem =>
    absurd ((hdoc.ntop6 _ a hread).2 93 hmem) (by decide)
  obtain ⟨u', y, hsplit, hu'⟩ := List.eq_append_cons_of_mem
    (by simp : 93 ∈ (37 :: u ++ 93 :: (v ++ 58 :: x) : Bytes))
  obtain ⟨y₁, y₂, rfl⟩ := List.append_of_mem
    (mem_of_append_bracket hu' hsplit (by simp : (58 : UInt8) ∈ v ++ 58 :: x))
  have hpre : 93 ∉ lib.inetNtop6 a ++ u' := by simp [hntop, hu']
  have houtside : outsideBrackets (91 :: (lib.inetNtop6 a ++ 37 :: (u ++ 93 :: (v ++ 58 :: x)) ++
      93 :: portText schemePort 0)) = y₁ ++ 58 :: (y₂ ++ [93]) := by
    have htext : portText schemePort 0 = [] := by simp [portText]
    have hiface : 37 :: (u ++ 93 :: (v ++ 58 :: x)) = u' ++ 93 :: (y₁ ++ 58 :: y₂) := hsplit
    rw [hiface, htext, ← outsideBrackets_bracket hpre (y₁ ++ 58 :: (y₂ ++ [93]))]
    simp
  obtain ⟨p, hp, -⟩ := hport _ _ houtside
  exact notMem_itostr (p := p) (c := 93) (by decide) (by rw [← hp]; simp)

theorem port_of_not_bracketInInterface (hdoc : lib.Documented) (hbad : ¬ BracketInInterface lib b)
    (h : httpRequestHostNormalize lib b schemePort = some b') :
    ∀ u v, outsideBrackets b' = u ++ 58 :: v →
      ∃ p : ℕ, v = itostr p ∧ 0 < p ∧ p ≤ 65535 ∧ (p : ℤ) ≠ schemePort := by
  obtain ⟨host, port, hread, rfl⟩ := httpRequestHostNormalize_eq_some_iff.mp h
  intro u v houtside
  by_cases h91 : b.head? = some 91
  · rw [if_neg (not_not.mpr h91)] at hread
    obtain ⟨t, rfl⟩ := List.head?_eq_some_iff.mp h91
    obtain ⟨w, iface, rest, a, rfl, hform, rfl⟩ := exists_bracketForm hread
    have hntop : 93 ∉ lib.inetNtop6 a := fun hmem =>
      absurd ((hdoc.ntop6 _ a hform.read).2 93 hmem) (by decide)
    by_cases h93 : 93 ∈ iface
    · -- the bracket at the end was taken for the one that closes the address
      rcases hform.percent with ⟨rfl, -⟩ | ⟨⟨i, rfl⟩, h37, h0, hlength⟩
      · cases h93
      rcases hform.behind with ⟨rfl, rfl⟩ | ⟨ps, -, -, hnot, -⟩
      · obtain ⟨u', y, rfl, hu'⟩ := List.eq_append_cons_of_mem (List.mem_of_ne_of_mem (by decide) h93)
        have hpre : 93 ∉ lib.inetNtop6 a ++ 37 :: u' := by simp [hntop, hu']
        have hy := outsideBrackets_bracket hpre (y ++ [93])
        have hshape : 91 :: lib.inetNtop6 a ++ 37 :: (u' ++ 93 :: y) ++ [93] ++
            portText schemePort 0 = 91 :: (lib.inetNtop6 a ++ 37 :: u' ++ 93 :: (y ++ [93])) := by
          simp [portText]
        rw [hshape, hy] at houtside
        have h58 : 58 ∈ y := by
          have hmem : (58 : UInt8) ∈ y ++ [93] := by rw [houtside]; simp
          simpa using hmem
        obtain ⟨v', x, rfl⟩ := List.append_of_mem h58
        refine absurd ⟨w, u', v', x, a, ?_, h37, h0, ?_, hlength⟩ hbad
        · rfl
        · rw [← cstr_of_notMem h0]
          exact hform.read
      · exact absurd (List.mem_append_right w h93) hnot
    · have hpre : 93 ∉ lib.inetNtop6 a ++ iface := by simp [hntop, h93]
      have hshape : 91 :: lib.inetNtop6 a ++ iface ++ [93] ++ portText schemePort port =
          91 :: (lib.inetNtop6 a ++ iface ++ 93 :: portText schemePort port) := by simp
      have hport := hform.port_le
      rw [hshape, outsideBrackets_bracket hpre] at houtside
      exact @port_of_colon [] _ _ _ _ (by simp) (portText_cases schemePort hport.1 hport.2) houtside
  · rw [if_pos h91] at hread
    obtain ⟨hhost, hhead, htext, -⟩ := @name_spec _ hdoc _ _ _ schemePort h91 hread
    rw [outsideBrackets, if_neg hhead] at houtside
    exact port_of_colon hhost htext houtside

/-- The function meets its contract on the hosts that are not of that kind. -/
theorem hostNormalizeBuffer_iff (lib : AddrLib) (hdoc : lib.Documented) (b : Bytes)
    (schemePort : ℤ) : NormalizesHost lib b schemePort ↔ ¬ BracketInInterface lib b := by
  constructor
  · intro hok hbad
    obtain ⟨b', hsome, hport⟩ := hbad.not_port hdoc schemePort
    have hprop := hok.port
    rw [hostNormalizeBuffer_eq, hsome] at hprop
    exact hport (hprop rfl)
  · intro hbad
    refine ⟨?_, ?_, ?_⟩ <;> rw [hostNormalizeBuffer_eq]
    · intro hsome
      obtain ⟨b', hb'⟩ := Option.isSome_iff_exists.mp hsome
      have hagain := httpRequestHostNormalize_again hdoc hb'
      rw [hostNormalizeBuffer_eq, hb', Option.getD_some, hagain]
      rfl
    · intro hsome
      obtain ⟨b', hb'⟩ := Option.isSome_iff_exists.mp hsome
      rw [hb']
      exact port_of_not_bracketInInterface hdoc hbad hb'
    · intro hnone
      rw [Option.isSome_eq_false_iff, Option.isNone_iff_eq_none] at hnone
      rw [hnone]
      rfl

/-- A library that reads two ways to write the loopback address. -/
def loopbackLib : AddrLib where
  inetAton s := if s = str "127.0.0.1" ∨ s = str "2130706433" then some 0x7f000001 else none
  inetPton6 s :=
    if s = str "::1" ∨ s = str "0:0:0:0:0:0:0:1" then
      some #v[0, 0, 0, 0, 0, 0, 0, 0, 0, 0, 0, 0, 0, 0, 0, 1]
    else none
  inetNtop4 _ := str "127.0.0.1"
  inetNtop6 _ := str "::1"

theorem loopbackLib_documented : loopbackLib.Documented where
  aton s a h := by
    change (if s = _ ∨ s = _ then some _ else none) = some a at h
    split_ifs at h
    cases h
    rfl
  ntop4 s a _ := by
    change (∃ c t, str "127.0.0.1" = c :: t ∧ isDigit c) ∧
      ∀ c ∈ str "127.0.0.1", isDigit c ∨ c = 46
    have hall : (str "127.0.0.1").all (fun c => decide (isDigit c ∨ c = 46)) = true := by decide
    refine ⟨⟨49, (str "127.0.0.1").tail, by decide, by decide⟩, fun c hc => ?_⟩
    exact of_decide_eq_true (List.all_eq_true.mp hall c hc)
  pton6 s a h := by
    change (if s = _ ∨ s = _ then some _ else none) = some a at h
    split_ifs at h
    cases h
    rfl
  ntop6 s a _ := by
    change str "::1" ≠ [] ∧ ∀ c ∈ str "::1", isXDigit c ∨ c = 58 ∨ c = 46
    have hall : (str "::1").all (fun c => decide (isXDigit c ∨ c = 58 ∨ c = 46)) = true := by
      decide
    exact ⟨by decide, fun c hc => of_decide_eq_true (List.all_eq_true.mp hall c hc)⟩

theorem hostNormalizeBuffer_loopback :
    hostNormalizeBuffer loopbackLib (str "[0:0:0:0:0:0:0:1]:0x50") 443 = (true, str "[::1]:80") ∧
      (NormalizesHost loopbackLib (str "[0:0:0:0:0:0:0:1]:0x50") 443 ↔
        ¬ BracketInInterface loopbackLib (str "[0:0:0:0:0:0:0:1]:0x50")) :=
  ⟨by decide, hostNormalizeBuffer_iff loopbackLib loopbackLib_documented _ 443⟩

/-- `[::1%]:99999]` -/
theorem hostNormalizeBuffer_bracket :
    ¬ ∀ (lib : AddrLib), lib.Documented → ∀ (b : Bytes) (schemePort : ℤ),
      NormalizesHost lib b schemePort := by
  intro h
  have hbad : BracketInInterface loopbackLib (str "[::1%]:99999]") :=
    ⟨str "::1", [], [], str "99999", #v[0, 0, 0, 0, 0, 0, 0, 0, 0, 0, 0, 0, 0, 0, 0, 1],
      by decide, by decide, by decide, by decide, by decide⟩
  obtain ⟨b', hsome, hport⟩ := hbad.not_port loopbackLib_documented 80
  have hprop := (h loopbackLib loopbackLib_documented (str "[::1%]:99999]") 80).port
  rw [hostNormalizeBuffer_eq, hsome] at hprop
  exact hport (hprop rfl)

end Lighttpd
