import Lighttpd.Buffer
import Lighttpd.Lib.PartialRuns
import Lighttpd.SsiScan

/-!
# Reading a page with server-side includes

`mod_ssi_read_fd` reads a page piece by piece into a buffer, appends the text to the response and
passes on the directives. Text behind a directive stays in the buffer with `pretag` at its start,
and when the next piece is read the scan goes over the buffer from its first byte again: over the
directive that was passed on already, with a length for the text before it that is below zero.
`modSsiReadFd_scans` says that all is well while `pretag` is 0 before every read.

What `mod_ssi_parse_ssi_stmt` does to the connection and the context is a parameter, and so is
`if_is_false`.
-/

namespace Lighttpd

open CString

/-! ## The loop over reads -/

/-- The size of the buffer. -/
def ssiBufsz : ℕ := 8192

/-- `<!--#` -/
def ssiMarker : Bytes := [60, 33, 45, 45, 35]

/-- A call of `chunkqueue_append_mem` or of `mod_ssi_parse_ssi_stmt`. -/
inductive SsiCall
  | append (mem : Bytes)
  | stmt (s : Bytes)
  deriving DecidableEq, Repr

/-- The variables of `mod_ssi_read_fd` between two reads: the first `offset` bytes of the buffer,
`pretag`, the context and the connection in one, and the calls so far. -/
structure SsiReader (σ : Type*) where
  ctx : σ
  buf : Bytes
  pretag : ℕ
  calls : List SsiCall
  deriving DecidableEq

/-- The reader before the first read. -/
def ssiReaderInit {σ : Type*} (ctx : σ) : SsiReader σ := ⟨ctx, [], 0, []⟩

/-- The NULs that `mod_ssi_parse_ssi_stmt` writes behind its tokens. -/
def ssiSplit (s : Bytes) : Bytes :=
  match modSsiParseSsiStmtOfflen s with
  | none => s
  | some o =>
    o.foldl (fun s x => s.set (if IsMark (s.getD x.1 0) then x.1 + x.2 - 1 else x.1 + x.2) 0) s

section Reading

variable {σ : Type*} (isFalse : σ → Bool) (parse : σ → Bytes → σ)

/-- The text from `pretag` up to an index is appended unless output is off; `none` if the length is
larger than what is in the buffer. -/
def SsiReader.flush (r : SsiReader σ) (upto : ℕ) : Option (SsiReader σ) :=
  let len := sizeSub upto r.pretag
  if len = 0 ∨ isFalse r.ctx then some r
  else if r.pretag + len ≤ r.buf.length then
    some { r with calls := r.calls ++ [.append ((r.buf.drop r.pretag).take len)] }
  else none

/-- A directive of length `len` at `prelen` is passed on. -/
def SsiReader.pass (r : SsiReader σ) (prelen len : ℕ) : SsiReader σ :=
  let s := (r.buf.drop prelen).take len
  { ctx := parse r.ctx s
    buf := r.buf.take prelen ++ (ssiSplit s ++ r.buf.drop (prelen + len))
    pretag := prelen + len
    calls := r.calls ++ [.stmt s] }

/-- The text for a directive that is too long, with what may be the start of its end. -/
def ssiTooLong (buf : Bytes) : List SsiCall :=
  .append (str "<!-- [an error occurred: directive too long] ") ::
    if [45, 45] <:+ buf then [.append (str "--")]
    else if [45] <:+ buf then [.append (str "-")]
    else []

/-- The loop over `<` in the buffer, from `prelen` on. It moves on by a byte at least each time. -/
def ssiScan : ℕ → SsiReader σ → ℕ → Option (SsiReader σ)
  | 0, r, _ => some r
  | fuel + 1, r, prelen =>
    match memchr (r.buf.drop prelen) 60 with
    | none => some r
    | some i =>
      let prelen := prelen + i
      let s := r.buf.drop prelen
      if prelen + 5 ≤ r.buf.length then
        if s.take 5 ≠ ssiMarker then ssiScan fuel r (prelen + 1)
        else
          (r.flush isFalse prelen).bind fun r =>
            let len := modSsiStmtLen s
            if len ≠ 0 then
              let r := r.pass parse prelen len
              if r.pretag = r.buf.length then some { r with buf := [], pretag := 0 }
              else ssiScan fuel r (prelen + len)
            else if prelen = 0 ∧ r.buf.length = ssiBufsz then
              some { r with calls := r.calls ++ ssiTooLong r.buf, buf := [], pretag := 0 }
            else some { r with buf := s, pretag := 0 }
      else if s <+: ssiMarker then
        (r.flush isFalse prelen).map fun r => { r with buf := s, pretag := 0 }
      else ssiScan fuel r (prelen + 1)

/-- One round of the loop, with what was read. -/
def ssiReadStep (r : SsiReader σ) (chunk : Bytes) : Option (SsiReader σ) :=
  let r := { r with buf := r.buf ++ chunk }
  (ssiScan isFalse parse (r.buf.length + 1) r 0).bind fun r =>
    if r.buf.length = ssiBufsz then
      (r.flush isFalse r.buf.length).map fun r => { r with buf := [], pretag := 0 }
    else some r

/-- `mod_ssi_read_fd` with what `read` returns: the context and the calls. -/
def modSsiReadFd (ctx : σ) (reads : List Bytes) : Option (σ × List SsiCall) :=
  ((PartialRuns.run (ssiReadStep isFalse parse) reads (ssiReaderInit ctx)).bind fun r =>
    r.flush isFalse r.buf.length).map fun r => (r.ctx, r.calls)

/-- What `read` can return: something, and no more than there is room for. -/
def ReadFits (r : SsiReader σ) (chunk : Bytes) : Prop :=
  chunk ≠ [] ∧ r.buf.length + chunk.length ≤ ssiBufsz

instance (r : SsiReader σ) (chunk : Bytes) : Decidable (ReadFits r chunk) :=
  inferInstanceAs (Decidable (_ ∧ _))

end Reading

/-- A byte of text, a directive, or what is left behind a start without an end. -/
inductive SsiPart
  | byte (b : UInt8)
  | stmt (s : Bytes)
  | rest (s : Bytes)
  deriving DecidableEq, Repr

/-- The parts of a page. -/
def ssiParts : Bytes → List SsiPart
  | [] => []
  | b :: s =>
    if ssiMarker <+: b :: s then
      if modSsiStmtLen (b :: s) = 0 then [.rest (b :: s)]
      else
        .stmt ((b :: s).take (modSsiStmtLen (b :: s))) ::
          ssiParts ((b :: s).drop (modSsiStmtLen (b :: s)))
    else .byte b :: ssiParts s
termination_by s => s.length
decreasing_by all_goals (simp only [List.length_drop, List.length_cons]; omega)

/-- Shorter than the buffer. -/
def SsiPart.Fits : SsiPart → Prop
  | .byte _ => True
  | .stmt s => s.length < ssiBufsz
  | .rest s => s.length < ssiBufsz

/-- A byte appended to the response, or a directive passed on. -/
inductive SsiEvent
  | byte (b : UInt8)
  | stmt (s : Bytes)
  deriving DecidableEq, Repr

/-- What a call does. -/
def SsiCall.events : SsiCall → List SsiEvent
  | .append mem => mem.map .byte
  | .stmt s => [.stmt s]

section Events

variable {σ : Type*} (isFalse : σ → Bool) (parse : σ → Bytes → σ)

/-- Text goes out unless output is off. -/
def ssiText (ctx : σ) (t : Bytes) : List SsiEvent := if isFalse ctx then [] else t.map .byte

/-- What is to be done about the parts of a page. -/
def ssiEvents (ctx : σ) : List SsiPart → List SsiEvent
  | [] => []
  | .byte b :: ps => ssiText isFalse ctx [b] ++ ssiEvents ctx ps
  | .stmt s :: ps => .stmt s :: ssiEvents (parse ctx s) ps
  | .rest s :: ps => ssiText isFalse ctx s ++ ssiEvents ctx ps

end Events

/-! ## A directive in a part of the page -/

variable {f : StmtFlags} {s t page : Bytes} {n : ℕ}

theorem stmtLenFrom_bounds (h : stmtLenFrom f s n ≠ 0) :
    n + 3 ≤ stmtLenFrom f s n ∧ stmtLenFrom f s n ≤ n + s.length := by
  induction s generalizing f n with
  | nil => exact absurd rfl h
  | cons b s ih =>
    simp only [stmtLenFrom] at h ⊢
    split_ifs at h ⊢ with hend
    · have := congrArg List.length hend.2.2.2
      simp only [List.length_take, List.length_cons, List.length_nil] at this ⊢
      omega
    · have := ih h
      rw [List.length_cons]
      omega

theorem stmtLenFrom_append (h : stmtLenFrom f s n ≠ 0) (t : Bytes) :
    stmtLenFrom f (s ++ t) n = stmtLenFrom f s n := by
  induction s generalizing f n with
  | nil => exact absurd rfl h
  | cons b s ih =>
    simp only [List.cons_append, stmtLenFrom] at h ⊢
    by_cases hend : b = 45 ∧ f.sq = false ∧ f.dq = false ∧ s.take 2 = [45, 62]
    · have h2 : 2 ≤ s.length := by
        have := congrArg List.length hend.2.2.2
        simp only [List.length_take, List.length_cons, List.length_nil] at this
        omega
      rw [if_pos hend, if_pos ⟨hend.1, hend.2.1, hend.2.2.1, by
        rw [List.take_append_of_le_length h2, hend.2.2.2]⟩]
    · rw [if_neg hend] at h ⊢
      have hbounds := stmtLenFrom_bounds h
      rw [if_neg, ih h]
      rwa [List.take_append_of_le_length (by omega)]

theorem stmtLenFrom_of_append (h : stmtLenFrom f (s ++ t) n ≠ 0)
    (hle : stmtLenFrom f (s ++ t) n ≤ n + s.length) :
    stmtLenFrom f s n = stmtLenFrom f (s ++ t) n := by
  induction s generalizing f n with
  | nil =>
    have := stmtLenFrom_bounds h
    simp only [List.length_nil] at hle
    omega
  | cons b s ih =>
    simp only [List.cons_append, stmtLenFrom, List.length_cons] at h hle ⊢
    by_cases hend : b = 45 ∧ f.sq = false ∧ f.dq = false ∧ (s ++ t).take 2 = [45, 62]
    · rw [if_pos hend] at hle ⊢
      have hlen : 2 ≤ s.length := by omega
      rw [if_pos ⟨hend.1, hend.2.1, hend.2.2.1, by
        rw [← hend.2.2.2, List.take_append_of_le_length hlen]⟩]
    · rw [if_neg hend] at h hle ⊢
      rw [ih h (by omega), if_neg]
      rintro ⟨hb, hs, hd, htake⟩
      have h2 : 2 ≤ s.length := by
        have := congrArg List.length htake
        simp only [List.length_take, List.length_cons, List.length_nil] at this
        omega
      exact hend ⟨hb, hs, hd, by rw [List.take_append_of_le_length h2, htake]⟩

theorem modSsiStmtLen_bounds (h : modSsiStmtLen s ≠ 0) :
    8 ≤ modSsiStmtLen s ∧ modSsiStmtLen s ≤ s.length := by
  have := stmtLenFrom_bounds h
  rw [List.length_drop] at this
  unfold modSsiStmtLen
  omega

theorem modSsiStmtLen_append (h : modSsiStmtLen s ≠ 0) (t : Bytes) :
    modSsiStmtLen (s ++ t) = modSsiStmtLen s := by
  have hbounds := modSsiStmtLen_bounds h
  unfold modSsiStmtLen at h ⊢
  rw [List.drop_append_of_le_length (by omega), stmtLenFrom_append h]

theorem modSsiStmtLen_of_append (h : modSsiStmtLen (s ++ t) ≠ 0)
    (hle : modSsiStmtLen (s ++ t) ≤ s.length) : modSsiStmtLen s = modSsiStmtLen (s ++ t) := by
  have h5 : 5 ≤ s.length := by
    have := modSsiStmtLen_bounds h
    omega
  unfold modSsiStmtLen at h hle ⊢
  rw [List.drop_append_of_le_length h5] at h hle ⊢
  exact stmtLenFrom_of_append h (by rw [List.length_drop]; omega)

theorem ssiParts_text {u : Bytes} (h : ∀ i < t.length, ¬ ssiMarker <+: (t ++ u).drop i) :
    ssiParts (t ++ u) = t.map .byte ++ ssiParts u := by
  induction t with
  | nil => rfl
  | cons b t ih =>
    have h0 : ¬ ssiMarker <+: b :: (t ++ u) := h 0 (by simp)
    rw [List.cons_append, ssiParts, if_neg h0, ih fun i hi => h (i + 1) (by simpa using hi)]
    rfl

theorem ssiParts_stmt (h : ssiMarker <+: s) (hlen : modSsiStmtLen s ≠ 0) :
    ssiParts s = .stmt (s.take (modSsiStmtLen s)) :: ssiParts (s.drop (modSsiStmtLen s)) := by
  rcases s with _ | ⟨b, s⟩
  · exact absurd rfl hlen
  · rw [ssiParts, if_pos h, if_neg hlen]

theorem ssiParts_rest (h : ssiMarker <+: s) (hlen : modSsiStmtLen s = 0) :
    ssiParts s = [.rest s] := by
  rcases s with _ | ⟨b, s⟩
  · exact absurd h (by decide)
  · rw [ssiParts, if_pos h, if_pos hlen]

/-! ## One scan -/

section Scan

variable {σ : Type*} {isFalse : σ → Bool} {parse : σ → Bytes → σ}

theorem ssiText_append (ctx : σ) (t u : Bytes) :
    ssiText isFalse ctx (t ++ u) = ssiText isFalse ctx t ++ ssiText isFalse ctx u := by
  unfold ssiText
  split_ifs <;> simp

theorem ssiEvents_text (ctx : σ) (t : Bytes) (ps : List SsiPart) :
    ssiEvents isFalse parse ctx (t.map .byte ++ ps) =
      ssiText isFalse ctx t ++ ssiEvents isFalse parse ctx ps := by
  induction t with
  | nil => unfold ssiText; simp
  | cons b t ih =>
    rw [List.map_cons, List.cons_append, ssiEvents, ih, ← List.append_assoc, ← ssiText_append]
    rfl

/-- No directive starts from one index of the buffer up to another, when `page` follows. -/
def NoMarker (buf page : Bytes) (i j : ℕ) : Prop :=
  ∀ k, i ≤ k → k < j → ¬ ssiMarker <+: (buf ++ page).drop k

theorem NoMarker.trans {buf page : Bytes} {i j k : ℕ} (h : NoMarker buf page i j)
    (h' : NoMarker buf page j k) : NoMarker buf page i k := fun l hi hk =>
  if hj : l < j then h l hi hj else h' l (by omega) hk

variable {buf : Bytes} {i prelen upto : ℕ} {r : SsiReader σ} {calls : List SsiCall}

theorem NoMarker.singleton (h : ¬ ssiMarker <+: (buf ++ page).drop i) :
    NoMarker buf page i (i + 1) := fun k hi hj => by
  obtain rfl : k = i := by omega
  exact h

theorem lt_prefix_of_marker {k : ℕ} (hk : k < buf.length) (h : ssiMarker <+: (buf ++ page).drop k) :
    [60] <+: buf.drop k := by
  rw [List.drop_append_of_le_length hk.le, List.drop_eq_getElem_cons hk, List.cons_append] at h
  rw [List.drop_eq_getElem_cons hk]
  obtain ⟨h60, -⟩ := List.cons_prefix_cons.mp h
  rw [← h60]
  exact List.prefix_append [60] _

theorem noMarker_of_memchr (h : memchr (buf.drop prelen) 60 = some i) (page : Bytes) :
    prelen + i < buf.length ∧ NoMarker buf page prelen (prelen + i) := by
  obtain ⟨-, ⟨t, ht⟩, hmin⟩ := search_eq_some_iff.mp h
  have hlt : prelen + i < buf.length := by
    have := congrArg List.length ht
    simp only [List.length_append, List.length_cons, List.length_drop] at this
    omega
  refine ⟨hlt, fun k hk hki hmark => hmin (k - prelen) (by omega) ?_⟩
  rw [List.drop_drop, Nat.add_sub_cancel' hk]
  exact lt_prefix_of_marker (by omega) hmark

theorem noMarker_of_memchr_none (h : memchr (buf.drop prelen) 60 = none) (page : Bytes) :
    NoMarker buf page prelen buf.length := by
  intro k hk hki hmark
  refine search_eq_none_iff.mp h (k - prelen) ?_
  rw [List.drop_drop, Nat.add_sub_cancel' hk]
  exact lt_prefix_of_marker hki hmark

theorem NoMarker.ssiParts {j : ℕ} (h : NoMarker buf page i j) (hij : i ≤ j) (hj : j ≤ buf.length) :
    ssiParts (buf.drop i ++ page) =
      ((buf.drop i).take (j - i)).map .byte ++ ssiParts (buf.drop j ++ page) := by
  have hsplit : buf.drop i ++ page =
      (buf.drop i).take (j - i) ++ (buf.drop j ++ page) := by
    rw [← List.append_assoc]
    congr 1
    conv_lhs => rw [← List.take_append_drop (j - i) (buf.drop i), List.drop_drop,
      Nat.add_sub_cancel' hij]
  rw [hsplit, ssiParts_text]
  intro k hk
  rw [← hsplit, ← List.drop_append_of_le_length (by omega), List.drop_drop]
  refine h (i + k) (by omega) ?_
  rw [List.length_take, List.length_drop] at hk
  omega

/-- What was done and what is to be done when `page` follows the buffer. -/
def SsiReader.total (isFalse : σ → Bool) (parse : σ → Bytes → σ) (r : SsiReader σ) (page : Bytes) :
    List SsiEvent :=
  r.calls.flatMap SsiCall.events ++
    ssiEvents isFalse parse r.ctx (ssiParts (r.buf.drop r.pretag ++ page))

/-- Every directive that is still to come fits into the buffer. -/
def SsiReader.Fits (r : SsiReader σ) (page : Bytes) : Prop :=
  ∀ p ∈ ssiParts (r.buf.drop r.pretag ++ page), p.Fits

theorem flush_eq (isFalse : σ → Bool) (hle : r.pretag ≤ upto) (hupto : upto ≤ r.buf.length)
    (hbuf : r.buf.length ≤ ssiBufsz) :
    ∃ calls, r.flush isFalse upto = some { r with calls := calls } ∧
      calls.flatMap SsiCall.events = r.calls.flatMap SsiCall.events ++
        ssiText isFalse r.ctx ((r.buf.drop r.pretag).take (upto - r.pretag)) := by
  have hlen : sizeSub upto r.pretag = upto - r.pretag :=
    sizeSub_of_le hle (by unfold ssiBufsz at hbuf; omega)
  unfold SsiReader.flush ssiText
  rw [hlen]
  by_cases hskip : upto - r.pretag = 0 ∨ isFalse r.ctx
  · refine ⟨r.calls, by simp only [if_pos hskip], ?_⟩
    rcases hskip with h0 | hf
    · simp [h0]
    · simp [hf]
  · obtain ⟨-, hf⟩ := not_or.mp hskip
    simp only [if_neg hskip, if_pos (show r.pretag + (upto - r.pretag) ≤ r.buf.length by omega)]
    exact ⟨_, rfl, by simp [SsiCall.events, hf]⟩

/-- Behind text that was appended the buffer starts where it ends. -/
theorem flush_total (hno : NoMarker r.buf page r.pretag upto) (hle : r.pretag ≤ upto)
    (hupto : upto ≤ r.buf.length)
    (hcalls : calls.flatMap SsiCall.events = r.calls.flatMap SsiCall.events ++
      ssiText isFalse r.ctx ((r.buf.drop r.pretag).take (upto - r.pretag))) (buf : Bytes)
    (hbuf : buf = r.buf.drop upto) :
    SsiReader.total isFalse parse { r with calls := calls, buf := buf, pretag := 0 } page =
      r.total isFalse parse page := by
  subst hbuf
  unfold SsiReader.total
  rw [hno.ssiParts hle hupto, ssiEvents_text, hcalls, List.append_assoc]
  rfl

theorem length_ssiSplit (s : Bytes) : (ssiSplit s).length = s.length := by
  unfold ssiSplit
  split
  · rfl
  · rename_i o h
    clear h
    induction o generalizing s with
    | nil => rfl
    | cons x o ih => rw [List.foldl_cons, ih, List.length_set]

theorem pass_buf (parse : σ → Bytes → σ) {len : ℕ} (h : prelen + len ≤ r.buf.length) :
    (r.pass parse prelen len).buf.length = r.buf.length ∧
      (r.pass parse prelen len).buf.drop (prelen + len) = r.buf.drop (prelen + len) := by
  have htake : (r.buf.take prelen).length = prelen := by rw [List.length_take]; omega
  have hsplit : (ssiSplit ((r.buf.drop prelen).take len)).length = len := by
    rw [length_ssiSplit, List.length_take, List.length_drop]
    omega
  constructor
  · simp only [SsiReader.pass, List.length_append, htake, hsplit, List.length_drop]
    omega
  · simp only [SsiReader.pass]
    rw [← List.append_assoc, List.drop_left' (by rw [List.length_append, htake, hsplit])]

/-- What holds when a scan is over. -/
structure ScanDone (isFalse : σ → Bool) (parse : σ → Bytes → σ) (page : Bytes)
    (r r' : SsiReader σ) : Prop where
  le : r'.pretag ≤ r'.buf.length
  short : r'.buf.length ≤ ssiBufsz
  total : r'.total isFalse parse page = r.total isFalse parse page
  fits : r'.Fits page
  full : r'.buf.length = ssiBufsz → NoMarker r'.buf page r'.pretag r'.buf.length
  inert : ∀ ctx, ssiEvents isFalse parse ctx (ssiParts (r'.buf.drop r'.pretag)) =
    ssiText isFalse ctx (r'.buf.drop r'.pretag)

theorem ssiEvents_inert (h : NoMarker t [] 0 t.length) (ctx : σ) :
    ssiEvents isFalse parse ctx (ssiParts t) = ssiText isFalse ctx t := by
  have hparts := h.ssiParts (Nat.zero_le _) le_rfl
  simp only [List.drop_zero, List.append_nil, Nat.sub_zero, List.take_length, List.drop_length]
    at hparts
  rw [hparts, ssiParts, ← List.append_nil (ssiText isFalse ctx t), ssiEvents_text]
  rfl

theorem ScanDone.of_notFound (h : memchr (r.buf.drop prelen) 60 = none)
    (hle : r.pretag ≤ r.buf.length) (hbuf : r.buf.length ≤ ssiBufsz)
    (hno : NoMarker r.buf page r.pretag prelen) (hfits : r.Fits page) :
    ScanDone isFalse parse page r r := by
  have hall := hno.trans (noMarker_of_memchr_none h page)
  refine ⟨hle, hbuf, rfl, hfits, fun _ => hall, ssiEvents_inert fun k _ hk hmark => ?_⟩
  rw [List.length_drop] at hk
  refine hall (r.pretag + k) (by omega) (by omega) ?_
  rw [List.append_nil, List.drop_drop] at hmark
  rw [List.drop_append_of_le_length (by omega)]
  exact hmark.trans (List.prefix_append _ _)

/-- The text before `upto` was appended, and the rest waits at the start of the buffer. -/
theorem ScanDone.of_kept (hno : NoMarker r.buf page r.pretag upto) (hle : r.pretag ≤ upto)
    (hupto : upto ≤ r.buf.length)
    (hcalls : calls.flatMap SsiCall.events = r.calls.flatMap SsiCall.events ++
      ssiText isFalse r.ctx ((r.buf.drop r.pretag).take (upto - r.pretag))) (hfits : r.Fits page)
    (hshort : (r.buf.drop upto).length < ssiBufsz)
    (hinert : ∀ ctx, ssiEvents isFalse parse ctx (ssiParts (r.buf.drop upto)) =
      ssiText isFalse ctx (r.buf.drop upto)) :
    ScanDone isFalse parse page r { r with calls := calls, buf := r.buf.drop upto, pretag := 0 } := by
  refine ⟨Nat.zero_le _, hshort.le, flush_total hno hle hupto hcalls _ rfl, fun p hp => ?_,
    fun h => absurd h hshort.ne, hinert⟩
  refine hfits p ?_
  rw [hno.ssiParts hle hupto]
  exact List.mem_append_right _ hp

theorem pass_total (hno : NoMarker r.buf page r.pretag upto) (hle : r.pretag ≤ upto)
    (hupto : upto ≤ r.buf.length)
    (hcalls : calls.flatMap SsiCall.events = r.calls.flatMap SsiCall.events ++
      ssiText isFalse r.ctx ((r.buf.drop r.pretag).take (upto - r.pretag)))
    (hmark : ssiMarker <+: r.buf.drop upto) (hlen : modSsiStmtLen (r.buf.drop upto) ≠ 0)
    (hfits : r.Fits page) :
    (SsiReader.pass parse { r with calls := calls } upto
        (modSsiStmtLen (r.buf.drop upto))).total isFalse parse page = r.total isFalse parse page ∧
      (SsiReader.pass parse { r with calls := calls } upto
        (modSsiStmtLen (r.buf.drop upto))).Fits page := by
  have hbounds := modSsiStmtLen_bounds hlen
  set n := modSsiStmtLen (r.buf.drop upto) with hn
  rw [List.length_drop] at hbounds
  have hbuf : upto + n ≤ { r with calls := calls }.buf.length := by simp only; omega
  obtain ⟨-, hdrop⟩ := pass_buf parse hbuf
  have happ : modSsiStmtLen (r.buf.drop upto ++ page) = n := modSsiStmtLen_append hlen page
  have hparts : ssiParts (r.buf.drop r.pretag ++ page) =
      ((r.buf.drop r.pretag).take (upto - r.pretag)).map .byte ++
        .stmt ((r.buf.drop upto).take n) :: ssiParts (r.buf.drop (upto + n) ++ page) := by
    rw [hno.ssiParts hle hupto, ssiParts_stmt (hmark.trans (List.prefix_append _ _)) (by omega),
      happ, List.take_append_of_le_length (by rw [List.length_drop]; omega),
      List.drop_append_of_le_length (by rw [List.length_drop]; omega), List.drop_drop]
  constructor
  · unfold SsiReader.total
    rw [hparts, ssiEvents_text]
    simp only [SsiReader.pass] at hdrop ⊢
    rw [hdrop, List.flatMap_append, hcalls]
    simp [ssiEvents, SsiCall.events]
  · intro p hp
    refine hfits p ?_
    rw [hparts]
    simp only [SsiReader.pass] at hdrop hp
    rw [hdrop] at hp
    exact List.mem_append_right _ (List.mem_cons_of_mem _ hp)

/-- A directive that fits into the buffer is complete in a full one. -/
theorem lt_of_incomplete (hmark : ssiMarker <+: buf) (hlen : modSsiStmtLen buf = 0) (page : Bytes)
    (hfits : ∀ p ∈ ssiParts (buf ++ page), p.Fits) : buf.length < ssiBufsz := by
  have hmark' : ssiMarker <+: buf ++ page := hmark.trans (List.prefix_append _ _)
  by_cases h0 : modSsiStmtLen (buf ++ page) = 0
  · have hrest : (buf ++ page).length < ssiBufsz := hfits (.rest (buf ++ page)) (by
      rw [ssiParts_rest hmark' h0]
      exact List.mem_singleton_self _)
    rw [List.length_append] at hrest
    omega
  · have hstmt : ((buf ++ page).take (modSsiStmtLen (buf ++ page))).length < ssiBufsz :=
      hfits (.stmt _) (by
        rw [ssiParts_stmt hmark' h0]
        exact List.mem_cons_self)
    rw [List.length_take, min_eq_left (modSsiStmtLen_bounds h0).2] at hstmt
    by_contra hlong
    exact h0 (hlen ▸ (modSsiStmtLen_of_append h0 (by omega)).symm)

/-- A scan of the buffer from text that holds no start of a directive, up to `prelen`. -/
theorem ssiScan_spec (page : Bytes) (fuel : ℕ) (hfuel : r.buf.length < prelen + fuel)
    (hle : r.pretag ≤ prelen) (hpre : prelen ≤ r.buf.length) (hbuf : r.buf.length ≤ ssiBufsz)
    (hno : NoMarker r.buf page r.pretag prelen) (hfits : r.Fits page) :
    ∃ r', ssiScan isFalse parse fuel r prelen = some r' ∧ ScanDone isFalse parse page r r' := by
  induction fuel generalizing r prelen with
  | zero => omega
  | succ fuel ih =>
    rw [ssiScan]
    rcases hmem : memchr (r.buf.drop prelen) 60 with _ | i
    · exact ⟨r, rfl, .of_notFound hmem (hle.trans hpre) hbuf hno hfits⟩
    obtain ⟨hlt, hno'⟩ := noMarker_of_memchr hmem page
    replace hno := hno.trans hno'
    simp only
    generalize hupto : prelen + i = upto at hlt hno' hno ⊢
    have hdrop : (r.buf ++ page).drop upto = r.buf.drop upto ++ page :=
      List.drop_append_of_le_length hlt.le
    have hslen : (r.buf.drop upto).length = r.buf.length - upto := List.length_drop
    -- the next `<`
    have hnext : ¬ ssiMarker <+: r.buf.drop upto ++ page →
        ∃ r', ssiScan isFalse parse fuel r (upto + 1) = some r' ∧
          ScanDone isFalse parse page r r' := fun hnot =>
      ih (by omega) (by omega) (by omega) hbuf (hno.trans (.singleton (by rwa [hdrop]))) hfits
    have hle' : r.pretag ≤ upto := by omega
    obtain ⟨calls, hflush, hcalls⟩ := flush_eq isFalse hle' hlt.le hbuf
    by_cases h5 : upto + 5 ≤ r.buf.length
    · rw [if_pos h5]
      have htake : (r.buf.drop upto ++ page).take 5 = (r.buf.drop upto).take 5 :=
        List.take_append_of_le_length (by omega)
      have hmark : ssiMarker <+: r.buf.drop upto ++ page ↔ (r.buf.drop upto).take 5 = ssiMarker := by
        rw [List.prefix_iff_eq_take, ← htake]
        exact eq_comm
      by_cases hm : (r.buf.drop upto).take 5 = ssiMarker
      · have hm' : ssiMarker <+: r.buf.drop upto := by
          rw [← hm]
          exact List.take_prefix _ _
        rw [if_neg (not_not.mpr hm), hflush, Option.bind_some]
        simp only
        by_cases hlen : modSsiStmtLen (r.buf.drop upto) = 0
        · have hshort : (r.buf.drop upto).length < ssiBufsz := by
            by_contra hlong
            have h0 : upto = 0 := by omega
            have hp0 : r.pretag = 0 := by omega
            refine hlong (lt_of_incomplete hm' hlen page fun p hp => hfits p ?_)
            rwa [hp0, ← h0]
          rw [if_neg (not_not.mpr hlen), if_neg fun hfull => ?_]
          · refine ⟨_, rfl, .of_kept hno (by omega) hlt.le hcalls hfits hshort fun ctx => ?_⟩
            rw [ssiParts_rest hm' hlen, ssiEvents, ssiEvents, List.append_nil]
          · rw [hfull.1, List.drop_zero] at hshort
            exact hshort.ne hfull.2
        · rw [if_pos hlen]
          have hbounds := modSsiStmtLen_bounds hlen
          obtain ⟨htotal, hfits'⟩ := pass_total hno (by omega) hlt.le hcalls hm' hlen hfits
          have hpass : upto + modSsiStmtLen (r.buf.drop upto) ≤
              { r with calls := calls }.buf.length := by simp only; omega
          obtain ⟨hlen', -⟩ := pass_buf parse hpass
          simp only at hlen'
          set r' := SsiReader.pass parse { r with calls := calls } upto
            (modSsiStmtLen (r.buf.drop upto)) with hr'
          have hpretag : r'.pretag = upto + modSsiStmtLen (r.buf.drop upto) := rfl
          by_cases hend : r'.pretag = r'.buf.length
          · rw [if_pos hend]
            have hrest : r'.buf.drop r'.pretag = [] := by rw [hend, List.drop_length]
            refine ⟨_, rfl, Nat.zero_le _, Nat.zero_le _, ?_, ?_, fun h => absurd h (by simp [ssiBufsz]),
              ssiEvents_inert fun k _ hk => absurd hk (Nat.not_lt_zero k)⟩
            · rw [← htotal]
              simp only [SsiReader.total, hrest]
              rfl
            · intro p hp
              refine hfits' p ?_
              rwa [hrest]
          · rw [if_neg hend]
            have hle' : r'.buf.length < upto + modSsiStmtLen (r.buf.drop upto) + fuel := by omega
            obtain ⟨r'', hscan, hdone⟩ := ih hle' hpretag.le (by omega) (by omega)
              (fun k _ hk => absurd hk (by omega)) hfits'
            exact ⟨r'', hscan, hdone.le, hdone.short, hdone.total.trans htotal, hdone.fits,
              hdone.full, hdone.inert⟩
      · rw [if_pos hm]
        exact hnext (mt hmark.mp hm)
    · rw [if_neg h5]
      by_cases hpart : r.buf.drop upto <+: ssiMarker
      · rw [if_pos hpart, hflush, Option.map_some]
        refine ⟨_, rfl, .of_kept hno (by omega) hlt.le hcalls hfits (by unfold ssiBufsz; omega)
          (ssiEvents_inert fun k _ hk hmark => ?_)⟩
        have := hmark.length_le
        simp only [List.append_nil, List.length_drop, ssiMarker, List.length_cons,
          List.length_nil] at this
        omega
      · rw [if_neg hpart]
        refine hnext fun hmark => hpart ?_
        exact List.prefix_of_prefix_length_le (List.prefix_append _ _) hmark
          (by simp only [ssiMarker, List.length_cons, List.length_nil]; omega)

/-- What holds between two reads when `page` is still to come. -/
structure ReaderReady (isFalse : σ → Bool) (parse : σ → Bytes → σ) (page : Bytes)
    (r : SsiReader σ) : Prop where
  le : r.pretag ≤ r.buf.length
  short : r.buf.length < ssiBufsz
  fits : r.Fits page
  inert : ∀ ctx, ssiEvents isFalse parse ctx (ssiParts (r.buf.drop r.pretag)) =
    ssiText isFalse ctx (r.buf.drop r.pretag)

theorem ssiReadStep_spec {chunk : Bytes} (hr : ReaderReady isFalse parse (chunk ++ page) r)
    (hread : ReadFits r chunk) (hpretag : r.pretag = 0) :
    ∃ r', ssiReadStep isFalse parse r chunk = some r' ∧ ReaderReady isFalse parse page r' ∧
      r'.total isFalse parse page = r.total isFalse parse (chunk ++ page) := by
  have hbuf : (r.buf ++ chunk).length ≤ ssiBufsz := by
    rw [List.length_append]
    exact hread.2
  have hfits : SsiReader.Fits { r with buf := r.buf ++ chunk } page := by
    intro p hp
    refine hr.fits p ?_
    rw [hpretag, List.drop_zero] at hp ⊢
    rwa [← List.append_assoc]
  have hscan0 : ∃ r', ssiScan isFalse parse ((r.buf ++ chunk).length + 1)
      { r with buf := r.buf ++ chunk } 0 = some r' ∧
        ScanDone isFalse parse page { r with buf := r.buf ++ chunk } r' :=
    ssiScan_spec page _ (by simp) hpretag.le (Nat.zero_le _) hbuf
      (fun k _ hk => absurd hk (Nat.not_lt_zero k)) hfits
  obtain ⟨r', hscan, hdone⟩ := hscan0
  have htotal : r'.total isFalse parse page = r.total isFalse parse (chunk ++ page) := by
    rw [hdone.total]
    simp only [SsiReader.total, hpretag, List.drop_zero, List.append_assoc]
  unfold ssiReadStep
  simp only [hscan, Option.bind_some]
  by_cases hfull : r'.buf.length = ssiBufsz
  · rw [if_pos hfull]
    obtain ⟨calls, hflush, hcalls⟩ := flush_eq isFalse hdone.le le_rfl hdone.short
    have hno := hdone.full hfull
    rw [hflush, Option.map_some]
    refine ⟨_, rfl, ⟨Nat.zero_le _, by simp [ssiBufsz], fun p hp => ?_,
      ssiEvents_inert fun k _ hk => absurd hk (Nat.not_lt_zero k)⟩, ?_⟩
    · refine hdone.fits p ?_
      rw [hno.ssiParts hdone.le le_rfl, List.drop_length]
      exact List.mem_append_right _ hp
    · rw [flush_total hno hdone.le le_rfl hcalls [] (List.drop_length).symm, htotal]
  · rw [if_neg hfull]
    exact ⟨r', rfl, ⟨hdone.le, lt_of_le_of_ne hdone.short hfull, hdone.fits, hdone.inert⟩, htotal⟩

theorem ssiReads_spec {reads : List Bytes}
    (hr : ReaderReady isFalse parse (reads.flatten ++ page) r)
    (hreads : PartialRuns.Throughout (ssiReadStep isFalse parse) ReadFits reads r)
    (hpretag : PartialRuns.Throughout (ssiReadStep isFalse parse) (fun r _ => r.pretag = 0) reads r) :
    ∃ r', PartialRuns.run (ssiReadStep isFalse parse) reads r = some r' ∧
      ReaderReady isFalse parse page r' ∧
      r'.total isFalse parse page = r.total isFalse parse (reads.flatten ++ page) := by
  induction reads generalizing r with
  | nil => exact ⟨r, rfl, hr, rfl⟩
  | cons chunk reads ih =>
    rw [List.flatten_cons, List.append_assoc] at hr ⊢
    obtain ⟨r₁, h₁, hr₁, htotal₁⟩ := ssiReadStep_spec hr hreads.1 hpretag.1
    obtain ⟨r', hrun, hr', htotal⟩ := ih hr₁ (hreads.2 r₁ h₁) (hpretag.2 r₁ h₁)
    exact ⟨r', PartialRuns.run_cons.mpr ⟨r₁, h₁, hrun⟩, hr', htotal.trans htotal₁⟩

/-- While `pretag` is 0 before every read, the text between the directives of a page is appended
once and in order, and every directive is passed on once. -/
theorem modSsiReadFd_scans {ctx : σ} {reads : List Bytes}
    (hfits : ∀ p ∈ ssiParts reads.flatten, p.Fits)
    (hreads : PartialRuns.Throughout (ssiReadStep isFalse parse) ReadFits reads (ssiReaderInit ctx))
    (hpretag : PartialRuns.Throughout (ssiReadStep isFalse parse) (fun r _ => r.pretag = 0) reads
      (ssiReaderInit ctx)) :
    ∃ ctx' calls, modSsiReadFd isFalse parse ctx reads = some (ctx', calls) ∧
      calls.flatMap SsiCall.events = ssiEvents isFalse parse ctx (ssiParts reads.flatten) := by
  have hinit : ReaderReady isFalse parse (reads.flatten ++ []) (ssiReaderInit ctx) := by
    refine ⟨le_rfl, by simp [ssiBufsz, ssiReaderInit], fun p hp => hfits p ?_,
      ssiEvents_inert fun k _ hk => absurd hk (Nat.not_lt_zero k)⟩
    rwa [List.append_nil] at hp
  obtain ⟨r, hrun, hr, htotal⟩ := ssiReads_spec hinit hreads hpretag
  obtain ⟨calls, hflush, hcalls⟩ := flush_eq isFalse hr.le le_rfl hr.short.le
  refine ⟨r.ctx, calls, ?_, ?_⟩
  · rw [modSsiReadFd, hrun, Option.bind_some, hflush, Option.map_some]
  · rw [hcalls, List.take_of_length_le (by rw [List.length_drop]), ← hr.inert]
    have h := htotal
    simp only [SsiReader.total, List.append_nil] at h
    exact h

end Scan

/-- In a page that is shorter than the buffer every directive is. -/
theorem fits_of_length_lt (h : page.length < ssiBufsz) : ∀ p ∈ ssiParts page, p.Fits := by
  induction page using ssiParts.induct with
  | case1 => simp [ssiParts]
  | case2 b s hmark hlen =>
    rw [ssiParts_rest hmark hlen]
    exact fun p hp => by rwa [List.mem_singleton.mp hp]
  | case3 b s hmark hlen ih =>
    rw [ssiParts_stmt hmark hlen]
    intro p hp
    rcases List.mem_cons.mp hp with rfl | hp
    · exact lt_of_le_of_lt (List.length_take_le' _ _) h
    · exact ih (by rw [List.length_drop]; omega) p hp
  | case4 b s hmark ih =>
    rw [ssiParts, if_neg hmark]
    intro p hp
    rcases List.mem_cons.mp hp with rfl | hp
    · trivial
    · exact ih (by rw [List.length_cons] at h; omega) p hp

/-- `a<!-`, then `-#x-->`. -/
theorem modSsiReadFd_scans_marker :
    ∃ ctx calls, modSsiReadFd (fun _ : Unit => false) (fun _ _ => ()) () [str "a<!-", str "-#x-->"] =
        some (ctx, calls) ∧
      calls.flatMap SsiCall.events = ssiEvents (fun _ : Unit => false) (fun _ _ => ()) ()
        (ssiParts (str "a<!--#x-->")) := by
  have h₁ : ssiReadStep (fun _ : Unit => false) (fun _ _ => ()) (ssiReaderInit ()) (str "a<!-") =
      some ⟨(), str "<!-", 0, [.append [97]]⟩ := by decide
  have hfits : ∀ p ∈ ssiParts [str "a<!-", str "-#x-->"].flatten, p.Fits :=
    fits_of_length_lt (by decide)
  refine modSsiReadFd_scans hfits ⟨by decide, fun r hr => ?_⟩ ⟨rfl, fun r hr => ?_⟩
  · obtain rfl := Option.some.inj (h₁.symm.trans hr)
    exact ⟨by decide, fun _ _ => trivial⟩
  · obtain rfl := Option.some.inj (h₁.symm.trans hr)
    exact ⟨rfl, fun _ _ => trivial⟩

/-- `<!--#x-->a`, then `b`: the scan meets the directive again, and the length of the text before it
is -9. -/
theorem not_modSsiReadFd_scans :
    ¬ ∀ (σ : Type) (isFalse : σ → Bool) (parse : σ → Bytes → σ) (ctx : σ) (reads : List Bytes),
      (∀ p ∈ ssiParts reads.flatten, p.Fits) →
      PartialRuns.Throughout (ssiReadStep isFalse parse) ReadFits reads (ssiReaderInit ctx) →
      ∃ ctx' calls, modSsiReadFd isFalse parse ctx reads = some (ctx', calls) ∧
        calls.flatMap SsiCall.events = ssiEvents isFalse parse ctx (ssiParts reads.flatten) := by
  intro h
  have h₁ : ssiReadStep (fun _ : Unit => false) (fun _ _ => ()) (ssiReaderInit ())
      (str "<!--#x-->a") = some ⟨(), str "<!--#x" ++ 0 :: str "->a", 9, [.stmt (str "<!--#x-->")]⟩ := by decide
  obtain ⟨ctx, calls, hread, -⟩ := h Unit (fun _ => false) (fun _ _ => ()) ()
    [str "<!--#x-->a", str "b"] (fits_of_length_lt (by decide)) ⟨by decide, fun r hr => by
      obtain rfl := Option.some.inj (h₁.symm.trans hr)
      exact ⟨by decide, fun _ _ => trivial⟩⟩
  exact absurd hread (by rw [show modSsiReadFd (fun _ : Unit => false) (fun _ _ => ()) ()
    [str "<!--#x-->a", str "b"] = none by decide]; simp)

end Lighttpd
