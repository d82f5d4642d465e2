import Lighttpd.EvhostHost
import Lighttpd.ResponsePrepare

/-!
# Document roots from patterns

`mod_evhost` takes a pattern apart into texts and `%` sequences, and puts the document root together
from them and the parts of the host. `EvhostToken` says what the pieces of a pattern are and
`EvhostToken.expand` what they stand for; the document root is the expansion of the pattern, with
a slash at its end (`modEvhostUriHandler_expands`). Nothing is put behind an empty expansion, or
behind a slash.
-/

namespace Lighttpd

open CString

/-- The length of the `%` sequence at the start of a text; `none` when there is no such sequence. -/
def evhostSequence (s : Bytes) : Option ℕ :=
  let c := fun i => s.getD i 0
  if c 1 = 37 ∨ c 1 = 95 ∨ isDigit (c 1) then some 2
  else if c 1 = 123 then
    if ¬ isDigit (c 2) then none
    else if c 3 = 46 then
      if ¬ isDigit (c 4) then none
      else if c 5 ≠ 125 then none
      else some 6
    else if c 3 = 125 then some 4
    else none
  else none

/-- The loop over the pattern, in `fuel` turns at most, with the text since the last sequence. -/
def evhostPatternLoop : ℕ → Bytes → Bytes → Option (List Bytes)
  | 0, _, _ => none
  | _ + 1, text, [] => some (if text = [] then [] else [text])
  | fuel + 1, text, c :: s =>
    if c = 37 then
      match evhostSequence (c :: s) with
      | none => none
      | some len =>
        (evhostPatternLoop fuel [] ((c :: s).drop len)).map fun pieces =>
          text :: (c :: s).take len :: pieces
    else evhostPatternLoop fuel (text ++ [c]) s

/-- `mod_evhost_parse_pattern` -/
def modEvhostParsePattern (raw : Bytes) : Option (List Bytes) :=
  evhostPatternLoop ((cstr raw).length + 1) [] (cstr raw)

/-- What is appended to the document root for a piece. -/
def evhostPieceText (authority : Bytes) (host : DataArray Buffer) (piece : Bytes) : Bytes :=
  let c := fun i => piece.getD i 0
  if c 0 = 37 then
    if c 1 = 37 then [37]
    else if c 1 = 95 then
      match strchr authority 58 with
      | none => authority
      | some colon => authority.take colon
    else if c 1 = 123 then
      match arrayGetElementKlen host [37, c 2] with
      | some ds =>
        if c 3 ≠ 46 ∨ c 4 = 48 then ds.value.string
        else
          let n := (c 4).toNat - 48
          if n ≤ ds.value.string.length then (ds.value.string.drop (n - 1)).take 1 else []
      | none => []
    else
      match arrayGetElementKlen host piece with
      | some ds => ds.value.string
      | none => []
  else piece

/-- `mod_evhost_uri_handler` on `physical.doc_root`, up to assertions of the array; `isDir` is what
`stat_cache_get_entry` says. -/
def modEvhostUriHandler (pieces : List Bytes) (authority : Buffer) (isDir : Bytes → Bool)
    (docRoot : Buffer) : Option Buffer :=
  if bufferStringIsEmpty authority then some docRoot
  else if pieces.length = 0 then some docRoot
  else
    (modEvhostParseHost authority.string).map fun host =>
      let root := bufferAppendSlash (pieces.flatMap (evhostPieceText authority.string host))
      if isDir root then some root else docRoot

/-! ## Patterns -/

/-- A digit. -/
def digitByte (k : Fin 10) : UInt8 := 48 + UInt8.ofNat k.val

/-- A piece of a pattern : a byte of a text, `%%`, `%_`, `%k`, `%{k}` or `%{k.c}`. -/
inductive EvhostToken
  | char (c : UInt8) (h : c ≠ 37 ∧ c ≠ 0)
  | percent
  | host
  | label (k : Fin 10)
  | braced (k : Fin 10) (c : Option (Fin 10))
  deriving DecidableEq

namespace EvhostToken

/-- How a piece is written. -/
def render : EvhostToken → Bytes
  | .char c _ => [c]
  | .percent => [37, 37]
  | .host => [37, 95]
  | .label k => [37, digitByte k]
  | .braced k none => [37, 123, digitByte k, 125]
  | .braced k (some c) => [37, 123, digitByte k, 46, digitByte c, 125]

/-- What a piece stands for. -/
def expand (auth : EvhostAuthority) : EvhostToken → Bytes
  | .char c _ => [c]
  | .percent => [37]
  | .host => auth.host
  | .label k => (auth.value k).getD []
  | .braced k none => (auth.value k).getD []
  | .braced k (some c) =>
    if c = 0 then (auth.value k).getD []
    else ((auth.value k).bind fun value => value[c.val - 1]?).toList

/-- The piece is not a byte of a text. -/
def isSequence : EvhostToken → Bool
  | .char _ _ => false
  | _ => true

end EvhostToken

theorem isDigit_digitByte (k : Fin 10) : isDigit (digitByte k) = true := by
  revert k
  decide

theorem digitByte_ne (k : Fin 10) :
    digitByte k ≠ 37 ∧ digitByte k ≠ 95 ∧ digitByte k ≠ 123 ∧ (digitByte k).toNat - 48 = k.val := by
  revert k
  decide

theorem digitByte_eq_iff (k : Fin 10) : digitByte k = 48 ↔ k = 0 := by
  revert k
  decide

theorem itostr_digit (k : Fin 10) : itostr k.val = [digitByte k] := by
  revert k
  decide

variable {c : UInt8} {t : EvhostToken} {text s : Bytes} {host : DataArray Buffer}

theorem exists_digitByte (h : isDigit c = true) : ∃ k, c = digitByte k := by
  rw [isDigit, Bool.and_eq_true, decide_eq_true_eq, decide_eq_true_eq] at h
  have hlo : 48 ≤ c.toNat := h.1
  have hhi : c.toNat ≤ 57 := h.2
  refine ⟨⟨c.toNat - 48, by omega⟩, UInt8.toNat_inj.mp ?_⟩
  have hadd : (48 + UInt8.ofNat (c.toNat - 48)).toNat = c.toNat := by
    rw [UInt8.toNat_add, UInt8.toNat_ofNat']
    simp only [UInt8.reduceToNat]
    omega
  exact hadd.symm

/-! ## The pieces of a pattern -/

/-- The pieces that the loop makes of a pattern behind a text. -/
def evhostPieces (text : Bytes) : List EvhostToken → List Bytes
  | [] => if text = [] then [] else [text]
  | .char c _ :: ts => evhostPieces (text ++ [c]) ts
  | t :: ts => text :: t.render :: evhostPieces [] ts

theorem evhostPieces_sequence (h : t.isSequence = true) (text : Bytes) (ts : List EvhostToken) :
    evhostPieces text (t :: ts) = text :: t.render :: evhostPieces [] ts := by
  cases t with
  | char => cases h
  | percent | host | label | braced => rfl

theorem evhostPieces_ne_nil {ts : List EvhostToken} (h : text ≠ [] ∨ ts ≠ []) :
    evhostPieces text ts ≠ [] := by
  induction ts generalizing text with
  | nil =>
    rw [evhostPieces, if_neg (h.resolve_right fun h => h rfl)]
    exact List.cons_ne_nil _ _
  | cons t ts ih =>
    by_cases hseq : t.isSequence = true
    · rw [evhostPieces_sequence hseq]
      exact List.cons_ne_nil _ _
    · cases t with
      | char c h => exact ih (.inl (by simp))
      | percent | host | label | braced => exact absurd rfl hseq

theorem evhostSequence_render (h : t.isSequence = true) (s : Bytes) :
    evhostSequence (t.render ++ s) = some t.render.length := by
  cases t with
  | char => cases h
  | percent => rfl
  | host => rfl
  | label k => simp [evhostSequence, EvhostToken.render, isDigit_digitByte]
  | braced k c =>
    have hbrace : isDigit 123 = false := by decide
    cases c with
    | none => simp [evhostSequence, EvhostToken.render, isDigit_digitByte, hbrace]
    | some c => simp [evhostSequence, EvhostToken.render, isDigit_digitByte, hbrace]

theorem render_head (h : t.isSequence = true) : ∃ rest, t.render = 37 :: rest := by
  cases t with
  | char => cases h
  | braced k c => cases c with
    | none => exact ⟨_, rfl⟩
    | some c => exact ⟨_, rfl⟩
  | percent | host | label => exact ⟨_, rfl⟩

theorem exists_cons_of_getD (h : s.getD 0 0 = c) (hc : c ≠ 0) : ∃ s', s = c :: s' := by
  cases s with
  | nil => exact absurd h.symm hc
  | cons d s' => exact ⟨s', congrArg (· :: s') h⟩

theorem exists_digit_cons (h : isDigit (s.getD 0 0) = true) : ∃ k s', s = digitByte k :: s' := by
  obtain ⟨k, hk⟩ := exists_digitByte h
  have hne : ∀ k, digitByte k ≠ 0 := by decide
  obtain ⟨s', rfl⟩ := exists_cons_of_getD hk (hne k)
  exact ⟨k, s', rfl⟩

theorem exists_of_evhostSequence {len : ℕ} (h : evhostSequence (37 :: s) = some len) :
    ∃ t : EvhostToken, t.isSequence = true ∧ 37 :: s = t.render ++ (37 :: s).drop len := by
  unfold evhostSequence at h
  simp only [List.getD_cons_succ] at h
  split_ifs at h with h1 hbrace h2 hdot h4 h5 hclose
  · cases h
    rcases h1 with h1 | h1 | h1
    · obtain ⟨s, rfl⟩ := exists_cons_of_getD h1 (by decide)
      exact ⟨.percent, rfl, rfl⟩
    · obtain ⟨s, rfl⟩ := exists_cons_of_getD h1 (by decide)
      exact ⟨.host, rfl, rfl⟩
    · obtain ⟨k, s, rfl⟩ := exists_digit_cons h1
      exact ⟨.label k, rfl, rfl⟩
  · cases h
    obtain ⟨s, rfl⟩ := exists_cons_of_getD hbrace (by decide)
    rw [List.getD_cons_succ] at h2 hdot h4 h5
    obtain ⟨k, s, rfl⟩ := exists_digit_cons h2
    rw [List.getD_cons_succ] at hdot h4 h5
    obtain ⟨s, rfl⟩ := exists_cons_of_getD hdot (by decide)
    rw [List.getD_cons_succ] at h4 h5
    obtain ⟨c, s, rfl⟩ := exists_digit_cons h4
    rw [List.getD_cons_succ] at h5
    obtain ⟨s, rfl⟩ := exists_cons_of_getD (not_not.mp h5) (by decide)
    exact ⟨.braced k (some c), rfl, rfl⟩
  · cases h
    obtain ⟨s, rfl⟩ := exists_cons_of_getD hbrace (by decide)
    rw [List.getD_cons_succ] at h2 hclose
    obtain ⟨k, s, rfl⟩ := exists_digit_cons h2
    rw [List.getD_cons_succ] at hclose
    obtain ⟨s, rfl⟩ := exists_cons_of_getD hclose (by decide)
    exact ⟨.braced k none, rfl, rfl⟩

theorem evhostPatternLoop_render (ts : List EvhostToken) (text : Bytes) {fuel : ℕ}
    (hfuel : (ts.flatMap EvhostToken.render).length < fuel) :
    evhostPatternLoop fuel text (ts.flatMap EvhostToken.render) = some (evhostPieces text ts) := by
  induction ts generalizing text fuel with
  | nil =>
    obtain ⟨n, rfl⟩ := Nat.exists_eq_succ_of_ne_zero (Nat.ne_of_gt hfuel)
    rfl
  | cons t ts ih =>
    obtain ⟨n, rfl⟩ := Nat.exists_eq_succ_of_ne_zero (Nat.ne_of_gt (Nat.zero_lt_of_lt hfuel))
    rw [List.flatMap_cons] at hfuel ⊢
    by_cases hseq : t.isSequence = true
    · obtain ⟨rest, hrest⟩ := render_head hseq
      have hread := evhostSequence_render hseq (ts.flatMap EvhostToken.render)
      have hlen : (ts.flatMap EvhostToken.render).length < n := by
        rw [hrest, List.length_append, List.length_cons] at hfuel
        omega
      rw [evhostPieces_sequence hseq, hrest, List.cons_append, evhostPatternLoop, if_pos rfl]
      rw [hrest, List.cons_append] at hread
      rw [hread]
      dsimp only
      rw [← List.cons_append, List.drop_left, List.take_left, ih [] hlen]
      rfl
    · cases t with
      | char c h =>
        have hlen : (ts.flatMap EvhostToken.render).length < n := by
          rw [EvhostToken.render, List.length_append, List.length_singleton] at hfuel
          omega
        rw [EvhostToken.render, List.singleton_append, evhostPatternLoop, if_neg h.1, ih _ hlen]
        rfl
      | percent | host | label | braced => exact absurd rfl hseq

theorem exists_of_evhostPatternLoop {fuel : ℕ} {pieces : List Bytes}
    (h : evhostPatternLoop fuel text s = some pieces) (hnul : (0 : UInt8) ∉ s) :
    ∃ ts : List EvhostToken, s = ts.flatMap EvhostToken.render := by
  induction fuel generalizing text s pieces with
  | zero => cases h
  | succ fuel ih =>
    cases s with
    | nil => exact ⟨[], rfl⟩
    | cons c s =>
      rw [evhostPatternLoop] at h
      split_ifs at h with hc
      · subst hc
        split at h
        · cases h
        · next len hlen =>
          obtain ⟨t, -, ht⟩ := exists_of_evhostSequence hlen
          obtain ⟨pieces', hpieces, -⟩ := Option.map_eq_some_iff.mp h
          obtain ⟨ts, hts⟩ := ih hpieces fun h0 => hnul (List.mem_of_mem_drop h0)
          exact ⟨t :: ts, by rw [List.flatMap_cons, ← hts, ← ht]⟩
      · obtain ⟨ts, hts⟩ := ih h fun h0 => hnul (List.mem_cons_of_mem c h0)
        have hc0 : c ≠ 0 := fun h0 => hnul (h0 ▸ List.mem_cons_self)
        exact ⟨.char c ⟨hc, hc0⟩ :: ts, by rw [List.flatMap_cons, ← hts]; rfl⟩

theorem evhostPieceText_text {authority : Bytes} (h : (37 : UInt8) ∉ text) :
    evhostPieceText authority host text = text := by
  have hhead : text.getD 0 0 ≠ 37 := by
    cases text with
    | nil => decide
    | cons c text => exact fun hc => h (hc ▸ List.mem_cons_self)
  rw [evhostPieceText]
  dsimp only
  rw [if_neg hhead]

theorem evhostAuthority_notMem_host (auth : EvhostAuthority) (hc : c = 58 ∨ c = 0) :
    c ∉ auth.host := by
  have hall : ∀ ls : List Bytes, (∀ l ∈ ls, c ∉ l) → c ∉ [46].intercalate ls := by
    intro ls hls
    induction ls with
    | nil => simp [List.intercalate_nil]
    | cons l ls ih =>
      have ih := ih fun l' hl' => hls l' (List.mem_cons_of_mem l hl')
      have hl := hls l List.mem_cons_self
      by_cases hne : ls = []
      · rw [hne, List.intercalate_singleton]
        exact hl
      · rw [List.intercalate_cons_of_ne_nil hne]
        have hdot : c ≠ 46 := by rcases hc with rfl | rfl <;> decide
        simp [hl, ih, hdot]
  refine hall _ fun l hl hmem => ?_
  obtain ⟨-, h58, h0⟩ := auth.label l hl c hmem
  exact hc.elim h58 h0

theorem evhost_strchr (auth : EvhostAuthority) :
    (match strchr auth.bytes 58 with
      | none => auth.bytes
      | some colon => auth.bytes.take colon) = auth.host := by
  have h58 := evhostAuthority_notMem_host auth (.inl rfl)
  unfold EvhostAuthority.bytes EvhostAuthority.portText
  cases auth.port with
  | none =>
    dsimp only
    rw [List.append_nil, strchr_of_notMem h58]
  | some p =>
    dsimp only
    rw [strchr_append_cons h58 (evhostAuthority_notMem_host auth (.inr rfl)) (by decide)]
    exact List.take_left

theorem evhostPieceText_render {auth : EvhostAuthority}
    (hhost : ∀ k, (arrayGetElementKlen host (37 :: itostr k)).map (fun ds => ds.value.string) =
      auth.value k) (ht : t.isSequence = true) :
    evhostPieceText auth.bytes host t.render = t.expand auth := by
  have hget : ∀ k : Fin 10, (match arrayGetElementKlen host [37, digitByte k] with
      | some ds => ds.value.string
      | none => []) = (auth.value k).getD [] := fun k => by
    rw [← hhost k.val, itostr_digit]
    cases arrayGetElementKlen host [37, digitByte k] <;> rfl
  cases t with
  | char => cases ht
  | percent => rfl
  | host => exact evhost_strchr auth
  | label k =>
    obtain ⟨h37, h95, h123, -⟩ := digitByte_ne k
    rw [EvhostToken.expand, ← hget k]
    simp [evhostPieceText, EvhostToken.render, h37, h95, h123]
  | braced k c =>
    have hcases := hhost k.val
    rw [itostr_digit] at hcases
    cases c with
    | none =>
      rw [EvhostToken.expand, ← hget k]
      simp [evhostPieceText, EvhostToken.render]
    | some c =>
      have hbraced : evhostPieceText auth.bytes host (EvhostToken.braced k (some c)).render =
          match arrayGetElementKlen host [37, digitByte k] with
          | some ds => if c = 0 then ds.value.string else (ds.value.string[c.val - 1]?).toList
          | none => [] := by
        simp only [evhostPieceText, EvhostToken.render, List.getD_cons_zero, List.getD_cons_succ,
          if_true, digitByte_eq_iff, (digitByte_ne c).2.2.2]
        rw [if_neg (by decide), if_neg (by decide)]
        cases arrayGetElementKlen host [37, digitByte k] with
        | none => rfl
        | some ds =>
          by_cases hc : c = 0
          · simp [hc]
          · have hpos : 0 < c.val := Nat.pos_of_ne_zero fun h => hc (Fin.ext h)
            simp only [hc, ne_eq, not_true_eq_false, or_self, if_false]
            rw [List.take_one, List.head?_drop]
            split_ifs with hle
            · rfl
            · rw [List.getElem?_eq_none (by omega)]
              rfl
      rw [hbraced, EvhostToken.expand, ← hcases]
      cases arrayGetElementKlen host [37, digitByte k] with
      | none => simp
      | some ds => simp

theorem evhostPieces_expand {auth : EvhostAuthority}
    (hhost : ∀ k, (arrayGetElementKlen host (37 :: itostr k)).map (fun ds => ds.value.string) =
      auth.value k) (ts : List EvhostToken) (htext : (37 : UInt8) ∉ text) :
    (evhostPieces text ts).flatMap (evhostPieceText auth.bytes host) =
      text ++ ts.flatMap (EvhostToken.expand auth) := by
  induction ts generalizing text with
  | nil =>
    rw [evhostPieces, List.flatMap_nil, List.append_nil]
    split_ifs with hnil
    · rw [hnil]
      rfl
    · rw [List.flatMap_singleton, evhostPieceText_text htext]
  | cons t ts ih =>
    rw [List.flatMap_cons]
    by_cases hseq : t.isSequence = true
    · rw [evhostPieces_sequence hseq, List.flatMap_cons, List.flatMap_cons,
        evhostPieceText_text htext, evhostPieceText_render hhost hseq, ih List.not_mem_nil,
        List.nil_append]
    · cases t with
      | char c h =>
        have hc : (37 : UInt8) ∉ text ++ [c] := by simp [htext, Ne.symm h.1]
        rw [evhostPieces, ih hc, EvhostToken.expand, List.append_assoc]
      | percent | host | label | braced => exact absurd rfl hseq

/-- A pattern that is accepted is made of pieces, and the document root is what they stand for, with
a slash at the end unless that is empty or ends in one. -/
theorem modEvhostUriHandler_expands {raw : Bytes} {pieces : List Bytes}
    (hparse : modEvhostParsePattern raw = some pieces) (hne : cstr raw ≠ []) :
    (∃ ts : List EvhostToken, cstr raw = ts.flatMap EvhostToken.render) ∧
      ∀ ts : List EvhostToken, cstr raw = ts.flatMap EvhostToken.render →
        ∀ (auth : EvhostAuthority) (isDir : Bytes → Bool) (docRoot : Buffer),
          let root := bufferAppendSlash (ts.flatMap (EvhostToken.expand auth))
          modEvhostUriHandler pieces (some auth.bytes) isDir docRoot =
            some (if isDir root then some root else docRoot) := by
  refine ⟨exists_of_evhostPatternLoop hparse (notMem_cstr raw), fun ts hts auth isDir docRoot => ?_⟩
  have hpieces : evhostPieces [] ts = pieces := by
    rw [modEvhostParsePattern, hts, evhostPatternLoop_render ts [] (Nat.lt_succ_self _)] at hparse
    exact Option.some.inj hparse
  obtain ⟨host, hhost, hvalues⟩ := auth.parseHost
  have hexpand := evhostPieces_expand hvalues ts (List.not_mem_nil : (37 : UInt8) ∉ ([] : Bytes))
  have hlen : pieces.length ≠ 0 := by
    rw [← hpieces]
    refine mt List.length_eq_zero_iff.mp (evhostPieces_ne_nil (Or.inr ?_))
    rintro rfl
    exact hne hts
  have hauth : bufferStringIsEmpty (some auth.bytes) = false :=
    List.isEmpty_eq_false_iff.mpr (List.append_ne_nil_of_left_ne_nil auth.host_ne_nil _)
  rw [hpieces, List.nil_append] at hexpand
  dsimp only
  rw [modEvhostUriHandler, hauth, if_neg Bool.false_ne_true, if_neg hlen,
    show Buffer.string (some auth.bytes) = auth.bytes from rfl, hhost, Option.map_some, hexpand]

/-- An authority with a port. -/
def portAuthority : EvhostAuthority where
  labels := [str "www", str "a", str "org"]
  port := some (str "80")
  labels_ne := by decide
  label_ne := by decide +kernel
  label := by decide +kernel
  port_ne := by decide +kernel

/-- On a pattern of a text and a label. -/
theorem modEvhostUriHandler_expands_label :
    (∃ ts : List EvhostToken, cstr (str "/%3") = ts.flatMap EvhostToken.render) ∧
      ∀ ts : List EvhostToken, cstr (str "/%3") = ts.flatMap EvhostToken.render →
        ∀ (auth : EvhostAuthority) (isDir : Bytes → Bool) (docRoot : Buffer),
          let root := bufferAppendSlash (ts.flatMap (EvhostToken.expand auth))
          modEvhostUriHandler [str "/", str "%3"] (some auth.bytes) isDir docRoot =
            some (if isDir root then some root else docRoot) :=
  have hparse : modEvhostParsePattern (str "/%3") = some [str "/", str "%3"] := by decide +kernel
  modEvhostUriHandler_expands hparse (by decide +kernel)

/-- There is no fourth label, and no slash for it. -/
theorem modEvhostUriHandler_noSlash :
    ¬ ∀ (raw : Bytes) (pieces : List Bytes), modEvhostParsePattern raw = some pieces →
      cstr raw ≠ [] → ∀ ts : List EvhostToken, cstr raw = ts.flatMap EvhostToken.render →
        ∀ (auth : EvhostAuthority) (isDir : Bytes → Bool) (docRoot : Buffer),
          let root := ts.flatMap (EvhostToken.expand auth) ++ [slashChar]
          modEvhostUriHandler pieces (some auth.bytes) isDir docRoot =
            some (if isDir root then some root else docRoot) := by
  intro h
  have hroot := h (str "%4") [[], str "%4"] (by decide +kernel) (by decide +kernel) [.label 4]
    (by decide +kernel) portAuthority (fun _ => true) none
  exact absurd hroot (by decide +kernel)

end Lighttpd
