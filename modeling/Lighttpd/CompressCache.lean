import Mathlib.Logic.Function.Basic
import Lighttpd.Lib.CString
import Lighttpd.Lib.PartialRuns

/-!
# The cache of compressed files

`deflate_file_to_file` makes the file of the cache under its final name and then fills it. A request
that finds a file there, or an entry of this second in the stat cache, takes it as it is, since the
test for a file that is being made looks at the size of the source. The system calls of all requests
for one file and one encoding are the events of a run, in any order.

`compressCache_complete_iff` says in which runs only complete files are served.
-/

namespace Lighttpd

open CString PartialRuns

/-! ## Requests and the file -/

/-- The file under the name `p->ofn`: the request that made it, what it holds, and whether it was
written and closed without an error. -/
structure CacheFile where
  writer : ℕ
  content : Bytes
  closed : Bool
  deriving DecidableEq, Repr

/-- Where a request is in `deflate_file_to_file`: in front of its look-up, in front of `open`,
behind it, or at its end, with `physical.path` switched to the file or left. -/
inductive DeflatePhase
  | lookUp
  | missed
  | writing
  | switched
  | left
  deriving DecidableEq, Repr

/-- The entry of the stat cache for the name: when the file was looked at, and its size then. -/
structure SizeEntry where
  statTs : ℕ
  size : ℕ
  deriving DecidableEq, Repr

/-- The time, the file, the entry of the stat cache, and the requests. -/
structure CompressState where
  curTs : ℕ
  file : Option CacheFile
  entry : Option SizeEntry
  phase : ℕ → DeflatePhase

/-- An event. -/
inductive CompressEvent
  /-- The time goes on. -/
  | tick
  /-- A request for a source of a size looks for the file. -/
  | lookUp (r size : ℕ)
  /-- The load is too high, or there is no directory for the file. -/
  | givesUp (r : ℕ)
  /-- `open` with `O_EXCL`, which succeeds if there is no file, or may not. -/
  | create (r : ℕ) (opens : Bool)
  /-- Some more bytes are written. -/
  | wrote (r n : ℕ)
  /-- All was written, and `close` succeeds. -/
  | finish (r : ℕ)
  /-- The source cannot be read or compressed, or `write` or `close` fails, and the file is
  unlinked, if that succeeds. -/
  | fail (r : ℕ) (unlinks : Bool)
  /-- The file is opened for the response. -/
  | serve (r : ℕ)
  deriving DecidableEq, Repr

/-- `mod_compress_physical` leaves smaller sources as they are. -/
def minSourceSize : ℕ := 128

/-- `deflate_file_to_file` leaves larger ones. -/
def maxSourceSize : ℕ := 128 * 1024 * 1024

namespace CompressState

/-- The size of the file. -/
def fileSize (s : CompressState) : Option ℕ := s.file.map fun f => f.content.length

/-- The size that `stat_cache_get_entry` gives: that of an entry of this second, else that of the
file. -/
def statSize (s : CompressState) : Option ℕ :=
  match s.entry with
  | some e => if e.statTs = s.curTs then some e.size else s.fileSize
  | none => s.fileSize

/-- `stat_cache_get_entry` stores what it finds. -/
def stated (s : CompressState) : CompressState :=
  match s.statSize with
  | some size => { s with entry := some ⟨s.curTs, size⟩ }
  | none => s

/-- The phase of a request is set. -/
def setPhase (s : CompressState) (r : ℕ) (phase : DeflatePhase) : CompressState :=
  { s with phase := Function.update s.phase r phase }

/-- `Content-Length` of a response of `http_response_send_file`: that of the opened file, unless the
stat cache calls it empty. -/
def contentLength (s : CompressState) : Option ℕ :=
  if s.statSize = some 0 then some 0
  else if s.statSize.isSome then s.fileSize
  else none

end CompressState

section

variable (full : ℕ → Bytes)

/-- One event. The bytes that a request writes are `full` of it. -/
def compressStep (s : CompressState) : CompressEvent → Option CompressState
  | .tick => some { s with curTs := s.curTs + 1 }
  | .lookUp r size =>
    if s.phase r ≠ .lookUp then none
    else if size < minSourceSize ∨ maxSourceSize < size then some (s.setPhase r .left)
    -- the test for a file that is being made: it should be for the size in the stat cache
    else if s.statSize.isSome then some (s.stated.setPhase r (if size = 0 then .left else .switched))
    else some (s.setPhase r .missed)
  | .givesUp r => if s.phase r = .missed then some (s.setPhase r .left) else none
  | .create r opens =>
    if s.phase r ≠ .missed then none
    else if opens = false ∨ s.file.isSome then some (s.setPhase r .left)
    else some { s.setPhase r .writing with file := some ⟨r, [], false⟩ }
  | .wrote r n =>
    if s.phase r = .writing then
      some { s with
        file := s.file.map fun f =>
          if f.writer = r then { f with content := (full r).take (f.content.length + n) } else f }
    else none
  | .finish r =>
    match s.file with
    | some f =>
      if s.phase r = .writing ∧ f.writer = r ∧ f.content = full r then
        some { s.setPhase r .switched with file := some { f with closed := true } }
      else none
    | none => none
  | .fail r unlinks =>
    if s.phase r = .writing then
      some { s.setPhase r .left with file := if unlinks then none else s.file }
    else none
  | .serve r => if s.phase r = .switched then some s.stated else none

/-- No file, no entry, and no request in the function. -/
def compressInit : CompressState := ⟨0, none, none, fun _ => .lookUp⟩

/-! ## Complete files -/

/-- The file is there, and it was completely written and closed. -/
def CompressState.Complete (s : CompressState) : Prop :=
  ∃ f, s.file = some f ∧ f.closed = true ∧ f.content = full f.writer

/-- A request that switches to the file, or opens it, has a complete one before it, and the
`Content-Length` is that of all its bytes. -/
def SeesComplete (s : CompressState) : CompressEvent → Prop
  | .lookUp r size =>
    s.phase r = .lookUp → minSourceSize ≤ size → size ≤ maxSourceSize → s.statSize.isSome →
      s.Complete full
  | .serve r => s.phase r = .switched → s.Complete full ∧
      ∀ f, s.file = some f → s.contentLength = some (full f.writer).length
  | _ => True

/-- A request that looks up the file comes when none is being made and none was left incomplete. -/
def LookUpFits (s : CompressState) : CompressEvent → Prop
  | .lookUp r size => s.phase r = .lookUp → minSourceSize ≤ size → size ≤ maxSourceSize →
      ∀ f, s.file = some f → f.closed = true
  | _ => True

/-- What holds between events: a closed file is complete, a writer has its file, a request that
switched has a closed one, and the stat cache has the size of a closed one. -/
structure CacheOk (s : CompressState) : Prop where
  content : ∀ f, s.file = some f → f.closed = true → f.content = full f.writer
  writing : ∀ r, s.phase r = .writing → ∃ f, s.file = some f ∧ f.writer = r ∧ f.closed = false
  switched : ∀ r, s.phase r = .switched → ∃ f, s.file = some f ∧ f.closed = true
  entry : ∀ e, s.entry = some e → ∃ f, s.file = some f ∧ f.closed = true ∧ e.size = f.content.length

variable {full}

variable {s : CompressState}

/-- Between events the stat cache gives the size that the file has. -/
theorem CacheOk.statSize (h : CacheOk full s) : s.statSize = s.fileSize := by
  rw [CompressState.statSize]
  cases hentry : s.entry with
  | none => rfl
  | some e =>
    obtain ⟨f, hf, -, hsize⟩ := h.entry e hentry
    simp only [CompressState.fileSize, hf, Option.map_some, hsize, ite_self]

theorem CacheOk.contentLength (h : CacheOk full s) : s.contentLength = s.fileSize := by
  rw [CompressState.contentLength, h.statSize]
  cases s.fileSize with
  | none => rfl
  | some size => cases size <;> rfl

theorem CacheOk.exists_file (h : CacheOk full s) (hs : s.statSize.isSome) :
    ∃ f, s.file = some f := by
  rw [h.statSize, CompressState.fileSize, Option.isSome_map] at hs
  exact Option.isSome_iff_exists.mp hs

/-- Between events, a request sees a complete file if and only if its look-up fits. -/
theorem seesComplete_iff (h : CacheOk full s) (e : CompressEvent) :
    SeesComplete full s e ↔ LookUpFits s e := by
  cases e with
  | lookUp r size =>
    constructor
    · intro hsees hphase hmin hmax f hf
      have hfound : s.statSize.isSome := by
        rw [h.statSize, CompressState.fileSize, hf]
        rfl
      obtain ⟨g, hg, hclosed, -⟩ := hsees hphase hmin hmax hfound
      obtain rfl := Option.some.inj (hf.symm.trans hg)
      exact hclosed
    · intro hfits hphase hmin hmax hfound
      obtain ⟨f, hf⟩ := h.exists_file hfound
      have hclosed : f.closed = true := hfits hphase hmin hmax f hf
      exact ⟨f, hf, hclosed, h.content f hf hclosed⟩
  | serve r =>
    refine ⟨fun _ => trivial, fun _ hphase => ?_⟩
    obtain ⟨f, hf, hclosed⟩ := h.switched r hphase
    refine ⟨⟨f, hf, hclosed, h.content f hf hclosed⟩, fun g hg => ?_⟩
    obtain rfl := Option.some.inj (hf.symm.trans hg)
    rw [h.contentLength, CompressState.fileSize, hf, ← h.content f hf hclosed]
    rfl
  | tick | givesUp | create | wrote | finish | fail => exact Iff.rfl

theorem phase_setPhase {r q : ℕ} {phase phase' : DeflatePhase}
    (h : (s.setPhase r phase).phase q = phase') :
    q = r ∧ phase = phase' ∨ q ≠ r ∧ s.phase q = phase' := by
  by_cases hqr : q = r
  · subst hqr
    exact .inl ⟨rfl, (Function.update_self ..).symm.trans h⟩
  · exact .inr ⟨hqr, (Function.update_of_ne hqr ..).symm.trans h⟩

/-- A request that does not write, and switches only to a closed file, is as good as before. -/
theorem CacheOk.setPhase (h : CacheOk full s) (r : ℕ) {phase : DeflatePhase} (hw : phase ≠ .writing)
    (hs : phase = .switched → ∃ f, s.file = some f ∧ f.closed = true) :
    CacheOk full (s.setPhase r phase) where
  content := h.content
  writing q hq := by
    obtain ⟨-, hphase⟩ | ⟨-, hphase⟩ := phase_setPhase hq
    · exact absurd hphase hw
    · exact h.writing q hphase
  switched q hq := by
    obtain ⟨-, hphase⟩ | ⟨-, hphase⟩ := phase_setPhase hq
    · exact hs hphase
    · exact h.switched q hphase
  entry := h.entry

theorem file_stated (s : CompressState) : s.stated.file = s.file := by
  rw [CompressState.stated]
  cases s.statSize <;> rfl

theorem CacheOk.stated (h : CacheOk full s) (hclosed : ∀ f, s.file = some f → f.closed = true) :
    CacheOk full s.stated := by
  cases hsize : s.statSize with
  | none =>
    rw [CompressState.stated, hsize]
    exact h
  | some size =>
    rw [CompressState.stated, hsize]
    refine ⟨h.content, h.writing, h.switched, ?_⟩
    rintro e ⟨⟩
    obtain ⟨f, hf, hlength⟩ := Option.map_eq_some_iff.mp (h.statSize.symm.trans hsize)
    exact ⟨f, hf, hclosed f hf, hlength.symm⟩

/-- While a request writes, no other one does, none has switched to the file, and the stat cache does
not know it. -/
theorem CacheOk.alone (h : CacheOk full s) {r : ℕ} (hr : s.phase r = .writing) :
    (∀ q, s.phase q = .writing → q = r) ∧ (∀ q, s.phase q ≠ .switched) ∧ s.entry = none := by
  obtain ⟨f, hf, hwriter, hopen⟩ := h.writing r hr
  have hnot : ¬ ∃ g, s.file = some g ∧ g.closed = true := by
    rintro ⟨g, hg, hclosed⟩
    obtain rfl := Option.some.inj (hf.symm.trans hg)
    rw [hopen] at hclosed
    exact absurd hclosed Bool.false_ne_true
  refine ⟨fun q hq => ?_, fun q hq => hnot (h.switched q hq), ?_⟩
  · obtain ⟨g, hg, hwriter', -⟩ := h.writing q hq
    obtain rfl := Option.some.inj (hf.symm.trans hg)
    exact hwriter'.symm.trans hwriter
  · refine Option.eq_none_iff_forall_ne_some.mpr fun e he => hnot ?_
    obtain ⟨g, hg, hclosed, -⟩ := h.entry e he
    exact ⟨g, hg, hclosed⟩

/-- Where there is no file, no request has one, nor has the stat cache. -/
theorem CacheOk.of_none (h : CacheOk full s) (hnone : s.file = none) :
    (∀ q, s.phase q ≠ .writing) ∧ (∀ q, s.phase q ≠ .switched) ∧ s.entry = none := by
  refine ⟨fun q hq => ?_, fun q hq => ?_, Option.eq_none_iff_forall_ne_some.mpr fun e he => ?_⟩
  · obtain ⟨f, hf, -⟩ := h.writing q hq
    exact absurd (hnone.symm.trans hf) (Option.some_ne_none f).symm
  · obtain ⟨f, hf, -⟩ := h.switched q hq
    exact absurd (hnone.symm.trans hf) (Option.some_ne_none f).symm
  · obtain ⟨f, hf, -⟩ := h.entry e he
    exact absurd (hnone.symm.trans hf) (Option.some_ne_none f).symm

/-- An event whose look-up fits keeps the state of the file and the requests in order. -/
theorem compressStep_ok {s' : CompressState} {e : CompressEvent} (h : CacheOk full s)
    (hfits : LookUpFits s e) (hstep : compressStep full s e = some s') : CacheOk full s' := by
  cases e with
  | tick =>
    obtain rfl := Option.some.inj hstep
    exact ⟨h.content, h.writing, h.switched, h.entry⟩
  | lookUp r size =>
    rw [compressStep] at hstep
    split_ifs at hstep with hphase hsize hfound hzero
    · obtain rfl := Option.some.inj hstep
      exact h.setPhase r (by decide) (by rintro ⟨⟩)
    · -- the source has some size, so the test of the source says nothing
      subst hzero
      exact absurd (.inl (by decide)) hsize
    · obtain ⟨hmin, hmax⟩ := not_or.mp hsize
      obtain rfl := Option.some.inj hstep
      have hclosed := hfits (not_not.mp hphase) (Nat.not_lt.mp hmin) (Nat.not_lt.mp hmax)
      obtain ⟨f, hf⟩ := h.exists_file hfound
      exact (h.stated hclosed).setPhase r (by decide) fun _ =>
        ⟨f, (file_stated s).trans hf, hclosed f hf⟩
    · obtain rfl := Option.some.inj hstep
      exact h.setPhase r (by decide) (by rintro ⟨⟩)
  | givesUp r =>
    rw [compressStep] at hstep
    split_ifs at hstep
    obtain rfl := Option.some.inj hstep
    exact h.setPhase r (by decide) (by rintro ⟨⟩)
  | create r opens =>
    rw [compressStep] at hstep
    split_ifs at hstep with hphase hopen
    · obtain rfl := Option.some.inj hstep
      exact h.setPhase r (by decide) (by rintro ⟨⟩)
    · obtain rfl := Option.some.inj hstep
      -- `O_EXCL`: the file is new, so no request has one
      have hnone : s.file = none := by simpa using fun h' => hopen (.inr h')
      obtain ⟨hwriting, hswitched, hentry⟩ := h.of_none hnone
      refine ⟨?_, fun q hq => ?_, fun q hq => ?_, fun e he => ?_⟩
      · rintro f ⟨⟩ hclosed
        cases hclosed
      · obtain ⟨rfl, -⟩ | ⟨-, hq⟩ := phase_setPhase hq
        · exact ⟨_, rfl, rfl, rfl⟩
        · exact absurd hq (hwriting q)
      · obtain ⟨-, hq⟩ | ⟨-, hq⟩ := phase_setPhase hq
        · cases hq
        · exact absurd hq (hswitched q)
      · exact absurd (hentry.symm.trans he) (Option.some_ne_none e).symm
  | wrote r n =>
    rw [compressStep] at hstep
    split_ifs at hstep with hphase
    obtain rfl := Option.some.inj hstep
    obtain ⟨f, hf, hwriter, hopen⟩ := h.writing r hphase
    obtain ⟨halone, hswitched, hentry⟩ := h.alone hphase
    refine ⟨?_, fun q hq => ?_, fun q hq => absurd hq (hswitched q), fun e he => ?_⟩
    · intro g hg hclosed
      simp only [hf, Option.map_some, Option.some.injEq, hwriter, if_true] at hg
      rw [← hg, hopen] at hclosed
      exact absurd hclosed Bool.false_ne_true
    · obtain rfl := halone q hq
      refine ⟨{ f with content := (full q).take (f.content.length + n) }, ?_, hwriter, hopen⟩
      simp only [hf, Option.map_some, hwriter, if_true]
    · exact absurd (hentry.symm.trans he) (Option.some_ne_none e).symm
  | finish r =>
    rcases hf : s.file with _ | f
    · simp only [compressStep, hf] at hstep
      cases hstep
    · simp only [compressStep, hf] at hstep
      split_ifs at hstep with hwrote
      obtain ⟨hphase, hwriter, hcontent⟩ := hwrote
      obtain rfl := Option.some.inj hstep
      obtain ⟨halone, -, hentry⟩ := h.alone hphase
      refine ⟨?_, fun q hq => ?_, fun q hq => ⟨_, rfl, rfl⟩, fun e he => ?_⟩
      · rintro g ⟨⟩ -
        exact hcontent.trans (congrArg full hwriter.symm)
      · obtain ⟨-, hq⟩ | ⟨hqr, hq⟩ := phase_setPhase hq
        · cases hq
        · exact absurd (halone q hq) hqr
      · exact absurd (hentry.symm.trans he) (Option.some_ne_none e).symm
  | fail r unlinks =>
    by_cases hphase : s.phase r = .writing
    · rw [compressStep, if_pos hphase] at hstep
      obtain rfl := Option.some.inj hstep
      obtain ⟨halone, hswitched, hentry⟩ := h.alone hphase
      cases unlinks with
      | false => exact h.setPhase r (by decide) (by rintro ⟨⟩)
      | true =>
        refine ⟨by rintro f ⟨⟩, fun q hq => ?_, fun q hq => ?_, fun e he => ?_⟩
        · obtain ⟨-, hq⟩ | ⟨hqr, hq⟩ := phase_setPhase hq
          · cases hq
          · exact absurd (halone q hq) hqr
        · obtain ⟨-, hq⟩ | ⟨-, hq⟩ := phase_setPhase hq
          · cases hq
          · exact absurd hq (hswitched q)
        · exact absurd (hentry.symm.trans he) (Option.some_ne_none e).symm
    · rw [compressStep, if_neg hphase] at hstep
      cases hstep
  | serve r =>
    rw [compressStep] at hstep
    split_ifs at hstep with hphase
    obtain rfl := Option.some.inj hstep
    obtain ⟨f, hf, hclosed⟩ := h.switched r hphase
    refine h.stated fun g hg => ?_
    obtain rfl := Option.some.inj (hf.symm.trans hg)
    exact hclosed

variable (full) in
/-- In a run only complete files are switched to and served, with their length, if and only if
every look-up fits: no file is being made then or was left incomplete. -/
theorem compressCache_complete_iff (events : List CompressEvent) :
    Throughout (compressStep full) (SeesComplete full) events compressInit ↔
      Throughout (compressStep full) LookUpFits events compressInit := by
  have hinit : CacheOk full compressInit :=
    ⟨by rintro f ⟨⟩, by rintro r ⟨⟩, by rintro r ⟨⟩, by rintro e ⟨⟩⟩
  generalize compressInit = s at hinit ⊢
  induction events generalizing s with
  | nil => exact Iff.rfl
  | cons e events ih =>
    rw [Throughout, Throughout, seesComplete_iff hinit]
    refine and_congr_right fun hfits => ?_
    refine forall₂_congr fun s' hstep => ?_
    exact ih s' (compressStep_ok hinit hfits hstep)

/-- A second request looks for the file behind the `open` of the first one. -/
def lookUpMeanwhile : List CompressEvent :=
  [.lookUp 0 1000, .create 0 true, .lookUp 1 1000, .serve 1]

/-- It switches to the file and is answered with nothing of its hundred bytes. -/
theorem not_seesComplete :
    (∃ s, run (compressStep fun _ => List.replicate 100 0) (lookUpMeanwhile.take 3) compressInit =
      some s ∧ s.phase 1 = .switched ∧ s.contentLength = some 0) ∧
    ¬ Throughout (compressStep fun _ => List.replicate 100 0)
      (SeesComplete fun _ => List.replicate 100 0) lookUpMeanwhile compressInit := by
  refine ⟨⟨_, rfl, rfl, rfl⟩, fun h => ?_⟩
  have hlook := throughout_iff.mp h [.lookUp 0 1000, .create 0 true] (.lookUp 1 1000) [.serve 1]
    rfl _ rfl
  obtain ⟨f, hf, hclosed, -⟩ := hlook rfl (by decide) (by decide) rfl
  obtain rfl := Option.some.inj hf
  cases hclosed

end

end Lighttpd
