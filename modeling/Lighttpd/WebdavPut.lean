import Lighttpd.Chunkqueue
import Lighttpd.Lib.PartialRuns

/-!
# The body of a WebDAV PUT

The PUT branch of `mod_webdav_subrequest_handler_huge` without `Content-Range` opens the file, with
the status of a success, and then writes the chunks of `request_content_queue` to it, as long as
`write` returns a positive number. What the system calls of an iteration do is an argument of the
step.

`modWebdavPut_storesBody_iff` says when a PUT that reports success has stored its body.
-/

namespace Lighttpd

open CString PartialRuns

/-- A chunk with the bytes of its file in front of its part, `file.start` of them, and whether the
first `file.length` bytes of the file are mapped. -/
structure BodyChunk extends Chunk where
  before : Bytes
  mapped : Bool
  deriving DecidableEq, Repr

/-- The first `file.length` bytes of the file. -/
def BodyChunk.mapping (c : BodyChunk) : Bytes := (c.before ++ c.data).take c.data.length

/-- The bytes of chunks that are not written yet. -/
def bodyContent (cs : List BodyChunk) : Bytes := content (cs.map BodyChunk.toChunk)

/-- The loop of `chunkqueue_mark_written`. -/
def bodyMarkWritten (written : ℕ) : List BodyChunk → Option (List BodyChunk)
  | [] => if written = 0 then some [] else none
  | c :: cs =>
    if written = 0 ∧ c.remainingLength ≠ 0 then some (c :: cs)
    else if h : c.remainingLength ≤ written then
      bodyMarkWritten (written - c.remainingLength) cs
    else some ({ c with toChunk := c.advance written (Nat.le_of_not_le h) } :: cs)

/-- What `write` does: it takes some of the bytes, 0x7ffff000 at most, or sets `errno`. -/
inductive PutWrite
  | wrote (n : ℕ)
  | noSpace
  | failed
  deriving DecidableEq, Repr

/-- What the calls of one iteration do: whether `open` and `mmap` succeed, how many bytes `read`
gives, if `lseek` and `read` succeed, and what `write` does. -/
structure ChunkCalls where
  opens : Bool
  maps : Bool
  reads : Option ℕ
  writes : PutWrite
  deriving DecidableEq, Repr

/-- The bytes of the first chunk that an iteration handles, with what becomes of the chunk, or
`none` if they cannot be had. An empty file is not mapped, and `read` in front of the end of the
file gives a byte at least. -/
def bodyData (c : BodyChunk) (calls : ChunkCalls) : Option (BodyChunk × Bytes) :=
  match c.type with
  | .mem => some (c, c.remaining)
  | .file =>
    if c.mapped then some (c, c.mapping.drop c.offset)
    else if ¬ c.fd ∧ ¬ calls.opens then none
    else if calls.maps ∧ c.data ≠ [] then
      some ({ c with fd := true, mapped := true }, c.mapping.drop c.offset)
    else
      calls.reads.map fun n => ({ c with fd := true }, c.remaining.take (min (max 1 n) 65536))

/-! ## The loop -/

/-- How the loop is left before the queue is empty: with `break`, or with `HANDLER_ERROR`. -/
inductive PutEnd
  | left
  | error
  deriving DecidableEq, Repr

/-- The queue, the file and the status. -/
structure PutState where
  chunks : List BodyChunk
  file : Bytes
  httpStatus : ℕ
  ended : Option PutEnd
  deriving DecidableEq, Repr

/-- The number of bytes that `write` takes. -/
def writtenOf (data : Bytes) (n : ℕ) : ℕ := min n (min data.length 0x7ffff000)

/-- One iteration for the chunk `c`, which gives `data`. -/
def putData (s : PutState) (c : BodyChunk) (cs : List BodyChunk) (data : Bytes) :
    PutWrite → PutState
  | .noSpace => { s with chunks := c :: cs, httpStatus := 507, ended := some .left }
  | .failed => { s with chunks := c :: cs, httpStatus := 403, ended := some .left }
  | .wrote n =>
    let r := writtenOf data n
    if r = 0 then { s with chunks := c :: cs, ended := some .left }
    else
      match bodyMarkWritten r (c :: cs) with
      | none => { s with chunks := c :: cs, ended := some .error }
      | some cs => { s with chunks := cs, file := s.file ++ data.take r }

/-- One iteration, as long as there are chunks. -/
def putStep (s : PutState) (calls : ChunkCalls) : Option PutState :=
  match s.ended, s.chunks with
  | none, c :: cs =>
    match bodyData c calls with
    | none => some { s with ended := some .error }
    | some (c, data) => some (putData s c cs data calls.writes)
  | _, _ => none

/-- The loop is over. -/
def PutState.Over (s : PutState) : Prop := s.ended ≠ none ∨ s.chunks = []

/-- What the two calls of `open` find: the file, that it can be created, or neither. -/
inductive PutOpen
  | existing
  | created
  | refused
  deriving DecidableEq, Repr

/-- How the branch ends: with `HANDLER_ERROR`, or with a status and what the file has. -/
inductive PutResult
  | error
  | finished (httpStatus : ℕ) (file : Option Bytes)
  deriving DecidableEq, Repr

/-- The state in front of the loop. -/
def putInit (chunks : List BodyChunk) (httpStatus : ℕ) : PutState := ⟨chunks, [], httpStatus, none⟩

/-- What is returned behind the loop, whose file is closed. -/
def putFinish (closes : Bool) (s : PutState) : PutResult :=
  if s.ended = some .error then .error
  else if closes then .finished s.httpStatus (some s.file)
  else .error

/-- The status with which the loop starts. -/
def PutOpen.httpStatus : PutOpen → Option ℕ
  | .existing => some 200
  | .created => some 201
  | .refused => none

/-- A run of the branch with the calls that it makes ends with a result. -/
def ModWebdavPut (opened : PutOpen) (chunks : List BodyChunk) (calls : List ChunkCalls)
    (closes : Bool) (result : PutResult) : Prop :=
  match opened.httpStatus with
  | none => calls = [] ∧ result = .finished 403 none
  | some httpStatus => ∃ s, run putStep calls (putInit chunks httpStatus) = some s ∧ s.Over ∧
      result = putFinish closes s

/-- A result that reports success has the whole body in the file. -/
def StoresBody (chunks : List BodyChunk) (result : PutResult) : Prop :=
  ∀ httpStatus file, result = .finished httpStatus file → (httpStatus = 200 ∨ httpStatus = 201) →
    file = some (bodyContent chunks)

/-- No call of an iteration fails. -/
def CallsSucceed (s : PutState) (calls : ChunkCalls) : Prop :=
  ∀ c cs, s.chunks = c :: cs →
    (bodyData c calls).isSome ∧ calls.writes ≠ .noSpace ∧ calls.writes ≠ .failed

/-- `write` takes nothing only where nothing is left, and what it takes is what the chunk stands
for. -/
def WritesBody (s : PutState) (calls : ChunkCalls) : Prop :=
  ∀ c cs c' data n, s.chunks = c :: cs → bodyData c calls = some (c', data) →
    calls.writes = .wrote n →
      (writtenOf data n = 0 → bodyContent s.chunks = []) ∧
        data.take (writtenOf data n) = c.remaining.take (writtenOf data n)

/-- Where the file is opened and closed and no call of the loop fails, each iteration writes what
the body has. -/
def PutFits (opened : PutOpen) (chunks : List BodyChunk) (calls : List ChunkCalls)
    (closes : Bool) : Prop :=
  ∀ httpStatus, opened.httpStatus = some httpStatus → closes = true →
    Throughout putStep CallsSucceed calls (putInit chunks httpStatus) →
      Throughout putStep WritesBody calls (putInit chunks httpStatus)

/-! ## One iteration -/

@[simp] theorem bodyContent_nil : bodyContent [] = [] := rfl

@[simp] theorem bodyContent_cons (c : BodyChunk) (cs : List BodyChunk) :
    bodyContent (c :: cs) = c.remaining ++ bodyContent cs := rfl

/-- The loop is that of `chunkqueue_mark_written`. -/
theorem map_bodyMarkWritten (n : ℕ) (cs : List BodyChunk) :
    (bodyMarkWritten n cs).map (List.map BodyChunk.toChunk) =
      markWrittenLoop n (cs.map BodyChunk.toChunk) := by
  induction cs generalizing n with
  | nil => simp only [bodyMarkWritten, List.map_nil, markWrittenLoop]; split_ifs <;> rfl
  | cons c cs ih =>
    rw [bodyMarkWritten, List.map_cons, markWrittenLoop]
    split_ifs
    · rfl
    · exact ih _
    · rfl

theorem exists_bodyMarkWritten {n : ℕ} {cs : List BodyChunk} (h : n ≤ (bodyContent cs).length) :
    ∃ cs', bodyMarkWritten n cs = some cs' ∧ bodyContent cs' = (bodyContent cs).drop n := by
  obtain ⟨ds, hds⟩ := Option.isSome_iff_exists.mp (markWrittenLoop_isSome h)
  have hmap := map_bodyMarkWritten n cs
  rw [hds] at hmap
  obtain ⟨cs', hcs', rfl⟩ := Option.map_eq_some_iff.mp hmap
  exact ⟨cs', hcs', (markWrittenLoop_eq_some hds).2⟩

theorem length_mapping (c : BodyChunk) : c.mapping.length = c.data.length := by
  simp [BodyChunk.mapping]

/-- An iteration hands over as many bytes as the chunk has left at most, and leaves the chunk
where it is. -/
theorem bodyData_some {c c' : BodyChunk} {calls : ChunkCalls} {data : Bytes}
    (h : bodyData c calls = some (c', data)) :
    c'.remaining = c.remaining ∧ data.length ≤ c.remaining.length := by
  have hmapping : (c.mapping.drop c.offset).length ≤ c.remaining.length := by
    rw [List.length_drop, length_mapping, Chunk.remaining, List.length_drop]
  rw [bodyData] at h
  split at h
  · obtain ⟨rfl, rfl⟩ := Prod.mk.inj (Option.some.inj h)
    exact ⟨rfl, le_rfl⟩
  · split_ifs at h
    · obtain ⟨rfl, rfl⟩ := Prod.mk.inj (Option.some.inj h)
      exact ⟨rfl, hmapping⟩
    · obtain ⟨rfl, rfl⟩ := Prod.mk.inj (Option.some.inj h)
      exact ⟨rfl, hmapping⟩
    · obtain ⟨n, -, hn⟩ := Option.map_eq_some_iff.mp h
      obtain ⟨rfl, rfl⟩ := Prod.mk.inj hn
      exact ⟨rfl, by rw [List.length_take]; exact Nat.min_le_right _ _⟩

/-- What the file holds and what is queued are as long as the body, and what is queued is its
end. -/
def Aligned (body : Bytes) (s : PutState) : Prop :=
  s.file.length ≤ body.length ∧ bodyContent s.chunks = body.drop s.file.length

/-- An iteration for a chunk: nothing is written and the loop ends, or `r` bytes move from the
queue to the file. -/
theorem putData_wrote (s : PutState) {c c' : BodyChunk} {cs : List BodyChunk} {data : Bytes}
    (hc : c'.remaining = c.remaining) (hdata : data.length ≤ c.remaining.length)
    (hs : s.chunks = c :: cs) (n : ℕ) :
    (writtenOf data n = 0 ∧ putData s c' cs data (.wrote n) =
      { s with chunks := c' :: cs, ended := some .left }) ∨
    (0 < writtenOf data n ∧ ∃ cs',
      putData s c' cs data (.wrote n) =
        { s with chunks := cs', file := s.file ++ data.take (writtenOf data n) } ∧
      bodyContent cs' = (bodyContent s.chunks).drop (writtenOf data n)) := by
  rw [putData]
  by_cases h0 : writtenOf data n = 0
  · exact .inl ⟨h0, if_pos h0⟩
  · right
    refine ⟨Nat.pos_of_ne_zero h0, ?_⟩
    have hle : writtenOf data n ≤ (bodyContent (c' :: cs)).length := by
      have : writtenOf data n ≤ data.length := by
        rw [writtenOf]
        omega
      rw [bodyContent_cons, List.length_append, hc]
      omega
    obtain ⟨cs', hcs', hcontent⟩ := exists_bodyMarkWritten hle
    refine ⟨cs', ?_, ?_⟩
    · simp only [h0, if_false, hcs']
    · rw [hcontent, hs, bodyContent_cons, bodyContent_cons, hc]

theorem length_take_writtenOf (data : Bytes) (n : ℕ) :
    (data.take (writtenOf data n)).length = writtenOf data n := by
  rw [List.length_take, writtenOf]
  omega

/-! ## Runs of the loop -/

variable {s t : PutState} {calls : List ChunkCalls}

theorem putStep_of_ended (h : s.ended ≠ none) (calls : ChunkCalls) : putStep s calls = none := by
  obtain ⟨e, he⟩ := Option.ne_none_iff_exists'.mp h
  rw [putStep, he]

theorem run_of_ended (h : s.ended ≠ none) (hrun : run putStep calls s = some t) :
    calls = [] ∧ t = s := by
  cases calls with
  | nil => exact ⟨rfl, (Option.some.inj hrun).symm⟩
  | cons calls rest =>
    obtain ⟨s₁, h₁, -⟩ := run_cons.mp hrun
    rw [putStep_of_ended h] at h₁
    cases h₁

theorem putStep_of_succeed {s' : PutState} {calls : ChunkCalls} (hcalls : CallsSucceed s calls)
    (h : putStep s calls = some s') : ∃ c cs c' data n, s.ended = none ∧ s.chunks = c :: cs ∧
      bodyData c calls = some (c', data) ∧ calls.writes = .wrote n ∧
        s' = putData s c' cs data (.wrote n) := by
  rw [putStep] at h
  split at h
  · next c cs hended hchunks =>
    obtain ⟨hdata, hspace, hfail⟩ := hcalls c cs hchunks
    obtain ⟨⟨c', data⟩, hd⟩ := Option.isSome_iff_exists.mp hdata
    rw [hd] at h
    rcases hw : calls.writes with n | _ | _
    · rw [hw] at h
      exact ⟨c, cs, c', data, n, hended, hchunks, hd, rfl, (Option.some.inj h).symm⟩
    · exact absurd hw hspace
    · exact absurd hw hfail
  · cases h

theorem prefix_append_take_iff {body file data r : Bytes} (hle : file.length ≤ body.length)
    (hr : r = body.drop file.length) (hdata : data.length ≤ r.length) :
    file ++ data <+: body ↔ file <+: body ∧ data = r.take data.length := by
  subst hr
  constructor
  · intro h
    have hfile : file <+: body := (List.prefix_append _ _).trans h
    refine ⟨hfile, ?_⟩
    obtain ⟨t, rfl⟩ := hfile
    rw [List.prefix_append_right_inj] at h
    rw [List.drop_left]
    exact List.prefix_iff_eq_take.mp h
  · rintro ⟨⟨t, rfl⟩, h⟩
    rw [List.prefix_append_right_inj]
    rw [List.drop_left] at h
    exact List.prefix_iff_eq_take.mpr h

/-- A run in which no call fails keeps the status, and at its end the file is the body exactly if
it began as a prefix and every iteration wrote what the body has. -/
theorem run_file_iff {body : Bytes} (hs : Aligned body s) (hended : s.ended = none)
    (hrun : run putStep calls s = some t) (hover : t.Over)
    (hcalls : Throughout putStep CallsSucceed calls s) :
    t.ended ≠ some .error ∧ t.httpStatus = s.httpStatus ∧
      (t.file = body ↔ s.file <+: body ∧ Throughout putStep WritesBody calls s) := by
  induction calls generalizing s with
  | nil =>
    obtain rfl := Option.some.inj hrun
    have hnil : s.chunks = [] := hover.resolve_left fun h => h hended
    have hlen : body.length ≤ s.file.length := by
      rw [← List.drop_eq_nil_iff, ← hs.2, hnil, bodyContent_nil]
    refine ⟨by simp [hended], rfl, fun h => ⟨h ▸ List.prefix_rfl, trivial⟩, fun h => ?_⟩
    exact h.1.eq_of_length (le_antisymm hs.1 hlen)
  | cons calls rest ih =>
    obtain ⟨s₁, h₁, hrun⟩ := run_cons.mp hrun
    obtain ⟨c, cs, c', data, n, -, hchunks, hdata, hwrote, rfl⟩ :=
      putStep_of_succeed hcalls.1 h₁
    obtain ⟨hc, hle⟩ := bodyData_some hdata
    have hwrites : WritesBody s calls ↔
        (writtenOf data n = 0 → bodyContent s.chunks = []) ∧
          data.take (writtenOf data n) = c.remaining.take (writtenOf data n) := by
      refine ⟨fun h => h c cs c' data n hchunks hdata hwrote, ?_⟩
      intro h d ds d' data' m hchunks' hdata' hwrote'
      obtain ⟨rfl, rfl⟩ := List.cons.inj (hchunks.symm.trans hchunks')
      obtain ⟨rfl, rfl⟩ := Prod.mk.inj (Option.some.inj (hdata.symm.trans hdata'))
      obtain rfl := PutWrite.wrote.inj (hwrote.symm.trans hwrote')
      exact h
    have hrest := hcalls.2 _ h₁
    simp only [Throughout, hwrites, h₁, Option.some.injEq, forall_eq']
    rcases putData_wrote s hc hle hchunks n with ⟨h0, hleft⟩ | ⟨hpos, cs', hmoved, hcontent⟩
    · rw [hleft] at hrun ⊢
      obtain ⟨rfl, rfl⟩ := run_of_ended (by simp) hrun
      refine ⟨by simp, rfl, ?_⟩
      have hnil : bodyContent s.chunks = [] ↔ body.length ≤ s.file.length := by
        rw [hs.2, List.drop_eq_nil_iff]
      simp only [h0, List.take_zero, and_true, true_implies, Throughout, hnil]
      refine ⟨fun h => ?_, fun h => h.1.eq_of_length (le_antisymm hs.1 h.2)⟩
      have h : s.file = body := h
      exact ⟨h ▸ List.prefix_rfl, le_of_eq (congrArg List.length h).symm⟩
    · rw [hmoved] at hrun hrest ⊢
      have hlen := length_take_writtenOf data n
      have hr : c.remaining.take (writtenOf data n) =
          (body.drop s.file.length).take (writtenOf data n) := by
        rw [← hs.2, hchunks, bodyContent_cons, List.take_append_of_le_length]
        rw [← hlen]
        exact (List.length_take_le' _ _).trans hle
      have hfit : (data.take (writtenOf data n)).length ≤ (body.drop s.file.length).length := by
        rw [← hs.2, hchunks, bodyContent_cons, List.length_append]
        exact (List.length_take_le' _ _).trans (hle.trans (Nat.le_add_right _ _))
      have hs' : Aligned body { s with
          chunks := cs', file := s.file ++ data.take (writtenOf data n) } := by
        have hs1 := hs.1
        rw [List.length_drop] at hfit
        refine ⟨?_, ?_⟩
        · simp only [List.length_append]
          omega
        · simp only [hcontent, hs.2, List.drop_drop, List.length_append, hlen]
      obtain ⟨hend, hstatus, hiff⟩ := ih hs' hended hrun hrest
      refine ⟨hend, hstatus, hiff.trans ?_⟩
      have hstart := prefix_append_take_iff hs.1 rfl hfit
      rw [hlen, ← hr] at hstart
      rw [hstart]
      have h0 : writtenOf data n ≠ 0 := Nat.pos_iff_ne_zero.mp hpos
      simp only [h0, false_implies, true_and, and_assoc]

/-- An iteration in which a call fails leaves the loop with an error or an error status. -/
theorem putStep_of_fail {s' : PutState} {calls : ChunkCalls} (hcalls : ¬ CallsSucceed s calls)
    (h : putStep s calls = some s') : s'.ended ≠ none ∧
      (s'.ended = some .error ∨ s'.httpStatus = 507 ∨ s'.httpStatus = 403) := by
  rw [putStep] at h
  split at h
  · next c cs hended hchunks =>
    rcases hd : bodyData c calls with _ | ⟨c', data⟩
    · rw [hd] at h
      obtain rfl := Option.some.inj h
      exact ⟨by simp, .inl rfl⟩
    · rw [hd] at h
      obtain rfl := Option.some.inj h
      rcases hw : calls.writes with n | _ | _
      · refine absurd ?_ hcalls
        intro d ds hchunks'
        obtain ⟨rfl, rfl⟩ := List.cons.inj (hchunks.symm.trans hchunks')
        rw [hd, hw]
        exact ⟨rfl, by simp, by simp⟩
      · exact ⟨by simp [putData], .inr (.inl rfl)⟩
      · exact ⟨by simp [putData], .inr (.inr rfl)⟩
  · cases h

theorem run_of_fail (hrun : run putStep calls s = some t)
    (hcalls : ¬ Throughout putStep CallsSucceed calls s) :
    t.ended = some .error ∨ t.httpStatus = 507 ∨ t.httpStatus = 403 := by
  induction calls generalizing s with
  | nil => exact absurd trivial hcalls
  | cons calls rest ih =>
    obtain ⟨s₁, h₁, hrun⟩ := run_cons.mp hrun
    by_cases hok : CallsSucceed s calls
    · refine ih hrun fun hrest => hcalls ⟨hok, fun s' hs' => ?_⟩
      obtain rfl := Option.some.inj (h₁.symm.trans hs')
      exact hrest
    · obtain ⟨hended, hout⟩ := putStep_of_fail hok h₁
      obtain ⟨-, rfl⟩ := run_of_ended hended hrun
      exact hout

theorem putStep_cons {c : BodyChunk} {cs : List BodyChunk} (hended : s.ended = none)
    (hs : s.chunks = c :: cs) (calls : ChunkCalls) : ∃ s', putStep s calls = some s' ∧
      (s'.ended ≠ none ∨ s'.ended = none ∧
        (bodyContent s'.chunks).length < (bodyContent s.chunks).length) := by
  by_cases hok : CallsSucceed s calls
  · obtain ⟨hd, hspace, hfail⟩ := hok c cs hs
    obtain ⟨⟨c', data⟩, hd⟩ := Option.isSome_iff_exists.mp hd
    obtain ⟨hc, hle⟩ := bodyData_some hd
    have hstep : putStep s calls = some (putData s c' cs data calls.writes) := by
      rw [putStep, hended, hs]
      simp only [hd]
    refine ⟨_, hstep, ?_⟩
    rcases hw : calls.writes with n | _ | _
    · rcases putData_wrote s hc hle hs n with ⟨-, hleft⟩ | ⟨hpos, cs', hmoved, hcontent⟩
      · exact .inl (by simp [hleft])
      · right
        rw [hmoved]
        refine ⟨hended, ?_⟩
        have hlen : 0 < (bodyContent s.chunks).length := by
          rw [hs, bodyContent_cons, List.length_append]
          rw [writtenOf] at hpos
          omega
        simp only [hcontent, List.length_drop]
        omega
    · exact absurd hw hspace
    · exact absurd hw hfail
  · have hsome : (putStep s calls).isSome := by
      rw [putStep, hended, hs]
      rcases hd : bodyData c calls with _ | ⟨c', data⟩ <;> simp only [hd, Option.isSome_some]
    obtain ⟨s', hs'⟩ := Option.isSome_iff_exists.mp hsome
    exact ⟨s', hs', .inl (putStep_of_fail hok hs').1⟩

theorem exists_run_over {n : ℕ} (hended : s.ended = none) (hn : (bodyContent s.chunks).length ≤ n)
    (o : ℕ → ChunkCalls) : ∃ k t, run putStep ((List.range k).map o) s = some t ∧ t.Over := by
  induction n generalizing s o with
  | zero =>
    rcases hs : s.chunks with _ | ⟨c, cs⟩
    · exact ⟨0, s, rfl, .inr hs⟩
    · obtain ⟨s', hs', hended' | ⟨-, hlt⟩⟩ := putStep_cons hended hs (o 0)
      · exact ⟨1, s', run_cons.mpr ⟨s', hs', rfl⟩, .inl hended'⟩
      · omega
  | succ n ih =>
    rcases hs : s.chunks with _ | ⟨c, cs⟩
    · exact ⟨0, s, rfl, .inr hs⟩
    · obtain ⟨s', hs', hended' | ⟨hended', hlt⟩⟩ := putStep_cons hended hs (o 0)
      · exact ⟨1, s', run_cons.mpr ⟨s', hs', rfl⟩, .inl hended'⟩
      · obtain ⟨k, t, hrun, hover⟩ := ih hended' (by omega) fun i => o (i + 1)
        refine ⟨k + 1, t, ?_, hover⟩
        rw [List.range_succ_eq_map, List.map_cons, List.map_map]
        exact run_cons.mpr ⟨s', hs', hrun⟩

/-- The status that a run in which no call fails reports is the one that it started with. -/
theorem finished_of_success {httpStatus : ℕ} {chunks : List BodyChunk}
    (hrun : run putStep calls (putInit chunks httpStatus) = some s) (hover : s.Over)
    (hcalls : Throughout putStep CallsSucceed calls (putInit chunks httpStatus)) :
    putFinish true s = .finished httpStatus (some s.file) ∧
      (s.file = bodyContent chunks ↔
        Throughout putStep WritesBody calls (putInit chunks httpStatus)) := by
  have haligned : Aligned (bodyContent chunks) (putInit chunks httpStatus) := ⟨Nat.zero_le _, rfl⟩
  obtain ⟨hend, hstatus, hiff⟩ := run_file_iff haligned rfl hrun hover hcalls
  refine ⟨?_, hiff.trans (and_iff_right List.nil_prefix)⟩
  rw [putFinish, if_neg hend, if_pos rfl, hstatus]
  rfl

theorem success_of_httpStatus {opened : PutOpen} {httpStatus : ℕ}
    (h : opened.httpStatus = some httpStatus) : httpStatus = 200 ∨ httpStatus = 201 := by
  cases opened with
  | existing => exact .inl (Option.some.inj h).symm
  | created => exact .inr (Option.some.inj h).symm
  | refused => cases h

/-- The loop ends for every queue and all outcomes of its calls, and a success has stored the body
if and only if a call fails, and nothing is reported as stored, or every iteration writes what the
body has and stops at its end only. -/
theorem modWebdavPut_storesBody_iff (opened : PutOpen) (chunks : List BodyChunk) :
    (∀ (o : ℕ → ChunkCalls) closes, ∃ k result,
      ModWebdavPut opened chunks ((List.range k).map o) closes result) ∧
    ∀ calls closes result, ModWebdavPut opened chunks calls closes result →
      (StoresBody chunks result ↔ PutFits opened chunks calls closes) := by
  constructor
  · intro o closes
    rcases hopened : opened.httpStatus with _ | httpStatus
    · exact ⟨0, .finished 403 none, by simp [ModWebdavPut, hopened]⟩
    · obtain ⟨k, t, hrun, hover⟩ :=
        exists_run_over (s := putInit chunks httpStatus) rfl le_rfl o
      exact ⟨k, putFinish closes t, by
        simp only [ModWebdavPut, hopened]
        exact ⟨t, hrun, hover, rfl⟩⟩
  · intro calls closes result h
    rw [ModWebdavPut] at h
    rcases hopened : opened.httpStatus with _ | httpStatus
    · rw [hopened] at h
      obtain ⟨rfl, rfl⟩ := h
      refine iff_of_true ?_ ?_
      · rintro _ _ ⟨⟩ (h | h) <;> cases h
      · intro httpStatus hstatus
        rw [hopened] at hstatus
        cases hstatus
    · rw [hopened] at h
      obtain ⟨s, hrun, hover, rfl⟩ := h
      have hfits : PutFits opened chunks calls closes ↔ (closes = true →
          Throughout putStep CallsSucceed calls (putInit chunks httpStatus) →
            Throughout putStep WritesBody calls (putInit chunks httpStatus)) := by
        simp only [PutFits, hopened, Option.some.injEq, forall_eq']
      rw [hfits]
      by_cases hcloses : closes = true
      · subst hcloses
        by_cases hcalls : Throughout putStep CallsSucceed calls (putInit chunks httpStatus)
        · obtain ⟨hfinish, hfile⟩ := finished_of_success hrun hover hcalls
          simp only [true_implies, hcalls, ← hfile, StoresBody, hfinish]
          constructor
          · intro h
            exact Option.some.inj (h _ _ rfl (success_of_httpStatus hopened))
          · rintro h _ _ ⟨⟩ -
            rw [h]
        · refine iff_of_true ?_ fun _ h => absurd h hcalls
          intro status file hresult hsuccess
          rw [putFinish] at hresult
          split_ifs at hresult with hend
          obtain ⟨rfl, -⟩ := PutResult.finished.inj hresult
          rcases run_of_fail hrun hcalls with h | h | h
          · exact absurd h hend
          · omega
          · omega
      · refine iff_of_true ?_ fun h => absurd h hcloses
        intro status file hresult
        rw [putFinish] at hresult
        split_ifs at hresult

/-- A chunk without bytes in front of the body. -/
def emptyFirst : List BodyChunk :=
  [⟨Chunk.ofMem [], [], false⟩, ⟨Chunk.ofMem (str "abc"), [], false⟩]

/-- The first `write` is asked for nothing and ends the loop, and the status is 200. -/
theorem not_storesBody :
    ModWebdavPut .existing emptyFirst [⟨true, true, none, .wrote 0⟩] true (.finished 200 (some [])) ∧
      ¬ StoresBody emptyFirst (.finished 200 (some [])) := by
  refine ⟨⟨⟨emptyFirst, [], 200, some .left⟩, by decide +kernel, .inl (by simp), rfl⟩, fun h => ?_⟩
  have hbody : (some [] : Option Bytes) ≠ some (bodyContent emptyFirst) := by decide +kernel
  exact hbody (h 200 (some []) rfl (.inl rfl))

end Lighttpd
