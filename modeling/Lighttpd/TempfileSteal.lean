import Lighttpd.Tempfile

/-!
# Stealing into tempfiles when a call fails

`chunkqueue_append_mem_to_tempfile` may fail in any turn of its loop, and what it wrote in the
turns before stays in the destination (`appendMemToTempfileLoop_spec`).
`chunkqueue_steal_with_tempfiles` returns at once when an append fails, without taking from the
source what that append wrote. Nothing is lost or in both queues as long as an append that fails
gives up before it wrote anything (`chunkqueueStealWithTempfiles_conserves_iff`).
-/

namespace Lighttpd

open CString

/-- A call of `chunkqueue_append_mem_to_tempfile`. -/
structure AppendCall where
  dest : Chunkqueue
  mem : Bytes
  io : TempIo

/-- The turns of the loop come to one in which no file can be opened or the `write` is not tried
again, and no `write` before wrote an octet. -/
def givesUpUnwritten (dest : Chunkqueue) (opens : List OpenResult) (closes : List Bool) :
    List WriteResult → Bool
  | [] => ¬ (openTempfile dest ⟨opens, [], closes⟩).ok
  | w :: writes =>
    let r := openTempfile dest ⟨opens, w :: writes, closes⟩
    if ¬ r.ok then true
    else
      let io := { r.io with writes := writes }
      match w with
      | .written n =>
        n = 0 ∧ givesUpUnwritten (appendToLast r.queue []) io.opens io.closes writes
      | .eintr => givesUpUnwritten r.queue io.opens io.closes writes
      | .enospc =>
        let f := writeFailed r.queue io true
        if f.ok then givesUpUnwritten f.queue f.io.opens f.io.closes writes else true
      | .failed =>
        let f := writeFailed r.queue io false
        if f.ok then givesUpUnwritten f.queue f.io.opens f.io.closes writes else true

/-- The call gives up before it wrote anything. -/
def AppendCall.GivesUpUnwritten (a : AppendCall) : Prop :=
  givesUpUnwritten a.dest a.io.opens a.io.closes a.io.writes = true

/-- An append that fails, or leaves something out, gave up before it wrote an octet if and only if
nothing of `mem` is in the queue. -/
theorem appendMemToTempfileLoop_unwritten :
    ∀ (writes : List WriteResult) (dest : Chunkqueue) {mem : Bytes} (_ : mem ≠ [])
      (opens : List OpenResult) (closes : List Bool), ∃ n,
        Appended dest (appendMemToTempfileLoop dest mem opens closes writes).queue (mem.take n) ∧
        (givesUpUnwritten dest opens closes writes ↔ n = 0)
  | [], dest, mem, hmem, opens, closes => by
    obtain ⟨hopen, hne⟩ := openTempfile_spec dest ⟨opens, [], closes⟩
    rw [appendMemToTempfileLoop, givesUpUnwritten]
    by_cases hok : (openTempfile dest ⟨opens, [], closes⟩).ok
    · rw [if_pos hok]
      refine ⟨mem.length, ?_, ?_⟩
      · rw [List.take_length]
        exact hopen.trans (appended_appendToLast (hne hok) mem)
      · simpa [hok] using hmem
    · rw [if_neg hok]
      exact ⟨0, hopen, by simp [hok]⟩
  | w :: writes, dest, mem, hmem, opens, closes => by
    obtain ⟨hopen, hne⟩ := openTempfile_spec dest ⟨opens, w :: writes, closes⟩
    rw [appendMemToTempfileLoop, givesUpUnwritten]
    dsimp only
    generalize openTempfile dest ⟨opens, w :: writes, closes⟩ = r at hopen hne ⊢
    have hfail : ∀ isEnospc, let f := writeFailed r.queue { r.io with writes := writes } isEnospc
        ∃ n, Appended dest
            (if f.ok then appendMemToTempfileLoop f.queue mem f.io.opens f.io.closes writes
              else f).queue (mem.take n) ∧
          ((if f.ok then givesUpUnwritten f.queue f.io.opens f.io.closes writes else true) ↔
            n = 0) := fun isEnospc => by
      have hf := hopen.trans (appended_writeFailed r.queue { r.io with writes := writes } isEnospc)
      dsimp only
      by_cases hok : (writeFailed r.queue { r.io with writes := writes } isEnospc).ok
      · rw [if_pos hok, if_pos hok]
        obtain ⟨n, happ, hn⟩ := appendMemToTempfileLoop_unwritten writes _ hmem _ _
        exact ⟨n, hf.trans happ, hn⟩
      · rw [if_neg hok, if_neg hok]
        exact ⟨0, hf, by simp⟩
    by_cases hok : r.ok
    · rw [if_neg (not_not.mpr hok), if_neg (not_not.mpr hok)]
      cases w with
      | written n =>
        have happ := hopen.trans (appended_appendToLast (hne hok) (mem.take n))
        dsimp only
        by_cases hn : n = 0
        · subst hn
          rw [if_neg (by simpa using hmem), List.drop_zero]
          obtain ⟨n, happ', hn⟩ := appendMemToTempfileLoop_unwritten writes
            (appendToLast r.queue (mem.take 0)) hmem r.io.opens r.io.closes
          exact ⟨n, happ.trans happ', by simpa using hn⟩
        · have hnot : decide (n = 0 ∧ givesUpUnwritten (appendToLast r.queue []) r.io.opens
              r.io.closes writes) = false := by simp [hn]
          rw [hnot]
          by_cases hle : mem.length ≤ n
          · rw [if_pos hle]
            exact ⟨n, happ, by simpa using hn⟩
          · rw [if_neg hle]
            obtain ⟨k, happ', -⟩ := appendMemToTempfileLoop_spec writes
              (appendToLast r.queue (mem.take n)) (mem.drop n) r.io.opens r.io.closes
            refine ⟨n + k, ?_, by simpa using fun h => absurd h hn⟩
            rw [List.take_add]
            exact happ.trans happ'
      | eintr =>
        obtain ⟨n, happ, hn⟩ := appendMemToTempfileLoop_unwritten writes r.queue hmem
          r.io.opens r.io.closes
        exact ⟨n, hopen.trans happ, hn⟩
      | enospc => exact hfail true
      | failed => exact hfail false
    · rw [if_pos hok, if_pos hok]
      exact ⟨0, hopen, by simp⟩

/-- The append in which the loop of `chunkqueue_steal_with_tempfiles` fails. -/
def stealFailedAppend (dest : Chunkqueue) (io : TempIo) : ℕ → List Chunk → Option AppendCall
  | _, [] => none
  | n, c :: cs =>
    if n = 0 then none
    else if c.remainingLength = 0 then stealFailedAppend dest io n cs
    else
      let r := stealTempPart dest io n c
      if ¬ r.ok then some ⟨dest, c.remaining.take n, io⟩
      else if c.remainingLength ≤ n then
        stealFailedAppend r.queue r.io (n - c.remainingLength) cs
      else none

theorem stealTempPart_failed {dest : Chunkqueue} {io : TempIo} {n : ℕ} {c : Chunk}
    (h : ¬ (stealTempPart dest io n c).ok) :
    stealTempPart dest io n c = chunkqueueAppendMemToTempfile dest (c.remaining.take n) io := by
  unfold stealTempPart at h ⊢
  split
  · next htype =>
    rw [htype] at h
    dsimp only at h
    split_ifs at h
    · exact absurd rfl h
    · exact absurd rfl h
  · rfl

/-- Behind the octets that are taken from the source the destination has what an append that failed
wrote. -/
theorem stealTempLoop_appended :
    ∀ (dest : Chunkqueue) (io : TempIo) (n : ℕ) (cs : List Chunk), ∃ s,
      Appended dest (stealTempLoop dest io n cs).result.queue
        ((content cs).take (stealTempLoop dest io n cs).moved ++ s) ∧
      (s = [] ↔ ∀ a ∈ stealFailedAppend dest io n cs, a.GivesUpUnwritten)
  | dest, io, n, [] => ⟨[], .refl dest, by simp [stealFailedAppend]⟩
  | dest, io, n, c :: cs => by
    rw [stealTempLoop, stealFailedAppend]
    dsimp only
    by_cases h0 : n = 0
    · rw [if_pos h0, if_pos h0]
      exact ⟨[], .refl dest, by simp⟩
    rw [if_neg h0, if_neg h0]
    by_cases hz : c.remainingLength = 0
    · rw [if_pos hz, if_pos hz, content_cons, (Chunk.remaining_eq_nil_iff c).mpr hz, List.nil_append]
      exact stealTempLoop_appended dest io n cs
    rw [if_neg hz, if_neg hz]
    by_cases hok : (stealTempPart dest io n c).ok
    · rw [if_neg (not_not.mpr hok), if_neg (not_not.mpr hok)]
      have happ := stealTempPart_ok hok
      by_cases hle : c.remainingLength ≤ n
      · rw [dif_pos hle, if_pos hle]
        obtain ⟨s, happ', hs⟩ := stealTempLoop_appended (stealTempPart dest io n c).queue
          (stealTempPart dest io n c).io (n - c.remainingLength) cs
        refine ⟨s, ?_, hs⟩
        have hlen : c.remaining.length ≤ n := by rwa [Chunk.length_remaining]
        rw [List.take_of_length_le hlen] at happ
        rw [content_cons, List.take_append, List.take_of_length_le (by simp), Chunk.length_remaining,
          Nat.add_sub_cancel_left, List.append_assoc]
        exact happ.trans happ'
      · rw [dif_neg hle, if_neg hle]
        refine ⟨[], ?_, by simp⟩
        have hlen : n ≤ c.remaining.length := by
          rw [Chunk.length_remaining]
          omega
        rw [content_cons, List.take_append_of_le_length hlen, List.append_nil]
        exact happ
    · rw [if_pos hok, if_pos hok, stealTempPart_failed hok]
      have hmem : c.remaining.take n ≠ [] := by
        rw [ne_eq, List.take_eq_nil_iff, Chunk.remaining_eq_nil_iff]
        tauto
      obtain ⟨k, happ, hk⟩ := appendMemToTempfileLoop_unwritten io.writes dest hmem io.opens io.closes
      refine ⟨(c.remaining.take n).take k, happ, ?_⟩
      rw [List.take_eq_nil_iff, or_iff_left hmem, ← hk]
      simp [AppendCall.GivesUpUnwritten]

/-- `chunkqueue_append_mem_to_tempfile` appends the bytes when it returns 0 and the first of them
when it returns -1, and `chunkqueue_steal_with_tempfiles` leaves the bytes of both queues as they
were if and only if it fails in no append that wrote something. -/
theorem chunkqueueStealWithTempfiles_conserves_iff (dest src : Chunkqueue) (mem : Bytes) (len : ℤ)
    (io : TempIo) :
    (let r := chunkqueueAppendMemToTempfile dest mem io;
      (r.ok → Appended dest r.queue mem) ∧
        (¬ r.ok → ∃ n, Appended dest r.queue (mem.take n))) ∧
    (let r := chunkqueueStealWithTempfiles dest src len io;
      r.1.queue.bytes ++ r.2.bytes = dest.bytes ++ src.bytes ↔
        ∀ a ∈ stealFailedAppend dest io len.toNat src.chunks, a.GivesUpUnwritten) := by
  refine ⟨⟨fun hok => appendMemToTempfile_ok hok, fun _ => ?_⟩, ?_⟩
  · obtain ⟨n, happ, -⟩ := appendMemToTempfileLoop_spec io.writes dest mem io.opens io.closes
    exact ⟨n, happ⟩
  · obtain ⟨s, happ, hs⟩ := stealTempLoop_appended dest io len.toNat src.chunks
    have hleft := (stealTempLoop_content dest io len.toNat src.chunks).2
    have hdest : (chunkqueueStealWithTempfiles dest src len io).1.queue.bytes =
        dest.bytes ++ ((content src.chunks).take
          (stealTempLoop dest io len.toNat src.chunks).moved ++ s) := happ.1
    have hsrc : (chunkqueueStealWithTempfiles dest src len io).2.bytes =
        (content src.chunks).drop (stealTempLoop dest io len.toNat src.chunks).moved := hleft
    dsimp only
    rw [hdest, hsrc, ← hs]
    generalize (stealTempLoop dest io len.toNat src.chunks).moved = moved
    constructor
    · intro heq
      have hlen := congrArg List.length heq
      have htake := congrArg List.length (List.take_append_drop moved (content src.chunks))
      simp only [List.length_append, Chunkqueue.bytes] at hlen htake
      exact List.length_eq_zero_iff.mp (by omega)
    · rintro rfl
      rw [List.append_nil, List.append_assoc, List.take_append_drop]
      rfl

/-- An append that writes one octet of two and then fails leaves it in both queues. -/
theorem chunkqueueStealWithTempfiles_duplicates :
    ¬ ∀ (dest src : Chunkqueue) (len : ℤ) (io : TempIo),
      let r := chunkqueueStealWithTempfiles dest src len io
      r.1.queue.bytes ++ r.2.bytes = dest.bytes ++ src.bytes := by
  intro h
  have heq := h (chunkqueueInit 65536 0) (chunkqueueAppendMem (chunkqueueInit 65536 0) (str "ab")) 2
    ⟨[], [.written 1, .failed], []⟩
  exact absurd heq (by decide)

end Lighttpd
