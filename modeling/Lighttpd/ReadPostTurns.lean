import Lighttpd.ReadPost

/-!
# A turn of reading a chunked body

What a turn of the loop in `connection_handle_read_post_chunked` does is decided by the bytes of
the read queue, however they are split into chunks. The chunks have to be in memory, and none but
the last may be empty (`Arranged`): `chunkqueue_get_memory` fills an empty last chunk before it
appends another one, and finished chunks are removed from the front.

`HeaderTurn` says what reading a chunk header does, `DataTurn` what reading the octets of a chunk
and the CRLF behind them does.
-/

namespace Lighttpd

open CString

/-! ## The chunks of a read queue -/

/-- Chunks in memory, none of them empty but perhaps the last; `e` says whether that one is. -/
def Arranged (e : Bool) : List Chunk → Prop
  | [] => True
  | [c] => c.type = .mem ∧ (c.remainingLength = 0 ↔ e = true)
  | c :: d :: cs => c.type = .mem ∧ c.remainingLength ≠ 0 ∧ Arranged e (d :: cs)

section Arranged

variable {e : Bool} {c : Chunk} {cs cs' : List Chunk} {n : ℕ}

theorem Arranged.tail (h : Arranged e (c :: cs)) : Arranged e cs := by
  cases cs with
  | nil => trivial
  | cons d cs => exact h.2.2

theorem Arranged.type_eq (h : Arranged e (c :: cs)) : c.type = .mem := by
  cases cs <;> exact h.1

theorem Arranged.head_ne (h : Arranged e (c :: cs)) (hb : content (c :: cs) ≠ []) :
    c.remainingLength ≠ 0 := by
  cases cs with
  | nil => simpa [Chunk.remaining_eq_nil_iff] using hb
  | cons d cs => exact h.2.1

theorem Arranged.set_head {c' : Chunk} (h : Arranged e (c :: cs)) (hc : c.remainingLength ≠ 0)
    (htype : c'.type = .mem) (hc' : c'.remainingLength ≠ 0) : Arranged e (c' :: cs) := by
  cases cs with
  | nil =>
    have he : e ≠ true := fun he => hc (h.2.mpr he)
    exact ⟨htype, by simp [hc', he]⟩
  | cons d cs => exact ⟨htype, hc', h.2.2⟩

theorem Arranged.advance (h : Arranged e (c :: cs)) (hn : ¬ c.remainingLength ≤ n)
    (hle : n ≤ c.remainingLength) : Arranged e (c.advance n hle :: cs) := by
  refine h.set_head (by omega) h.type_eq ?_
  rw [← Chunk.length_remaining, Chunk.remaining_advance, List.length_drop, Chunk.length_remaining]
  omega

theorem Arranged.markWritten :
    ∀ {n : ℕ} {cs cs' : List Chunk}, Arranged e cs → markWrittenLoop n cs = some cs' →
      Arranged e cs'
  | n, [], cs', _, hm => by
    rw [markWrittenLoop] at hm
    split_ifs at hm
    cases hm
    trivial
  | n, c :: cs, cs', h, hm => by
    rw [markWrittenLoop] at hm
    split_ifs at hm with h0 hle
    · cases hm
      exact h
    · exact h.tail.markWritten hm
    · cases hm
      exact h.advance hle _

theorem Arranged.steal : ∀ {cs : List Chunk} (n : ℕ), Arranged e cs → Arranged e (stealLoop n cs).2
  | [], _, _ => trivial
  | c :: cs, n, h => by
    rw [stealLoop]
    split_ifs with h0 hz hle
    · exact h
    · exact h.tail.steal n
    · exact h.tail.steal _
    · exact h.advance hle _

theorem Arranged.stealTemp :
    ∀ {cs : List Chunk} (dest : Chunkqueue) (io : TempIo) (n : ℕ), Arranged e cs →
      Arranged e (stealTempLoop dest io n cs).left
  | [], _, _, _, _ => trivial
  | c :: cs, dest, io, n, h => by
    rw [stealTempLoop]
    dsimp only
    split_ifs with h0 hz hok hle
    · exact h
    · exact h.tail.stealTemp dest io n
    · exact h.tail.stealTemp _ _ _
    · exact h.advance hle _
    · exact h

end Arranged

variable {cq : Chunkqueue} {e : Bool} {hsz : ℕ}

section Compaction

variable {e : Bool} {c : Chunk} {cs : List Chunk}

theorem remainingLength_mergeChunks (c d : Chunk) :
    (mergeChunks c d).remainingLength = c.remainingLength + d.remainingLength := by
  rw [← Chunk.length_remaining, remaining_mergeChunks, List.length_append, Chunk.length_remaining,
    Chunk.length_remaining]

/-- Compaction takes the second chunk into the first. It returns 1 unless the second chunk is an
empty last one, or there is none. -/
inductive Compacted (e : Bool) (c : Chunk) (cs : List Chunk) : Bool × List Chunk → Prop
  | merged (d : Chunk) (ds : List Chunk) (hcs : cs = d :: ds)
      (arranged : Arranged e (mergeChunks c d :: ds)) : Compacted e c cs (true, mergeChunks c d :: ds)
  | alone (he : e = false) (hcs : cs = []) : Compacted e c cs (false, [c])
  | behind (d : Chunk) (he : e = true) (hcs : cs = [d]) (hd : d.remaining = []) :
      Compacted e c cs (false, [mergeChunks c d])

theorem compactLoop_spec (h : Arranged e (c :: cs)) (hc : c.remainingLength ≠ 0) :
    ∃ r, compactLoop (some c) cs = some r ∧ Compacted e c cs r := by
  cases cs with
  | nil =>
    have he : e ≠ true := fun he => hc (h.2.mpr he)
    exact ⟨_, rfl, .alone (by simpa using he) rfl⟩
  | cons d ds =>
    rw [compactLoop, if_pos ⟨h.type_eq, h.tail.type_eq⟩]
    by_cases hd : d.remainingLength = 0
    · rw [if_neg (not_not.mpr hd), if_neg hc]
      cases ds with
      | nil => exact ⟨_, rfl, .behind d (h.tail.2.mp hd) rfl ((Chunk.remaining_eq_nil_iff d).mpr hd)⟩
      | cons d' ds => exact absurd hd h.tail.2.1
    · rw [if_pos hd]
      refine ⟨_, rfl, .merged d ds rfl (h.tail.set_head hd h.tail.type_eq ?_)⟩
      rw [remainingLength_mergeChunks]
      omega

theorem cqCompact_of_loop {r : Bool × List Chunk}
    (h : compactLoop cq.chunks.head? cq.chunks.tail = some r) :
    ∃ q, connectionHandleReadPostCqCompact cq = some (r.1, q) ∧ q.chunks = r.2 ∧
      q.bytes = cq.bytes := by
  unfold connectionHandleReadPostCqCompact
  split
  · next hnone => exact absurd (h.symm.trans hnone) (by simp)
  · next r' hsome =>
    cases h.symm.trans hsome
    refine ⟨_, rfl, rfl, ?_⟩
    change content r.2 = content cq.chunks
    rw [compactLoop_content h]
    cases cq.chunks <;> rfl

theorem cqCompact_spec (hcq : cq.chunks = c :: cs) (h : Arranged e (c :: cs))
    (hc : c.remainingLength ≠ 0) :
    ∃ moved q, connectionHandleReadPostCqCompact cq = some (moved, q) ∧
      Compacted e c cs (moved, q.chunks) ∧ q.bytes = cq.bytes := by
  obtain ⟨r, hr, hcomp⟩ := compactLoop_spec h hc
  have hloop : compactLoop cq.chunks.head? cq.chunks.tail = some r := by rw [hcq]; exact hr
  obtain ⟨q, hq, hchunks, hbytes⟩ := cqCompact_of_loop hloop
  exact ⟨r.1, q, hq, by rw [hchunks]; exact hcomp, hbytes⟩

end Compaction

/-! ## A chunk header in the bytes of the queue -/

/-- What the bytes of a read queue hold where a chunk header is expected: `incomplete` without a
line, `refused` for status 400, `last` with the octets of the last chunk and its trailers,
`unfinished` when the trailers have no end yet, `size` with the size and the octets of the line. -/
inductive ChunkHeader
  | incomplete
  | refused
  | unfinished
  | last (hsz : ℕ)
  | size (te hsz : ℕ)
  deriving DecidableEq

/-- The chunk header at the front of `b`. -/
def chunkHeader (b : Bytes) : ChunkHeader :=
  match strchr b LF with
  | none => if b.length ≥ 1024 then .refused else .incomplete
  | some p =>
    match chunkSize b (p + 1) with
    | none => .refused
    | some 0 =>
      match strstr (b.drop (p + 1 - 2)) crlfcrlf with
      | some j => .last (p + 1 - 2 + j + 4)
      | none => .unfinished
    | some te => .size te (p + 1)

/-- With unfinished trailers in `b`, the difference that gives `hsz` is taken from a null pointer,
or the length of a freed chunk is read. -/
def cutsTrailers (conf : ReadPostConf) (e : Bool) (b : Bytes) : Bool :=
  if e then conf.cacheFull ∨ conf.maxRequestFieldSize = 0 else conf.maxRequestFieldSize ≤ b.length

section Prefix

variable {s : Bytes} {p hsz : ℕ}

theorem chunkSizeLoop_append (t : Bytes) (h : LF ∈ s) (te : ℕ) :
    (chunkSizeLoop te s = none ∧ chunkSizeLoop te (s ++ t) = none) ∨
      ∃ r, chunkSizeLoop te s = some r ∧ chunkSizeLoop te (s ++ t) = some (r.1, r.2 ++ t) ∧
        LF ∈ r.2 := by
  induction s generalizing te with
  | nil => simp at h
  | cons u s ih =>
    rw [List.cons_append, chunkSizeLoop, chunkSizeLoop]
    by_cases hu : hex2int u = 255
    · rw [if_pos hu, if_pos hu]
      exact .inr ⟨_, rfl, rfl, h⟩
    · have hs : LF ∈ s := (List.mem_cons.mp h).resolve_left fun hlf => hu (hlf ▸ by decide)
      rw [if_neg hu, if_neg hu]
      by_cases hte : te > 2 ^ 59 - 1
      · rw [if_pos hte, if_pos hte]
        exact .inl ⟨rfl, rfl⟩
      · rw [if_neg hte, if_neg hte]
        exact ih hs _

/-- What is behind the line of a chunk header does not matter. -/
theorem chunkSize_append (t : Bytes) (h : LF ∈ s) : chunkSize (s ++ t) hsz = chunkSize s hsz := by
  rw [chunkSize, chunkSize]
  rcases chunkSizeLoop_append t h 0 with ⟨hs, hst⟩ | ⟨r, hs, hst, hr⟩
  · rw [hs, hst]
  · have hne : r.2.dropWhile (fun c => c = SP ∨ c = HT) ≠ [] := fun hnil => by
      have := List.dropWhile_eq_nil_iff.mp hnil LF hr
      exact absurd this (by decide)
    obtain ⟨u, v, huv⟩ := List.exists_cons_of_ne_nil hne
    have hdrop : ((r.2 ++ t).dropWhile fun c => c = SP ∨ c = HT) = u :: (v ++ t) := by
      rw [List.dropWhile_append, huv]
      rfl
    rw [hs, hst]
    dsimp only
    rw [hdrop, huv, List.head?_cons, List.head?_cons]

theorem chunkSize_of_long (h : 1024 ≤ hsz) : chunkSize s hsz = none := by
  unfold chunkSize
  split
  · rfl
  · dsimp only
    split_ifs <;> rfl

theorem strchr_of_append {t : Bytes} (h : strchr (s ++ t) LF = some p) (hp : p < s.length) :
    strchr s LF = some p := by
  obtain ⟨u, v, huv, rfl, hlf, hnul⟩ := strchr_eq_some h
  have hpre : u ++ [LF] <+: s ++ t := ⟨v, by rw [huv, List.append_assoc]; rfl⟩
  obtain ⟨w, rfl⟩ := List.prefix_of_prefix_length_le hpre (List.prefix_append s t)
    (by simp; omega)
  rw [List.append_assoc]
  exact strchr_append_cons hlf hnul (by decide) w

theorem mem_of_strchr (h : strchr s LF = some p) : LF ∈ s := by
  obtain ⟨u, v, rfl, -⟩ := strchr_eq_some h
  simp

/-- The line feed is not the carriage return that `p[0] == '\r'` asks for. -/
theorem not_isPrefixOf_of_strchr (h : strchr s LF = some p) :
    ¬ [CR, LF].isPrefixOf (s.drop (p + 1 - 1)) = true := by
  obtain ⟨u, v, rfl, rfl, -⟩ := strchr_eq_some h
  rw [Nat.add_sub_cancel, List.drop_left]
  rw [List.isPrefixOf_iff_prefix]
  exact fun hpre => absurd (List.cons_prefix_cons.mp hpre).1 (by decide)

end Prefix

/-- The search finds the end of the trailers in the bytes of the queue. Otherwise `c` has all of
them, unless compaction took it out of the queue. -/
theorem searchTrailers_spec :
    ∀ {turns : ℕ} {c : Chunk} {cs : List Chunk} {cq : Chunkqueue}, cq.chunks = c :: cs →
      Arranged e (c :: cs) → c.remainingLength ≠ 0 → hsz ≤ c.remainingLength → cs.length < turns →
      ∃ t, searchTrailers hsz turns cq = some t ∧ t.cq.bytes = cq.bytes ∧
        (∃ e', Arranged e' t.cq.chunks) ∧
        ((∃ j, strstr (cq.bytes.drop hsz) crlfcrlf = some j ∧ t.p = some (hsz + j)) ∨
          (strstr (cq.bytes.drop hsz) crlfcrlf = none ∧ t.p = none ∧
            t.c.map Chunk.remainingLength = if e then none else some cq.bytes.length))
  | 0, _, _, _, _, _, _, _, hturns => absurd hturns (Nat.not_lt_zero _)
  | turns + 1, c, cs, cq, hcq, h, hc, hsz_le, hturns => by
    have hlen : hsz ≤ c.remaining.length := by rwa [Chunk.length_remaining]
    have hbytes : cq.bytes = c.remaining ++ content cs := by rw [Chunkqueue.bytes, hcq, content_cons]
    rw [searchTrailers, hcq]
    dsimp only
    cases hstr : strstr (c.remaining.drop hsz) crlfcrlf with
    | some j =>
      refine ⟨_, rfl, rfl, ⟨e, hcq ▸ h⟩, .inl ⟨j, ?_, rfl⟩⟩
      rw [hbytes, List.drop_append_of_le_length hlen]
      exact strstr_append_left hstr _
    | none =>
      obtain ⟨moved, cq', hr, hcomp, hb⟩ := cqCompact_spec hcq h hc
      rw [hr]
      generalize hcs' : cq'.chunks = cs' at hcomp
      cases hcomp with
      | merged d ds hcs harr =>
        have hmerged := remainingLength_mergeChunks c d
        have hle : hsz ≤ (mergeChunks c d).remainingLength := by omega
        have hlt : ds.length < turns := by rw [hcs] at hturns; simpa using hturns
        obtain ⟨t, ht, htb, harr', hfound⟩ := searchTrailers_spec hcs' harr (by omega) hle hlt
        rw [hb] at htb hfound
        exact ⟨t, ht, htb, harr', hfound⟩
      | alone he hcs =>
        subst he hcs
        refine ⟨_, rfl, hb, ⟨false, hcs' ▸ h⟩, .inr ⟨?_, rfl, ?_⟩⟩
        · rw [hbytes, content_nil, List.append_nil, hstr]
        · rw [hcs', hbytes]
          simp
      | behind d he hcs hd =>
        subst he hcs
        have hmerged := remainingLength_mergeChunks c d
        refine ⟨_, rfl, hb, ⟨false, ?_⟩, .inr ⟨?_, rfl, ?_⟩⟩
        · rw [hcs']
          exact ⟨h.2.2.1, by simp; omega⟩
        · rw [hbytes, content_cons, hd, content_nil, List.append_nil, List.append_nil, hstr]
        · rw [hcs']
          rfl

/-! ## Reading a chunk header -/

theorem markRead_spec (con : ReadPostCon) {n : ℕ} (f : ReadPostCon → Phase)
    (hn : n ≤ con.readQueue.bytes.length) :
    ∃ q, markRead con n f = f { con with readQueue := q } ∧
      q.bytes = con.readQueue.bytes.drop n ∧
      ∀ e, Arranged e con.readQueue.chunks → Arranged e q.chunks := by
  obtain ⟨q, hq⟩ := Option.isSome_iff_exists.mp ((markWritten_isSome_iff con.readQueue n).mpr
    ⟨by omega, by rw [chunkqueueLength_eq]; omega⟩)
  obtain ⟨-, -, hbytes, -, hloop⟩ := markWritten_eq_some hq
  exact ⟨q, by rw [markRead, hq], hbytes, fun e h => h.markWritten hloop⟩

theorem markRead_neg {con : ReadPostCon} {len : ℤ} (f : ReadPostCon → Phase) (h : len < 0) :
    markRead con len f = .stop .aborted := by
  rw [markRead, chunkqueueMarkWritten, if_pos h]

/-- What reading a chunk header does to a connection, by the header that its read queue holds. -/
inductive HeaderTurn (conf : ReadPostConf) (e : Bool) (con : ReadPostCon) : Phase → Prop
  | incomplete (q : Chunkqueue) (header : chunkHeader con.readQueue.bytes = .incomplete)
      (bytes : q.bytes = con.readQueue.bytes) (arranged : ∃ e', Arranged e' q.chunks) :
      HeaderTurn conf e con (.leave { con with readQueue := q } 0)
  | refused (q : Chunkqueue) (header : chunkHeader con.readQueue.bytes = .refused)
      (bytes : q.bytes = con.readQueue.bytes) :
      HeaderTurn conf e con (.stop (connectionHandleReadPostError { con with readQueue := q } 400))
  | unfinished (q : Chunkqueue) (header : chunkHeader con.readQueue.bytes = .unfinished)
      (uncut : cutsTrailers conf e con.readQueue.bytes = false)
      (bytes : q.bytes = con.readQueue.bytes) (arranged : ∃ e', Arranged e' q.chunks) :
      HeaderTurn conf e con (.leave { con with readQueue := q } 0)
  | cut (r : ReadPostResult) (header : chunkHeader con.readQueue.bytes = .unfinished)
      (cuts : cutsTrailers conf e con.readQueue.bytes = true)
      (hr : r = .aborted ∨ r = .undefined) : HeaderTurn conf e con (.stop r)
  | last (q : Chunkqueue) (hsz : ℕ) (header : chunkHeader con.readQueue.bytes = .last hsz)
      (bytes : q.bytes = con.readQueue.bytes.drop hsz) (arranged : ∃ e', Arranged e' q.chunks) :
      HeaderTurn conf e con (.leave { con with
        readQueue := q, contentLength := con.requestContentQueue.bytesIn } 0)
  | tooLong (q : Chunkqueue) (te hsz : ℕ) (header : chunkHeader con.readQueue.bytes = .size te hsz)
      (long : requestTooLong conf con.requestContentQueue.bytesIn te = true)
      (bytes : q.bytes = con.readQueue.bytes.drop hsz) :
      HeaderTurn conf e con (.stop (connectionHandleReadPostError { con with readQueue := q } 413))
  | size (q : Chunkqueue) (te hsz : ℕ) (header : chunkHeader con.readQueue.bytes = .size te hsz)
      (short : requestTooLong conf con.requestContentQueue.bytesIn te = false)
      (bytes : q.bytes = con.readQueue.bytes.drop hsz) (arranged : Arranged e q.chunks) :
      HeaderTurn conf e con (.run { con with readQueue := q } (wrap64 (te + 2)))

section HeaderTurn

variable {conf : ReadPostConf} {e : Bool} {con : ReadPostCon} {c : Chunk} {cs : List Chunk} {p : ℕ}

variable {b : Bytes} {te : ℕ} {ph : Phase}

theorem chunkHeader_refused (h : strchr b LF = some p) (hs : chunkSize b (p + 1) = none) :
    chunkHeader b = .refused := by
  rw [chunkHeader, h]
  dsimp only
  rw [hs]

theorem chunkHeader_size (h : strchr b LF = some p) (hs : chunkSize b (p + 1) = some te)
    (hte : te ≠ 0) : chunkHeader b = .size te (p + 1) := by
  rw [chunkHeader, h]
  dsimp only
  rw [hs]
  cases te with
  | zero => exact absurd rfl hte
  | succ te => rfl

theorem chunkHeader_last (h : strchr b LF = some p) (hs : chunkSize b (p + 1) = some 0) :
    chunkHeader b =
      (strstr (b.drop (p + 1 - 2)) crlfcrlf).elim .unfinished
        fun j => .last (p + 1 - 2 + j + 4) := by
  rw [chunkHeader, h]
  dsimp only
  rw [hs]
  cases strstr (b.drop (p + 1 - 2)) crlfcrlf <;> rfl

theorem readLastChunk_spec (hcq : con.readQueue.chunks = c :: cs) (h : Arranged e (c :: cs))
    (hc : c.remainingLength ≠ 0) (hp : strchr c.remaining LF = some p)
    (hsize : chunkSize c.remaining (p + 1) = some 0) :
    HeaderTurn conf e con (readLastChunk conf con c.remaining (p + 1)) := by
  have hbytes : con.readQueue.bytes = c.remaining ++ content cs := by
    rw [Chunkqueue.bytes, hcq, content_cons]
  have hpb : strchr con.readQueue.bytes LF = some p := hbytes ▸ strstr_append_left hp _
  have hsizeb : chunkSize con.readQueue.bytes (p + 1) = some 0 :=
    hbytes ▸ (chunkSize_append _ (mem_of_strchr hp)).trans hsize
  have hlt := strchr_lt_length hp
  rw [Chunk.length_remaining] at hlt
  have hheader := chunkHeader_last hpb hsizeb
  have hturns : cs.length < con.readQueue.chunks.length := by rw [hcq]; simp
  obtain ⟨t, ht, htb, ⟨e', harr⟩, hfound⟩ := searchTrailers_spec hcq h hc
    (show p + 1 - 2 ≤ c.remainingLength by omega) hturns
  rw [readLastChunk, if_neg (not_isPrefixOf_of_strchr hp), ht]
  dsimp only
  unfold endTrailers
  rcases hfound with ⟨j, hj, hpj⟩ | ⟨hnone, hpn, hlen⟩
  · have hj' := strstr_add_length_le hj
    rw [List.length_drop, show crlfcrlf.length = 4 from rfl] at hj'
    rw [hj] at hheader
    obtain ⟨q, hq, hqb, hqa⟩ := markRead_spec { con with readQueue := t.cq }
      (fun con => .leave { con with contentLength := con.requestContentQueue.bytesIn } 0)
      (show p + 1 - 2 + j + 4 ≤ t.cq.bytes.length by rw [htb]; omega)
    rw [hpj]
    dsimp only
    rw [finishBody, show ((p + 1 - 2 + j : ℕ) : ℤ) + 4 = ((p + 1 - 2 + j + 4 : ℕ) : ℤ) by push_cast; rfl,
      hq]
    exact .last q _ hheader (by rw [hqb, htb]) ⟨e', hqa e' harr⟩
  · rw [hnone] at hheader
    have hneg : 4 - (conf.address : ℤ) < 0 := by
      have := conf.address_gt
      omega
    rw [hpn]
    dsimp only
    rw [finishBody, markRead_neg _ hneg]
    cases e with
    | true =>
      have hcnone : t.c = none := Option.map_eq_none_iff.mp hlen
      rw [hcnone, Option.map_none, Option.getD_none]
      split_ifs with hcache hmax
      · exact .cut _ hheader (by simp [cutsTrailers, hcache.2]) (.inr rfl)
      · refine .unfinished _ hheader ?_ htb ⟨e', harr⟩
        simp only [true_and, Bool.not_eq_true] at hcache
        simp [cutsTrailers, hcache]
        omega
      · refine .cut _ hheader ?_ (.inl rfl)
        simp [cutsTrailers]
        omega
    | false =>
      have hclen : (t.c.map Chunk.remainingLength).getD 0 = con.readQueue.bytes.length := by
        rw [hlen]
        rfl
      have hcsome : t.c ≠ none := fun hcnone => by simp [hcnone] at hlen
      rw [if_neg fun hand => hcsome hand.1, hclen]
      split_ifs with hmax
      · exact .unfinished _ hheader (by simpa [cutsTrailers] using hmax) htb ⟨e', harr⟩
      · exact .cut _ hheader (by simpa [cutsTrailers] using hmax) (.inl rfl)

theorem HeaderTurn.inv_incomplete (h : HeaderTurn conf e con ph)
    (header : chunkHeader con.readQueue.bytes = .incomplete) :
    ∃ q, ph = .leave { con with readQueue := q } 0 ∧ q.bytes = con.readQueue.bytes := by
  cases h with
  | incomplete q header' bytes => exact ⟨q, rfl, bytes⟩
  | _ => simp_all

theorem HeaderTurn.inv_refused (h : HeaderTurn conf e con ph)
    (header : chunkHeader con.readQueue.bytes = .refused) :
    ∃ con', ph = .stop (connectionHandleReadPostError con' 400) := by
  cases h with
  | refused q => exact ⟨_, rfl⟩
  | _ => simp_all

theorem HeaderTurn.inv_unfinished (h : HeaderTurn conf e con ph)
    (header : chunkHeader con.readQueue.bytes = .unfinished) :
    (cutsTrailers conf e con.readQueue.bytes = true ∧
        ∃ r, ph = .stop r ∧ (r = .aborted ∨ r = .undefined)) ∨
      (cutsTrailers conf e con.readQueue.bytes = false ∧
        ∃ q, ph = .leave { con with readQueue := q } 0 ∧ q.bytes = con.readQueue.bytes) := by
  cases h with
  | unfinished q header' uncut bytes => exact .inr ⟨uncut, q, rfl, bytes⟩
  | cut r header' cuts hr => exact .inl ⟨cuts, r, rfl, hr⟩
  | _ => simp_all

theorem HeaderTurn.inv_last (h : HeaderTurn conf e con ph)
    (header : chunkHeader con.readQueue.bytes = .last hsz) :
    ∃ q, ph = .leave { con with
        readQueue := q, contentLength := con.requestContentQueue.bytesIn } 0 ∧
      q.bytes = con.readQueue.bytes.drop hsz := by
  cases h with
  | last q hsz' header' bytes =>
    cases header.symm.trans header'
    exact ⟨q, rfl, bytes⟩
  | _ => simp_all

theorem HeaderTurn.inv_size (h : HeaderTurn conf e con ph)
    (header : chunkHeader con.readQueue.bytes = .size te hsz)
    (short : requestTooLong conf con.requestContentQueue.bytesIn te = false) :
    ∃ q, ph = .run { con with readQueue := q } (wrap64 (te + 2)) ∧
      q.bytes = con.readQueue.bytes.drop hsz ∧ Arranged e q.chunks := by
  cases h with
  | size q te' hsz' header' short' bytes arranged =>
    cases header.symm.trans header'
    exact ⟨q, rfl, bytes, arranged⟩
  | tooLong q te' hsz' header' long =>
    cases header.symm.trans header'
    exact absurd (long.symm.trans short) (by decide)
  | _ => simp_all

theorem HeaderTurn.inv_tooLong (h : HeaderTurn conf e con ph)
    (header : chunkHeader con.readQueue.bytes = .size te hsz)
    (long : requestTooLong conf con.requestContentQueue.bytesIn te = true) :
    ∃ q, ph = .stop (connectionHandleReadPostError { con with readQueue := q } 413) ∧
      q.bytes = con.readQueue.bytes.drop hsz := by
  cases h with
  | size q te' hsz' header' short =>
    cases header.symm.trans header'
    exact absurd (long.symm.trans short) (by decide)
  | tooLong q te' hsz' header' long' bytes =>
    cases header.symm.trans header'
    exact ⟨q, rfl, bytes⟩
  | _ => simp_all

theorem HeaderTurn.of_bytes {q : Chunkqueue} (h : HeaderTurn conf e { con with readQueue := q } ph)
    (hq : q.bytes = con.readQueue.bytes) : HeaderTurn conf e con ph := by
  cases h with
  | incomplete q' header bytes arranged =>
    exact .incomplete q' (hq ▸ header) (bytes.trans hq) arranged
  | refused q' header bytes => exact .refused q' (hq ▸ header) (bytes.trans hq)
  | unfinished q' header uncut bytes arranged =>
    exact .unfinished q' (hq ▸ header) (hq ▸ uncut) (bytes.trans hq) arranged
  | cut r header cuts hr => exact .cut r (hq ▸ header) (hq ▸ cuts) hr
  | last q' hsz header bytes arranged =>
    exact .last q' hsz (hq ▸ header) (bytes.trans (by rw [← hq])) arranged
  | tooLong q' te hsz header long bytes =>
    exact .tooLong q' te hsz (hq ▸ header) long (bytes.trans (by rw [← hq]))
  | size q' te hsz header short bytes arranged =>
    exact .size q' te hsz (hq ▸ header) short (bytes.trans (by rw [← hq])) arranged

/-- Reading a chunk header is decided by the bytes of the read queue. -/
theorem readChunkHeader_spec :
    ∀ {turns : ℕ} {con : ReadPostCon}, Arranged e con.readQueue.chunks →
      con.readQueue.chunks.length < turns →
      HeaderTurn conf e con (readChunkHeader conf turns con)
  | 0, _, _, hturns => absurd hturns (Nat.not_lt_zero _)
  | turns + 1, con, h, hturns => by
    unfold readChunkHeader
    cases hcq : con.readQueue.chunks with
    | nil =>
      have hbytes : con.readQueue.bytes = [] := by rw [Chunkqueue.bytes, hcq]; rfl
      exact .incomplete con.readQueue (by rw [hbytes]; rfl) rfl ⟨e, h⟩
    | cons c cs =>
      rw [hcq] at h hturns
      have hbytes : con.readQueue.bytes = c.remaining ++ content cs := by
        rw [Chunkqueue.bytes, hcq, content_cons]
      dsimp only
      rw [if_neg (not_not.mpr h.type_eq)]
      cases hp : strchr c.remaining LF with
      | some p =>
        have hpb : strchr con.readQueue.bytes LF = some p := hbytes ▸ strstr_append_left hp _
        have hsizeb : chunkSize con.readQueue.bytes (p + 1) = chunkSize c.remaining (p + 1) :=
          hbytes ▸ chunkSize_append _ (mem_of_strchr hp)
        have hlt := strchr_lt_length hp
        rw [Chunk.length_remaining] at hlt
        dsimp only
        split
        · next hs => exact .refused con.readQueue (chunkHeader_refused hpb (hsizeb.trans hs)) rfl
        · next hs => exact readLastChunk_spec hcq h (by omega) hp hs
        · next te hte hs =>
          have hheader := chunkHeader_size hpb (hsizeb.trans hs) hte
          have hle : p + 1 ≤ con.readQueue.bytes.length := by
            rw [hbytes, List.length_append, Chunk.length_remaining]
            omega
          obtain ⟨q, hq, hqb, hqa⟩ := markRead_spec con (fun con' =>
            if requestTooLong conf con'.requestContentQueue.bytesIn te then
              .stop (connectionHandleReadPostError con' 413)
            else .run con' (wrap64 (te + 2))) hle
          rw [consumeChunkHeader, hq]
          by_cases hlong : requestTooLong conf con.requestContentQueue.bytesIn te
          · rw [if_pos hlong]
            exact .tooLong q te _ hheader hlong hqb
          · rw [if_neg hlong]
            exact .size q te _ hheader (by simpa using hlong) hqb (hqa e (hcq ▸ h))
      | none =>
        dsimp only
        split_ifs with hlong
        · refine .refused con.readQueue ?_ rfl
          have hle : 1024 ≤ con.readQueue.bytes.length := by
            rw [hbytes, List.length_append, Chunk.length_remaining]
            omega
          cases hpb : strchr con.readQueue.bytes LF with
          | none => rw [chunkHeader, hpb, if_pos hle]
          | some p =>
            refine chunkHeader_refused hpb (chunkSize_of_long ?_)
            by_contra hlt
            rw [hbytes] at hpb
            have := strchr_of_append hpb (by rw [Chunk.length_remaining]; omega)
            simp [hp] at this
        · have hincomplete : con.readQueue.bytes = c.remaining →
              chunkHeader con.readQueue.bytes = .incomplete := fun hb => by
            rw [chunkHeader, hb, hp]
            dsimp only
            rw [if_neg (by rwa [Chunk.length_remaining])]
          by_cases hc : c.remainingLength = 0
          · cases cs with
            | nil =>
              have hloop : compactLoop con.readQueue.chunks.head? con.readQueue.chunks.tail =
                  some (false, [c]) := by
                rw [hcq]
                rfl
              obtain ⟨q, hq, hqc, hqb⟩ := cqCompact_of_loop hloop
              rw [hq]
              exact .incomplete q (hincomplete (by simpa using hbytes)) hqb ⟨e, by rw [hqc]; exact h⟩
            | cons d ds => exact absurd hc h.2.1
          · obtain ⟨moved, q, hq, hcomp, hqb⟩ := cqCompact_spec hcq h hc
            rw [hq]
            generalize hqc : q.chunks = ds at hcomp
            cases hcomp with
            | merged d ds hcs harr =>
              have hlt : q.chunks.length < turns := by
                rw [hqc]
                rw [hcs] at hturns
                simpa using hturns
              have hq' : HeaderTurn conf e { con with readQueue := q }
                  (readChunkHeader conf turns { con with readQueue := q }) :=
                readChunkHeader_spec (show Arranged e q.chunks by rw [hqc]; exact harr) hlt
              exact hq'.of_bytes hqb
            | alone he hcs =>
              refine .incomplete q (hincomplete ?_) hqb ⟨e, ?_⟩
              · rw [hbytes, hcs, content_nil, List.append_nil]
              · rw [hqc]
                exact hcs ▸ h
            | behind d he hcs hd =>
              refine .incomplete q (hincomplete ?_) hqb ⟨false, ?_⟩
              · rw [hbytes, hcs, content_cons, hd, content_nil, List.append_nil, List.append_nil]
              · have hmerged := remainingLength_mergeChunks c d
                rw [hqc]
                rw [hcs] at h
                exact ⟨h.2.2.1, by simp; omega⟩

end HeaderTurn

/-! ## Reading the octets of a chunk -/

/-- The first `m` bytes of the read queue went to the request content, and the first `k` are gone. -/
structure Moved (con : ReadPostCon) (m k : ℕ) (con' : ReadPostCon) : Prop where
  eq : con' = { con with
    readQueue := con'.readQueue
    requestContentQueue := con'.requestContentQueue
    io := con'.io }
  bytes : con'.readQueue.bytes = con.readQueue.bytes.drop k
  arranged : ∀ e, Arranged e con.readQueue.chunks → Arranged e con'.readQueue.chunks
  stored : Appended con.requestContentQueue con'.requestContentQueue (con.readQueue.bytes.take m)
  clean : con.io = .success → TempdirLeft con.requestContentQueue →
    con'.io = .success ∧ TempdirLeft con'.requestContentQueue

theorem Moved.refl (con : ReadPostCon) : Moved con 0 0 con where
  eq := rfl
  bytes := rfl
  arranged _ h := h
  stored := .refl _
  clean h h' := ⟨h, h'⟩

theorem len_eq (con : ReadPostCon) : con.len = con.readQueue.bytes.length := by
  have h : con.readQueue.bytesIn = con.readQueue.bytesOut + con.readQueue.bytes.length :=
    con.readQueue.balanced
  rw [ReadPostCon.len]
  omega

section DataTurn

variable {e : Bool} {con : ReadPostCon}

/-- The octets of the chunk that are there are moved, unless a tempfile cannot be written. -/
theorem readChunkData_spec (con : ReadPostCon) (n : ℕ) :
    (∃ con', Moved con (min con.readQueue.bytes.length n) (min con.readQueue.bytes.length n) con' ∧
        readChunkData con (n + 2) = .run con' (n + 2 - min con.readQueue.bytes.length n)) ∨
      ∃ con', readChunkData con (n + 2) = .stop (connectionHandleReadPostError con' 500) ∧
        ¬ (con.io = .success ∧ TempdirLeft con.requestContentQueue) := by
  have hlen : min con.len ((n : ℤ) + 2 - 2) = (min con.readQueue.bytes.length n : ℕ) := by
    rw [len_eq]
    omega
  unfold readChunkData
  dsimp only
  have hm : min con.readQueue.bytes.length n ≤ con.readQueue.bytes.length := min_le_left _ _
  rw [hlen]
  generalize min con.readQueue.bytes.length n = m at hm ⊢
  split_ifs with hsmall hok
  · refine .inl ⟨_, ?_, rfl⟩
    refine ⟨rfl, bytes_steal_snd con.requestContentQueue _ _, fun e h => h.steal _,
      ⟨bytes_steal_fst _ _ _, ?_⟩,
      fun h h' => ⟨h, h'⟩⟩
    change _ + _ = _
    rw [← length_content, (stealLoop_content _ _).1]
    rfl
  · obtain ⟨hstored, hmoved⟩ := stealTempLoop_ok hok
    refine .inl ⟨_, ?_, rfl⟩
    refine ⟨rfl, ?_, fun e h => h.stealTemp _ _ _, hstored, fun h h' => ?_⟩
    · refine (stealTempLoop_content _ _ _ _).2.trans ?_
      rw [hmoved, Int.toNat_natCast, min_eq_left (show m ≤ (content con.readQueue.chunks).length from hm)]
      rfl
    · rw [chunkqueueStealWithTempfiles, h]
      exact (stealTempLoop_success h' _ _).2
  · refine .inr ⟨_, rfl, fun ⟨h, h'⟩ => hok ?_⟩
    rw [h]
    exact (stealTempLoop_success h' _ _).1

theorem crlf_isPrefix {p q : UInt8} {t : Bytes} :
    [CR, LF] <+: p :: q :: t ↔ p = CR ∧ q = LF := by
  rw [List.cons_prefix_cons, List.cons_prefix_cons, eq_comm, eq_comm (a := LF)]
  simp

theorem crlf_spec (h : Arranged e cq.chunks) (hlen : 2 ≤ cq.bytes.length) :
    connectionHandleReadPostChunkedCrlf cq = -1 ↔ ¬ [CR, LF] <+: cq.bytes := by
  rw [Chunkqueue.bytes] at hlen ⊢
  unfold connectionHandleReadPostChunkedCrlf
  cases hcq : cq.chunks with
  | nil => simp [hcq] at hlen
  | cons c cs =>
    rw [hcq] at h hlen
    have hc := h.head_ne (fun hnil => by simp [hnil] at hlen)
    rw [← Chunk.length_remaining] at hc
    rw [content_cons] at hlen ⊢
    cases hr : c.remaining with
    | nil => exact absurd (by rw [hr]; rfl) hc
    | cons p t =>
      cases t with
      | nil =>
        rw [hr] at hlen
        cases cs with
        | nil => simp at hlen
        | cons d ds =>
          have hd := h.tail.head_ne (fun hnil => by simp [hnil] at hlen)
          rw [← Chunk.length_remaining] at hd
          cases hdr : d.remaining with
          | nil => exact absurd (by rw [hdr]; rfl) hd
          | cons q t =>
            rw [content_cons, hdr, List.singleton_append, List.cons_append, crlf_isPrefix]
            simp only [hr, crlfLoop, hdr]
            by_cases hp : p = CR <;> by_cases hq : q = LF <;> simp [hp, hq]
      | cons q t =>
        rw [List.cons_append, List.cons_append, crlf_isPrefix]
        simp only [hr]
        by_cases hp : p = CR <;> by_cases hq : q = LF <;> simp [hp, hq]

/-- What reading the last `n` octets of a chunk and the CRLF behind them does to a connection. -/
inductive DataTurn (con : ReadPostCon) (n : ℕ) : Phase → Prop
  | short (con' : ReadPostCon) (hlen : con.readQueue.bytes.length < n + 2)
      (moved : Moved con (min con.readQueue.bytes.length n) (min con.readQueue.bytes.length n) con') :
      DataTurn con n (.leave con' (n + 2 - min con.readQueue.bytes.length n))
  | failed (con' : ReadPostCon)
      (hio : ¬ (con.io = .success ∧ TempdirLeft con.requestContentQueue)) :
      DataTurn con n (.stop (connectionHandleReadPostError con' 500))
  | noCrlf (con' : ReadPostCon) (hlen : n + 2 ≤ con.readQueue.bytes.length)
      (hcrlf : ¬ [CR, LF] <+: con.readQueue.bytes.drop n) :
      DataTurn con n (.stop (connectionHandleReadPostError con' 400))
  | crlf (con' : ReadPostCon) (hlen : n + 2 ≤ con.readQueue.bytes.length)
      (hcrlf : [CR, LF] <+: con.readQueue.bytes.drop n) (moved : Moved con n (n + 2) con') :
      DataTurn con n (.run con' 0)

theorem endChunkData_spec {con' : ReadPostCon} {n : ℕ} (h : Arranged e con.readQueue.chunks)
    (hm : Moved con (min con.readQueue.bytes.length n) (min con.readQueue.bytes.length n) con') :
    DataTurn con n (endChunkData con' (n + 2 - min con.readQueue.bytes.length n)) := by
  have hlen := congrArg List.length hm.bytes
  rw [List.length_drop] at hlen
  unfold endChunkData
  by_cases hshort : con.readQueue.bytes.length < n + 2
  · rw [if_pos (by rw [len_eq]; omega)]
    exact .short con' hshort hm
  · have hmin : min con.readQueue.bytes.length n = n := by omega
    rw [hmin] at hm hlen ⊢
    have hbytes := hm.bytes
    have hiff := crlf_spec (hm.arranged e h) (by omega)
    rw [hbytes] at hiff
    rw [if_neg (by rw [len_eq]; omega), if_pos (by omega)]
    by_cases hcrlf : [CR, LF] <+: con.readQueue.bytes.drop n
    · obtain ⟨q, hq, hqb, hqa⟩ := markRead_spec con' (fun con => .run con 0)
        (show 2 ≤ con'.readQueue.bytes.length by omega)
      rw [if_neg fun hcr => hiff.mp hcr hcrlf, show (2 : ℤ) = ((2 : ℕ) : ℤ) from rfl, hq]
      refine .crlf _ (by omega) hcrlf ⟨?_, ?_, fun e h => hqa e (hm.arranged e h), hm.stored, hm.clean⟩
      · rw [hm.eq]
      · rw [hqb, hbytes, List.drop_drop]
    · rw [if_pos (hiff.mpr hcrlf)]
      exact .noCrlf con' (by omega) hcrlf

/-- With a negative `te_chunked` nothing is read. -/
theorem readChunk_neg {te : ℤ} (h : te < 0) : readChunk con te = .run con te := by
  rw [readChunk, if_neg (by omega), Phase.andThen, endChunkData, len_eq, if_neg (by omega),
    if_neg (by omega)]

/-- Reading the octets of a chunk is decided by the bytes of the read queue, as long as tempfiles
can be written. -/
theorem readChunk_spec (h : Arranged e con.readQueue.chunks) (n : ℕ) :
    DataTurn con n (readChunk con (n + 2)) := by
  unfold readChunk
  rcases Nat.eq_zero_or_pos n with rfl | hn
  · have hm : Moved con (min con.readQueue.bytes.length 0) (min con.readQueue.bytes.length 0) con := by
      rw [Nat.min_zero]
      exact .refl con
    simpa [Phase.andThen] using endChunkData_spec h hm
  · rw [if_pos (by omega)]
    rcases readChunkData_spec con n with ⟨con', hm, hrun⟩ | ⟨con', hstop, hio⟩
    · rw [hrun]
      exact endChunkData_spec h hm
    · rw [hstop]
      exact .failed con' hio

end DataTurn

section Loop

variable {conf : ReadPostConf} {turns turns' : ℕ} {con : ReadPostCon} {te : ℤ}
  {r r' : ReadPostResult}

theorem connectionHandleReadPostError_ne (con : ReadPostCon) (httpStatus : ℕ) :
    (∀ con', connectionHandleReadPostError con httpStatus ≠ .goOn con') ∧
      connectionHandleReadPostError con httpStatus ≠ .aborted ∧
      connectionHandleReadPostError con httpStatus ≠ .undefined := by
  unfold connectionHandleReadPostError
  dsimp only
  split_ifs <;> simp

theorem readPostLoop_succ (h : readPostLoop conf turns con te = some r) :
    readPostLoop conf (turns + 1) con te = some r := by
  induction turns generalizing con te with
  | zero => exact absurd h (by simp [readPostLoop])
  | succ turns ih =>
    rw [readPostLoop] at h ⊢
    cases hturn : readPostTurn conf con te with
    | run con' te' =>
      rw [hturn] at h
      dsimp only at h ⊢
      by_cases hempty : con'.readQueue.isEmpty
      · rwa [if_pos hempty] at h ⊢
      · rw [if_neg hempty] at h ⊢
        exact ih h
    | leave con' te' => rwa [hturn] at h
    | stop r' => rwa [hturn] at h

theorem readPostLoop_le (h : readPostLoop conf turns con te = some r) (hle : turns ≤ turns') :
    readPostLoop conf turns' con te = some r := by
  induction hle with
  | refl => exact h
  | step _ ih => exact readPostLoop_succ ih

theorem readPostLoop_unique (h : readPostLoop conf turns con te = some r)
    (h' : readPostLoop conf turns' con te = some r') : r = r' := by
  have hm := readPostLoop_le h (le_max_left turns turns')
  rw [readPostLoop_le h' (le_max_right turns turns')] at hm
  exact (Option.some.inj hm).symm

theorem headerTurn_readChunkHeader (conf : ReadPostConf) (h : Arranged e con.readQueue.chunks) :
    HeaderTurn conf e con (readChunkHeader conf (con.readQueue.chunks.length + 1) con) :=
  readChunkHeader_spec h (Nat.lt_succ_self _)

/-- A turn at a chunk header, which what the bytes hold decides. -/
theorem readPostTurn_header (conf : ReadPostConf) (h : Arranged e con.readQueue.chunks) :
    ∃ ph, readPostTurn conf con 0 = ph.andThen readChunk ∧ HeaderTurn conf e con ph :=
  ⟨_, rfl, headerTurn_readChunkHeader conf h⟩

theorem readPostTurn_data (conf : ReadPostConf) (con : ReadPostCon) (n : ℕ) :
    readPostTurn conf con (n + 2) = readChunk con (n + 2) := by
  rw [readPostTurn, if_neg (by omega)]
  rfl

theorem readPostLoop_cut (h : Arranged e con.readQueue.chunks)
    (header : chunkHeader con.readQueue.bytes = .unfinished)
    (cuts : cutsTrailers conf e con.readQueue.bytes = true)
    (hr : readPostLoop conf turns con 0 = some r) : r = .aborted ∨ r = .undefined := by
  obtain ⟨ph, hturn, hheader⟩ := readPostTurn_header conf h
  rcases hheader.inv_unfinished header with ⟨-, r', rfl, hr'⟩ | ⟨uncut, -⟩
  · cases turns with
    | zero => exact absurd hr (by simp [readPostLoop])
    | succ turns =>
      rw [readPostLoop, hturn] at hr
      cases hr
      exact hr'
  · exact absurd (cuts.symm.trans uncut) (by decide)

end Loop

end Lighttpd
