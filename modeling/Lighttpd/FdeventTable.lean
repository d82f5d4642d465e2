import Mathlib.Data.Int.Notation
import Mathlib.Data.List.Nodup
import Mathlib.Data.List.Perm.Subperm
import Mathlib.Logic.Function.Basic
import Lighttpd.Lib.FaultRuns

/-!
# The table of descriptors

`ev->fdarray` has a pointer for each descriptor: `NULL`, a node, or a node with a tag in the two low
bits, which is then on the list `ev->pendclose` that goes through the `ctx` of the nodes. Every call
runs under `event_lock`, so that a run of all threads is a list of calls. A pointer that is
dereferenced with a tag, or when it is `NULL`, is a fault here. Not all of the calls ask for both,
and a run does what it should exactly when each call meets a slot that it can cope with
(`survives_iff`).
-/

namespace Lighttpd

open FaultRuns

/-! ## Nodes -/

/-- A pointer to a node: `NULL` or the address of a node, with the two low bits apart. -/
structure FdPtr where
  node : Option ℕ
  tag : ℕ
  deriving DecidableEq, Repr

/-- `NULL` -/
def FdPtr.null : FdPtr := ⟨none, 0⟩

/-- What is in the `ctx` of a node: the context of its handler, or the next node of `pendclose`. -/
inductive FdCtx (C : Type)
  | user (ctx : C)
  | next (fdn : Option ℕ)

/-- `fdnode` -/
structure Fdnode (H C : Type) where
  handler : Option H
  fd : ℤ
  ctx : FdCtx C
  events : BitVec 32

/-- What goes wrong: a pointer that is `NULL`, has a tag, or leads to no node; the crash of
`SEGFAULT`; an index outside of `fdarray`; a `ctx` that is followed and is no link; a loop that goes
on. -/
inductive FdFault
  | null
  | tagged
  | freed
  | segfault
  | range
  | link
  | fuel
  deriving DecidableEq, Repr

/-- `(fdnode *)fdn->ctx` -/
def Fdnode.next {H C : Type} (n : Fdnode H C) : Except FdFault (Option ℕ) :=
  match n.ctx with
  | .user _ => .error .link
  | .next fdn => .ok fdn

/-- `fdevents`, with the nodes that are allocated, and what has been closed, freed and called. -/
structure Fdevents (H C : Type) where
  maxfds : ℕ
  fdarray : ℤ → FdPtr
  nodes : ℕ → Option (Fdnode H C)
  pendclose : Option ℕ
  closed : List ℤ
  freed : List ℕ
  called : List (H × Option (FdCtx C) × BitVec 32)

namespace Fdevents

variable {H C : Type} (ev : Fdevents H C)

/-- `fdevent_init` -/
def init (maxfds : ℕ) : Fdevents H C := ⟨maxfds, fun _ => .null, fun _ => none, none, [], [], []⟩

/-- The table has a slot for the descriptor. -/
def InTable (fd : ℤ) : Prop := 0 ≤ fd ∧ fd < ev.maxfds

instance (fd : ℤ) : Decidable (ev.InTable fd) := inferInstanceAs (Decidable (_ ∧ _))

/-- `ev->fdarray[fd]` -/
def slot (fd : ℤ) : Except FdFault FdPtr :=
  if ev.InTable fd then .ok (ev.fdarray fd) else .error .range

/-- The node that a pointer leads to, and its address. -/
def deref (fdn : FdPtr) : Except FdFault (ℕ × Fdnode H C) :=
  if fdn.tag ≠ 0 then .error .tagged
  else
    match fdn.node with
    | none => .error .null
    | some a =>
      match ev.nodes a with
      | none => .error .freed
      | some n => .ok (a, n)

/-- A slot is written. -/
def setSlot (fd : ℤ) (fdn : FdPtr) : Fdevents H C :=
  { ev with fdarray := Function.update ev.fdarray fd fdn }

/-- A node is written. -/
def setNode (a : ℕ) (n : Fdnode H C) : Fdevents H C :=
  { ev with nodes := Function.update ev.nodes a (some n) }

/-- `fdnode_free` -/
def fdnodeFree (fdn : Option ℕ) : Except FdFault (Fdevents H C) :=
  match fdn with
  | none => .ok ev
  | some a =>
    match ev.nodes a with
    | none => .error .freed
    | some _ =>
      .ok { ev with
        nodes := Function.update ev.nodes a none
        freed := ev.freed ++ [a] }

/-! ## The calls -/

/-- `fdevent_register`, when `fdnode_init` returns `a`. -/
def register (fd : ℤ) (handler : Option H) (ctx : C) (a : ℕ) : Except FdFault (Fdevents H C) := do
  let _ ← ev.slot fd
  pure ((ev.setNode a ⟨handler, fd, .user ctx, 0⟩).setSlot fd ⟨some a, 0⟩)

/-- `fdevent_unregister` -/
def unregister (fd : ℤ) : Except FdFault (Fdevents H C) := do
  let fdn ← ev.slot fd
  if fdn.tag ≠ 0 then pure ev
  else do
    let ev ← ev.fdnodeFree fdn.node
    pure (ev.setSlot fd .null)

/-- `fdevent_sched_close` -/
def schedClose (fd : ℤ) (issock : Bool) : Except FdFault (Fdevents H C) := do
  let fdn ← ev.slot fd
  if fdn.tag ≠ 0 then pure ev
  else do
    let ev := ev.setSlot fd { fdn with tag := if issock then 1 else 2 }
    let r ← ev.deref fdn
    pure { ev.setNode r.1 { r.2 with ctx := .next ev.pendclose } with pendclose := some r.1 }

/-- The loop of `fdevent_sched_run`. -/
def schedRunLoop : ℕ → Option ℕ → Fdevents H C → Except FdFault (Fdevents H C)
  | 0, _, _ => .error .fuel
  | _ + 1, none, ev => .ok { ev with pendclose := none }
  | n + 1, some a, ev => do
    let r ← ev.deref ⟨some a, 0⟩
    let ev := { ev with closed := ev.closed ++ [r.2.fd] }
    let fdn ← r.2.next
    let ev ← ev.fdnodeFree (some a)
    let _ ← ev.slot r.2.fd
    schedRunLoop n fdn (ev.setSlot r.2.fd .null)

/-- `fdevent_sched_run` -/
def schedRun : Except FdFault (Fdevents H C) := schedRunLoop (ev.maxfds + 1) ev.pendclose ev

/-- `fdevent_event_get_interest` -/
def eventGetInterest (fd : ℤ) : Except FdFault (BitVec 32) :=
  if 0 ≤ fd then do
    let fdn ← ev.slot fd
    let r ← ev.deref fdn
    pure r.2.events
  else pure 0

/-- `fdevent_event_del` -/
def eventDel (fd : ℤ) : Except FdFault (Fdevents H C) :=
  if fd = -1 then pure ev
  else do
    let fdn ← ev.slot fd
    if fdn.tag ≠ 0 then pure ev
    else do
      let r ← ev.deref fdn
      pure (ev.setNode r.1 { r.2 with events := 0 })

/-- `fdevent_event_set` -/
def eventSet (fd : ℤ) (events : BitVec 32) : Except FdFault (Fdevents H C) :=
  if fd = -1 then pure ev
  else do
    let fdn ← ev.slot fd
    if fdn = .null then pure ev
    else do
      let r ← ev.deref fdn
      if r.2.events = events then pure ev
      else pure (ev.setNode r.1 { r.2 with events := events })

/-- `fdevent_event_add` -/
def eventAdd (fd : ℤ) (event : BitVec 32) : Except FdFault (Fdevents H C) :=
  if fd = -1 then pure ev
  else do
    let fdn ← ev.slot fd
    let r ← ev.deref fdn
    if r.2.events &&& event = event then pure ev
    else pure (ev.setNode r.1 { r.2 with events := r.2.events ||| event })

/-- `fdevent_event_clr` -/
def eventClr (fd : ℤ) (event : BitVec 32) : Except FdFault (Fdevents H C) :=
  if fd = -1 then pure ev
  else do
    let fdn ← ev.slot fd
    let r ← ev.deref fdn
    if r.2.events &&& event = 0 then pure ev
    else pure (ev.setNode r.1 { r.2 with events := r.2.events &&& ~~~event })

/-- `fdevent_get_handler` -/
def getHandler (fd : ℤ) : Except FdFault (Option H) := do
  let fdn ← ev.slot fd
  if fdn.tag ≠ 0 then pure none
  else do
    let r ← ev.deref fdn
    if r.2.fd ≠ fd then .error .segfault else pure r.2.handler

/-- `fdevent_get_context` -/
def getContext (fd : ℤ) : Except FdFault (Option (FdCtx C)) := do
  let fdn ← ev.slot fd
  if fdn = .null then .error .segfault
  else if fdn.tag ≠ 0 then pure none
  else do
    let r ← ev.deref fdn
    if r.2.fd ≠ fd then .error .segfault else pure (some r.2.ctx)

/-- `fdevent_call`, for the event that the poller reports, if there is one. -/
def call (event : Option (ℤ × BitVec 32)) : Except FdFault (Fdevents H C) :=
  match event with
  | none => pure ev
  | some e => do
    let handler ← ev.getHandler e.1
    match handler with
    | none => pure ev
    | some h => do
      let context ← ev.getContext e.1
      pure { ev with called := ev.called ++ [(h, context, e.2)] }

end Fdevents

/-- A call of one of the threads. For `fdevent_register` it has the node that is allocated. -/
inductive FdCall (H C : Type)
  | register (fd : ℤ) (handler : Option H) (ctx : C) (a : ℕ)
  | unregister (fd : ℤ)
  | eventSet (fd : ℤ) (events : BitVec 32)
  | eventAdd (fd : ℤ) (event : BitVec 32)
  | eventClr (fd : ℤ) (event : BitVec 32)
  | eventDel (fd : ℤ)
  | eventGetInterest (fd : ℤ)
  | schedClose (fd : ℤ) (issock : Bool)
  | schedRun
  | call (event : Option (ℤ × BitVec 32))

variable {H C : Type}

/-- One call. -/
def Fdevents.step (ev : Fdevents H C) : FdCall H C → Except FdFault (Fdevents H C)
  | .register fd handler ctx a => ev.register fd handler ctx a
  | .unregister fd => ev.unregister fd
  | .eventSet fd events => ev.eventSet fd events
  | .eventAdd fd event => ev.eventAdd fd event
  | .eventClr fd event => ev.eventClr fd event
  | .eventDel fd => ev.eventDel fd
  | .eventGetInterest fd => (ev.eventGetInterest fd).map fun _ => ev
  | .schedClose fd issock => ev.schedClose fd issock
  | .schedRun => ev.schedRun
  | .call event => ev.call event

/-- The calls one after the other. -/
def Fdevents.run (ev : Fdevents H C) : List (FdCall H C) → Except FdFault (Fdevents H C)
  | [] => .ok ev
  | c :: calls => do
    let ev ← ev.step c
    ev.run calls

/-- A descriptor is registered only in an empty slot, and a node that is allocated is not in use. -/
def Fdevents.Allows (ev : Fdevents H C) : FdCall H C → Prop
  | .register fd _ _ a => ev.fdarray fd = .null ∧ ev.nodes a = none
  | _ => True

/-- Every call of the run is allowed where it is made. -/
def Fdevents.AllowsRun (ev : Fdevents H C) : List (FdCall H C) → Prop
  | [] => True
  | c :: calls => ev.Allows c ∧ ∀ ev', ev.step c = .ok ev' → ev'.AllowsRun calls

/-! ## What should hold -/

/-- The list of the nodes from `fdn` on, each with its descriptor. -/
def PendingClose (nodes : ℕ → Option (Fdnode H C)) : Option ℕ → List (ℕ × ℤ) → Prop
  | fdn, [] => fdn = none
  | fdn, q :: l => fdn = some q.1 ∧ ∃ n next, nodes q.1 = some n ∧ n.fd = q.2 ∧ n.ctx = .next next ∧
      PendingClose nodes next l

/-- The slot has a node of the descriptor, without a tag. -/
def Fdevents.Live (ev : Fdevents H C) (fd : ℤ) : Prop :=
  ∃ a n, ev.fdarray fd = ⟨some a, 0⟩ ∧ ev.nodes a = some n ∧ n.fd = fd

/-- Every slot is empty, live, or tagged and on the list once. -/
def Fdevents.TableOk (ev : Fdevents H C) : Prop :=
  ∃ l, PendingClose ev.nodes ev.pendclose l ∧ ∀ fd, ev.InTable fd →
    ev.fdarray fd = .null ∨ ev.Live fd ∨
      ∃ a tag, ev.fdarray fd = ⟨some a, tag⟩ ∧ (tag = 1 ∨ tag = 2) ∧ (a, fd) ∈ l ∧
        (l.map Prod.fst).count a = 1

/-- The descriptor has been scheduled since the last `fdevent_sched_run`. -/
def FdScheduled (calls : List (FdCall H C)) (fd : ℤ) : Prop :=
  ∃ pre issock post, calls = pre ++ .schedClose fd issock :: post ∧ .schedRun ∉ post

/-- What the descriptor was registered with the last time. -/
def FdRegistered (calls : List (FdCall H C)) (fd : ℤ) (handler : Option H) (ctx : C) : Prop :=
  ∃ pre a post, calls = pre ++ .register fd handler ctx a :: post ∧
    ∀ handler' ctx' a', .register fd handler' ctx' a' ∉ post

/-- A call after the calls `pre` does what it should. -/
structure FdCallOk (pre : List (FdCall H C)) (ev : Fdevents H C) (c : FdCall H C)
    (ev' : Fdevents H C) : Prop where
  table : ev'.TableOk
  closes : c = .schedRun → ∃ l : List (ℕ × ℤ), ev'.closed = ev.closed ++ l.map Prod.snd ∧
    ev'.freed = ev.freed ++ l.map Prod.fst ∧ ∀ fd,
      (FdScheduled pre fd → (l.map Prod.snd).count fd = 1 ∧ ev'.fdarray fd = .null ∧
        ∃ a tag, ev.fdarray fd = ⟨some a, tag⟩ ∧ (l.map Prod.fst).count a = 1) ∧
      (¬ FdScheduled pre fd → fd ∉ l.map Prod.snd)
  keeps : c ≠ .schedRun → ev'.closed = ev.closed
  calls : ev'.called = ev.called ∨ ∃ fd revents h ctx, c = .call (some (fd, revents)) ∧
    ev.Live fd ∧ FdRegistered pre fd (some h) ctx ∧
    ev'.called = ev.called ++ [(h, some (.user ctx), revents)]

/-- Every call of the run returns and does what it should. -/
def Survives (maxfds : ℕ) (calls : List (FdCall H C)) : Prop :=
  ∀ pre c post, calls = pre ++ c :: post → ∃ ev ev',
    (Fdevents.init maxfds).run pre = .ok ev ∧ ev.step c = .ok ev' ∧ FdCallOk pre ev c ev'

/-- The slots that the call can cope with. -/
def Fdevents.Copes (ev : Fdevents H C) : FdCall H C → Prop
  | .register fd _ _ _ => ev.InTable fd
  | .unregister fd => ev.InTable fd
  | .eventSet fd _ => fd ≠ -1 → ev.InTable fd ∧ (ev.fdarray fd).tag = 0
  | .eventAdd fd _ => fd ≠ -1 → ev.InTable fd ∧ ev.fdarray fd ≠ .null ∧ (ev.fdarray fd).tag = 0
  | .eventClr fd _ => fd ≠ -1 → ev.InTable fd ∧ ev.fdarray fd ≠ .null ∧ (ev.fdarray fd).tag = 0
  | .eventDel fd => fd ≠ -1 → ev.InTable fd ∧ ev.fdarray fd ≠ .null
  | .eventGetInterest fd =>
    0 ≤ fd → ev.InTable fd ∧ ev.fdarray fd ≠ .null ∧ (ev.fdarray fd).tag = 0
  | .schedClose fd _ => ev.InTable fd ∧ ev.fdarray fd ≠ .null
  | .schedRun => True
  | .call none => True
  | .call (some e) => ev.InTable e.1 ∧ ev.fdarray e.1 ≠ .null

/-- Every call of the run meets a slot that it can cope with. -/
def Fdevents.CopesRun (ev : Fdevents H C) : List (FdCall H C) → Prop
  | [] => True
  | c :: calls => ev.Copes c ∧ ∀ ev', ev.step c = .ok ev' → ev'.CopesRun calls

variable {handler : Option H} {ctx : C}

section History

variable {pre : List (FdCall H C)} {c : FdCall H C} {fd : ℤ}

theorem fdScheduled_concat : FdScheduled (pre ++ [c]) fd ↔
    (∃ issock, c = .schedClose fd issock) ∨ c ≠ .schedRun ∧ FdScheduled pre fd := by
  constructor
  · rintro ⟨a, issock, post, heq, hpost⟩
    rcases List.eq_nil_or_concat' post with rfl | ⟨init, c', rfl⟩
    · exact .inl ⟨issock, List.singleton_inj.mp (List.append_inj' heq rfl).2⟩
    · rw [← List.cons_append, ← List.append_assoc] at heq
      obtain ⟨hpre, hc⟩ := List.append_inj' heq rfl
      obtain rfl := List.singleton_inj.mp hc
      exact .inr ⟨fun hrun => hpost (by simp [hrun]),
        a, issock, init, hpre, fun hmem => hpost (List.mem_append_left _ hmem)⟩
  · rintro (⟨issock, rfl⟩ | ⟨hc, a, issock, post, rfl, hpost⟩)
    · exact ⟨pre, issock, [], rfl, List.not_mem_nil⟩
    · refine ⟨a, issock, post ++ [c], by simp, fun hmem => ?_⟩
      rcases List.mem_append.mp hmem with hmem | hmem
      · exact hpost hmem
      · exact hc (List.mem_singleton.mp hmem).symm

theorem FdRegistered.concat (h : FdRegistered pre fd handler ctx)
    (hc : ∀ handler' ctx' a', c ≠ .register fd handler' ctx' a') :
    FdRegistered (pre ++ [c]) fd handler ctx := by
  obtain ⟨p, a, post, rfl, hpost⟩ := h
  refine ⟨p, a, post ++ [c], by simp, fun handler' ctx' a' hmem => ?_⟩
  rcases List.mem_append.mp hmem with hmem | hmem
  · exact hpost _ _ _ hmem
  · exact hc _ _ _ (List.mem_singleton.mp hmem).symm

theorem fdRegistered_register (handler : Option H) (ctx : C) (a : ℕ) :
    FdRegistered (pre ++ [.register fd handler ctx a]) fd handler ctx :=
  ⟨pre, a, [], rfl, fun _ _ _ => List.not_mem_nil⟩

end History

/-! ## The list of what is to be closed -/

section PendingClose

variable {nodes nodes' : ℕ → Option (Fdnode H C)}

theorem PendingClose.congr : ∀ {l : List (ℕ × ℤ)} {fdn : Option ℕ}, PendingClose nodes fdn l →
    (∀ q ∈ l, nodes' q.1 = nodes q.1) → PendingClose nodes' fdn l
  | [], _, h, _ => h
  | q :: _, _, ⟨hq, n, next, hn, hfd, hctx, h⟩, hsame =>
    ⟨hq, n, next, (hsame q List.mem_cons_self).trans hn, hfd, hctx,
      PendingClose.congr h fun r hr => hsame r (List.mem_cons_of_mem q hr)⟩

theorem PendingClose.node : ∀ {l : List (ℕ × ℤ)} {fdn : Option ℕ}, PendingClose nodes fdn l →
    ∀ q ∈ l, ∃ n, nodes q.1 = some n ∧ n.fd = q.2
  | q :: _, _, ⟨_, n, _, hn, hfd, _, h⟩, r, hr => by
    rcases List.mem_cons.mp hr with rfl | hr
    · exact ⟨n, hn, hfd⟩
    · exact PendingClose.node h r hr

variable {ev : Fdevents H C}

theorem Fdevents.deref_eq {a : ℕ} {n : Fdnode H C} (hn : ev.nodes a = some n) :
    ev.deref ⟨some a, 0⟩ = .ok (a, n) := by
  rw [Fdevents.deref, if_neg (by simp)]
  simp only [hn]

theorem Fdevents.slot_eq {fd : ℤ} (h : ev.InTable fd) : ev.slot fd = .ok (ev.fdarray fd) := if_pos h

theorem Fdevents.fdnodeFree_eq {a : ℕ} {n : Fdnode H C} (hn : ev.nodes a = some n) :
    ev.fdnodeFree (some a) = .ok { ev with
      nodes := Function.update ev.nodes a none
      freed := ev.freed ++ [a] } := by
  simp only [Fdevents.fdnodeFree, hn]

/-- The table after the nodes of the list have been closed and freed. -/
def Fdevents.closeAll (ev : Fdevents H C) (l : List (ℕ × ℤ)) : Fdevents H C :=
  { ev with
    fdarray := fun fd => if fd ∈ l.map Prod.snd then .null else ev.fdarray fd
    nodes := fun a => if a ∈ l.map Prod.fst then none else ev.nodes a
    pendclose := none
    closed := ev.closed ++ l.map Prod.snd
    freed := ev.freed ++ l.map Prod.fst }

/-- The table after the first node of a list has been closed and freed. -/
def Fdevents.closeOne (ev : Fdevents H C) (q : ℕ × ℤ) : Fdevents H C :=
  { ev with
    fdarray := Function.update ev.fdarray q.2 .null
    nodes := Function.update ev.nodes q.1 none
    closed := ev.closed ++ [q.2]
    freed := ev.freed ++ [q.1] }

theorem Fdevents.closeAll_cons (ev : Fdevents H C) (q : ℕ × ℤ) (l : List (ℕ × ℤ)) :
    ev.closeAll (q :: l) = (ev.closeOne q).closeAll l := by
  have hslots : (fun fd => if fd ∈ (q :: l).map Prod.snd then FdPtr.null else ev.fdarray fd) =
      fun fd => if fd ∈ l.map Prod.snd then .null else (ev.closeOne q).fdarray fd := by
    funext fd
    by_cases hfd : fd = q.2
    · simp [hfd, closeOne]
    · have hiff : fd ∈ (q :: l).map Prod.snd ↔ fd ∈ l.map Prod.snd := by
        rw [List.map_cons, List.mem_cons, or_iff_right hfd]
      simp only [hiff, closeOne, Function.update_of_ne hfd]
  have hnodes : (fun a => if a ∈ (q :: l).map Prod.fst then none else ev.nodes a) =
      fun a => if a ∈ l.map Prod.fst then none else (ev.closeOne q).nodes a := by
    funext a
    by_cases ha : a = q.1
    · simp [ha, closeOne]
    · have hiff : a ∈ (q :: l).map Prod.fst ↔ a ∈ l.map Prod.fst := by
        rw [List.map_cons, List.mem_cons, or_iff_right ha]
      simp only [hiff, closeOne, Function.update_of_ne ha]
  unfold Fdevents.closeAll
  rw [hslots, hnodes]
  simp [closeOne]

theorem schedRunLoop_eq : ∀ {l : List (ℕ × ℤ)} {m : ℕ} {fdn : Option ℕ} {ev : Fdevents H C},
    PendingClose ev.nodes fdn l → (l.map Prod.fst).Nodup → (∀ q ∈ l, ev.InTable q.2) →
    l.length < m → Fdevents.schedRunLoop m fdn ev = .ok (ev.closeAll l)
  | [], m + 1, _, ev, h, _, _, _ => by
    rw [show _ = none from h, Fdevents.schedRunLoop]
    simp [Fdevents.closeAll]
  | q :: l, m + 1, _, ev, ⟨hq, n, next, hn, hfd, hctx, h⟩, hnodup, hrange, hm => by
    obtain ⟨hnotin, hnodup⟩ := List.nodup_cons.mp hnodup
    have hnext : n.next = .ok next := by rw [Fdnode.next, hctx]
    have hrest : Fdevents.schedRunLoop m next (ev.closeOne q) =
        .ok ((ev.closeOne q).closeAll l) := by
      refine schedRunLoop_eq (h.congr fun r hr => ?_) hnodup
        (fun r hr => hrange r (List.mem_cons_of_mem q hr)) (by simpa using hm)
      have hne : r.1 ≠ q.1 := fun heq => hnotin (heq ▸ List.mem_map_of_mem hr)
      exact Function.update_of_ne hne _ _
    have hfree : Fdevents.fdnodeFree { ev with closed := ev.closed ++ [q.2] } (some q.1) = .ok
        { ev with
          nodes := Function.update ev.nodes q.1 none
          closed := ev.closed ++ [q.2]
          freed := ev.freed ++ [q.1] } := Fdevents.fdnodeFree_eq hn
    have hslot : Fdevents.slot { ev with
        nodes := Function.update ev.nodes q.1 none
        closed := ev.closed ++ [q.2]
        freed := ev.freed ++ [q.1] } q.2 = .ok (ev.fdarray q.2) :=
      Fdevents.slot_eq (hrange q List.mem_cons_self)
    rw [hq, Fdevents.schedRunLoop, Fdevents.deref_eq hn, ok_bind]
    dsimp only
    rw [hnext, ok_bind, hfd, hfree, ok_bind, hslot, ok_bind, ev.closeAll_cons]
    exact hrest

end PendingClose

/-! ## The invariant of the table -/

/-- What a slot is after the calls `pre`, with the list `l` of the nodes that are to be closed. -/
inductive FdSlotOk (pre : List (FdCall H C)) (ev : Fdevents H C) (l : List (ℕ × ℤ)) (fd : ℤ) : Prop
  | empty (hslot : ev.fdarray fd = .null) (hsched : ¬ FdScheduled pre fd)
  | live (a : ℕ) (n : Fdnode H C) (ctx : C) (hslot : ev.fdarray fd = ⟨some a, 0⟩)
      (hnode : ev.nodes a = some n) (hfd : n.fd = fd) (hctx : n.ctx = .user ctx)
      (hreg : FdRegistered pre fd n.handler ctx) (hsched : ¬ FdScheduled pre fd)
  | tagged (a tag : ℕ) (hslot : ev.fdarray fd = ⟨some a, tag⟩) (htag : tag = 1 ∨ tag = 2)
      (hmem : (a, fd) ∈ l) (hsched : FdScheduled pre fd)

/-- The table after the calls `pre`, with the list `l` of the nodes that are to be closed. -/
structure FdTableInv (pre : List (FdCall H C)) (ev : Fdevents H C) (l : List (ℕ × ℤ)) : Prop where
  pending : PendingClose ev.nodes ev.pendclose l
  nodup : (l.map Prod.fst).Nodup
  listed : ∀ q ∈ l, ev.InTable q.2 ∧ ∃ tag, (tag = 1 ∨ tag = 2) ∧ ev.fdarray q.2 = ⟨some q.1, tag⟩
  slots : ∀ fd, ev.InTable fd → FdSlotOk pre ev l fd
  scheduled : ∀ fd, FdScheduled pre fd → ev.InTable fd

section Invariant

open Fdevents

variable {pre : List (FdCall H C)} {ev ev' : Fdevents H C} {l : List (ℕ × ℤ)} {c : FdCall H C}
  {fd : ℤ} {a : ℕ} {n : Fdnode H C}

theorem FdSlotOk.mono {pre' : List (FdCall H C)} {l' : List (ℕ × ℤ)} (h : FdSlotOk pre ev l fd)
    (hsched : FdScheduled pre' fd ↔ FdScheduled pre fd)
    (hreg : ∀ handler ctx, FdRegistered pre fd handler ctx → FdRegistered pre' fd handler ctx)
    (hslot : ev'.fdarray fd = ev.fdarray fd)
    (hnode : ∀ a, ev.fdarray fd = ⟨some a, 0⟩ → ev'.nodes a = ev.nodes a) (hl : l ⊆ l') :
    FdSlotOk pre' ev' l' fd := by
  cases h with
  | empty hs hns => exact .empty (hslot.trans hs) fun h => hns (hsched.mp h)
  | live a n ctx hs hn hfd hctx hr hns =>
    exact .live a n ctx (hslot.trans hs) ((hnode a hs).trans hn) hfd hctx (hreg _ _ hr)
      fun h => hns (hsched.mp h)
  | tagged a tag hs htag hmem hsc =>
    exact .tagged a tag (hslot.trans hs) htag (hl hmem) (hsched.mpr hsc)

theorem FdTableInv.tableOk (h : FdTableInv pre ev l) : ev.TableOk := by
  refine ⟨l, h.pending, fun fd hfd => ?_⟩
  cases h.slots fd hfd with
  | empty hs _ => exact .inl hs
  | live a n ctx hs hn hfd _ _ _ => exact .inr (.inl ⟨a, n, hs, hn, hfd⟩)
  | tagged a tag hs htag hmem _ =>
    exact .inr (.inr ⟨a, tag, hs, htag, hmem,
      List.count_eq_one_of_mem h.nodup (List.mem_map_of_mem hmem)⟩)

theorem FdTableInv.live_only (h : FdTableInv pre ev l) (hslot : ev.fdarray fd = ⟨some a, 0⟩)
    (hnode : ev.nodes a = some n) (hfd : n.fd = fd) : (∀ q ∈ l, q.1 ≠ a ∧ q.2 ≠ fd) ∧
      ∀ fd', fd' ≠ fd → ev.InTable fd' → ev.fdarray fd' ≠ ⟨some a, 0⟩ := by
  have hlist : ∀ q ∈ l, q.2 ≠ fd := by
    rintro q hq rfl
    obtain ⟨-, tag, htag, hs⟩ := h.listed q hq
    rw [hslot, FdPtr.mk.injEq] at hs
    omega
  refine ⟨fun q hq => ⟨fun ha => hlist q hq ?_, hlist q hq⟩, fun fd' hne hin hs => ?_⟩
  · obtain ⟨n', hn', hfd'⟩ := h.pending.node q hq
    rw [ha, hnode] at hn'
    rw [← hfd', ← hfd, Option.some.inj hn']
  · cases h.slots fd' hin with
    | empty hs' _ =>
      rw [hs] at hs'
      cases hs'
    | live a' n' _ hs' hn' hfd' _ _ _ =>
      rw [hs, FdPtr.mk.injEq, Option.some.injEq] at hs'
      obtain ⟨rfl, -⟩ := hs'
      rw [hnode] at hn'
      obtain rfl := Option.some.inj hn'
      exact hne (hfd'.symm.trans hfd)
    | tagged _ tag hs' htag _ _ =>
      rw [hs, FdPtr.mk.injEq] at hs'
      omega

/-- A call that is none of those that begin or end a node. -/
def FdCall.Plain : FdCall H C → Prop
  | .register _ _ _ _ => False
  | .schedClose _ _ => False
  | .schedRun => False
  | _ => True

theorem FdCall.Plain.scheduled (hc : c.Plain) :
    FdScheduled (pre ++ [c]) fd ↔ FdScheduled pre fd := by
  rw [fdScheduled_concat]
  constructor
  · rintro (⟨issock, rfl⟩ | ⟨-, h⟩)
    · exact hc.elim
    · exact h
  · exact fun h => .inr ⟨fun hrun => by rw [hrun] at hc; exact hc, h⟩

theorem FdCall.Plain.registered (hc : c.Plain) (h : FdRegistered pre fd handler ctx) :
    FdRegistered (pre ++ [c]) fd handler ctx :=
  h.concat fun _ _ _ heq => by rw [heq] at hc; exact hc

theorem FdTableInv.update (h : FdTableInv pre ev l)
    (hsched : ∀ fd', FdScheduled (pre ++ [c]) fd' ↔ FdScheduled pre fd')
    (hreg : ∀ fd', fd' ≠ fd → ∀ handler ctx, FdRegistered pre fd' handler ctx →
      FdRegistered (pre ++ [c]) fd' handler ctx)
    (hmax : ev'.maxfds = ev.maxfds) (hpend : ev'.pendclose = ev.pendclose)
    (hslots : ∀ fd', fd' ≠ fd → ev'.fdarray fd' = ev.fdarray fd')
    (hnodes : ∀ a', a' ≠ a → ev'.nodes a' = ev.nodes a')
    (honly : (∀ q ∈ l, q.1 ≠ a ∧ q.2 ≠ fd) ∧
      ∀ fd', fd' ≠ fd → ev.InTable fd' → ev.fdarray fd' ≠ ⟨some a, 0⟩)
    (hslot : FdSlotOk (pre ++ [c]) ev' l fd) : FdTableInv (pre ++ [c]) ev' l := by
  have hin : ∀ {fd'}, ev'.InTable fd' ↔ ev.InTable fd' := by
    intro fd'
    rw [InTable, hmax, InTable]
  constructor
  case pending =>
    rw [hpend]
    exact h.pending.congr fun q hq => hnodes q.1 (honly.1 q hq).1
  case nodup => exact h.nodup
  case listed =>
    intro q hq
    rw [hin, hslots q.2 (honly.1 q hq).2]
    exact h.listed q hq
  case slots =>
    intro fd' hfd'
    by_cases heq : fd' = fd
    · rw [heq]
      exact hslot
    · refine (h.slots fd' (hin.mp hfd')).mono (hsched fd') (hreg fd' heq) (hslots fd' heq)
        (fun a' ha' => hnodes a' ?_) (List.Subset.refl l)
      rintro rfl
      exact honly.2 fd' heq (hin.mp hfd') ha'
  case scheduled => exact fun fd' hfd' => hin.mpr (h.scheduled fd' ((hsched fd').mp hfd'))

theorem FdTableInv.same (h : FdTableInv pre ev l) (hc : c.Plain) :
    FdTableInv (pre ++ [c]) ev l where
  pending := h.pending
  nodup := h.nodup
  listed := h.listed
  slots fd hfd := (h.slots fd hfd).mono hc.scheduled (fun _ _ => hc.registered) rfl (fun _ _ => rfl)
    (List.Subset.refl l)
  scheduled fd hfd := h.scheduled fd (hc.scheduled.mp hfd)

theorem FdTableInv.events (h : FdTableInv pre ev l) (hc : c.Plain)
    (hslot : ev.fdarray fd = ⟨some a, 0⟩) (hnode : ev.nodes a = some n) (hfd : n.fd = fd)
    (hin : ev.InTable fd) (events : BitVec 32) :
    FdTableInv (pre ++ [c]) (ev.setNode a { n with events := events }) l := by
  refine h.update (fun _ => hc.scheduled) (fun _ _ _ _ => hc.registered) rfl rfl (fun _ _ => rfl)
    (fun a' ha' => Function.update_of_ne ha' _ _) (h.live_only hslot hnode hfd) ?_
  cases h.slots fd hin with
  | empty hs _ =>
    rw [hslot] at hs
    cases hs
  | live a' n' ctx hs hn _ hctx hr hns =>
    rw [hslot, FdPtr.mk.injEq, Option.some.injEq] at hs
    obtain ⟨rfl, -⟩ := hs
    rw [hnode] at hn
    obtain rfl := Option.some.inj hn
    exact .live a { n with events := events } ctx hslot (Function.update_self a _ _) hfd hctx
      (hc.registered hr) fun hs => hns (hc.scheduled.mp hs)
  | tagged _ tag hs htag _ _ =>
    rw [hslot, FdPtr.mk.injEq] at hs
    omega

/-! ## The calls keep the invariant -/

/-- The call returns, keeps the invariant, and closes and calls nothing. -/
def FdKeeps (pre : List (FdCall H C)) (ev : Fdevents H C) (c : FdCall H C) : Prop :=
  ∃ ev' l', ev.step c = .ok ev' ∧ FdTableInv (pre ++ [c]) ev' l' ∧ ev'.closed = ev.closed ∧
    ev'.called = ev.called

theorem FdTableInv.keeps (h : FdTableInv pre ev l) (hc : c.Plain) (hstep : ev.step c = .ok ev) :
    FdKeeps pre ev c := ⟨ev, l, hstep, h.same hc, rfl, rfl⟩

theorem FdTableInv.keeps_events (h : FdTableInv pre ev l) (hc : c.Plain)
    (hslot : ev.fdarray fd = ⟨some a, 0⟩) (hnode : ev.nodes a = some n) (hfd : n.fd = fd)
    (hin : ev.InTable fd) (events : BitVec 32)
    (hstep : ev.step c = .ok (ev.setNode a { n with events := events })) : FdKeeps pre ev c :=
  ⟨_, l, hstep, h.events hc hslot hnode hfd hin events, rfl, rfl⟩

theorem FdTableInv.live (h : FdTableInv pre ev l) (hin : ev.InTable fd)
    (hne : ev.fdarray fd ≠ .null) (htag : (ev.fdarray fd).tag = 0) :
    ∃ a n, ev.fdarray fd = ⟨some a, 0⟩ ∧ ev.nodes a = some n ∧ n.fd = fd := by
  cases h.slots fd hin with
  | empty hs _ => exact absurd hs hne
  | live a n _ hs hn hfd _ _ _ => exact ⟨a, n, hs, hn, hfd⟩
  | tagged a tag hs htag' _ _ =>
    rw [hs] at htag
    dsimp only at htag
    omega

theorem keeps_eventSet (h : FdTableInv pre ev l) {events : BitVec 32}
    (hc : ev.Copes (.eventSet fd events)) : FdKeeps pre ev (.eventSet fd events) := by
  by_cases hfd : fd = -1
  · exact h.keeps trivial (if_pos hfd)
  · obtain ⟨hin, htag⟩ := hc hfd
    by_cases hne : ev.fdarray fd = .null
    · refine h.keeps trivial ?_
      rw [step, eventSet, if_neg hfd, slot_eq hin, ok_bind, if_pos hne]
      rfl
    · obtain ⟨a, n, hslot, hnode, hnfd⟩ := h.live hin hne htag
      have hstep : ev.step (.eventSet fd events) = if n.events = events then .ok ev
          else .ok (ev.setNode a { n with events := events }) := by
        rw [step, eventSet, if_neg hfd, slot_eq hin, ok_bind,
          if_neg hne, hslot, deref_eq hnode]
        rfl
      by_cases heq : n.events = events
      · exact h.keeps trivial (hstep.trans (if_pos heq))
      · exact h.keeps_events trivial hslot hnode hnfd hin events (hstep.trans (if_neg heq))

theorem keeps_eventAdd (h : FdTableInv pre ev l) {event : BitVec 32}
    (hc : ev.Copes (.eventAdd fd event)) : FdKeeps pre ev (.eventAdd fd event) := by
  by_cases hfd : fd = -1
  · exact h.keeps trivial (if_pos hfd)
  · obtain ⟨hin, hne, htag⟩ := hc hfd
    obtain ⟨a, n, hslot, hnode, hnfd⟩ := h.live hin hne htag
    have hstep : ev.step (.eventAdd fd event) = if n.events &&& event = event then .ok ev
        else .ok (ev.setNode a { n with events := n.events ||| event }) := by
      rw [step, eventAdd, if_neg hfd, slot_eq hin, ok_bind, hslot,
        deref_eq hnode]
      rfl
    by_cases heq : n.events &&& event = event
    · exact h.keeps trivial (hstep.trans (if_pos heq))
    · exact h.keeps_events trivial hslot hnode hnfd hin _ (hstep.trans (if_neg heq))

theorem keeps_eventClr (h : FdTableInv pre ev l) {event : BitVec 32}
    (hc : ev.Copes (.eventClr fd event)) : FdKeeps pre ev (.eventClr fd event) := by
  by_cases hfd : fd = -1
  · exact h.keeps trivial (if_pos hfd)
  · obtain ⟨hin, hne, htag⟩ := hc hfd
    obtain ⟨a, n, hslot, hnode, hnfd⟩ := h.live hin hne htag
    have hstep : ev.step (.eventClr fd event) = if n.events &&& event = 0 then .ok ev
        else .ok (ev.setNode a { n with events := n.events &&& ~~~event }) := by
      rw [step, eventClr, if_neg hfd, slot_eq hin, ok_bind, hslot,
        deref_eq hnode]
      rfl
    by_cases heq : n.events &&& event = 0
    · exact h.keeps trivial (hstep.trans (if_pos heq))
    · exact h.keeps_events trivial hslot hnode hnfd hin _ (hstep.trans (if_neg heq))

theorem keeps_eventDel (h : FdTableInv pre ev l) (hc : ev.Copes (.eventDel fd)) :
    FdKeeps pre ev (.eventDel fd) := by
  by_cases hfd : fd = -1
  · exact h.keeps trivial (if_pos hfd)
  · obtain ⟨hin, hne⟩ := hc hfd
    by_cases htag : (ev.fdarray fd).tag = 0
    · obtain ⟨a, n, hslot, hnode, hnfd⟩ := h.live hin hne htag
      have hstep : ev.step (.eventDel fd) = .ok (ev.setNode a { n with events := 0 }) := by
        rw [step, eventDel, if_neg hfd, slot_eq hin, ok_bind,
          if_neg (not_not.mpr htag), hslot, deref_eq hnode]
        rfl
      exact h.keeps_events trivial hslot hnode hnfd hin 0 hstep
    · refine h.keeps trivial ?_
      rw [step, eventDel, if_neg hfd, slot_eq hin, ok_bind, if_pos htag]
      rfl

theorem keeps_eventGetInterest (h : FdTableInv pre ev l) (hc : ev.Copes (.eventGetInterest fd)) :
    FdKeeps pre ev (.eventGetInterest fd) := by
  refine h.keeps trivial ?_
  rw [step, eventGetInterest]
  by_cases hfd : 0 ≤ fd
  · obtain ⟨hin, hne, htag⟩ := hc hfd
    obtain ⟨a, n, hslot, hnode, -⟩ := h.live hin hne htag
    rw [if_pos hfd, slot_eq hin, ok_bind, hslot, deref_eq hnode]
    rfl
  · rw [if_neg hfd]
    rfl

theorem keeps_unregister (h : FdTableInv pre ev l) (hc : ev.Copes (.unregister fd)) :
    FdKeeps pre ev (.unregister fd) := by
  have hplain : FdCall.Plain (.unregister fd : FdCall H C) := trivial
  have hin : ev.InTable fd := hc
  cases h.slots fd hin with
  | empty hs hns =>
    have hstep : ev.step (.unregister fd) = .ok (ev.setSlot fd .null) := by
      rw [step, unregister, slot_eq hin, ok_bind, hs]
      rfl
    refine ⟨_, l, hstep, ?_, rfl, rfl⟩
    have hsame : ev.setSlot fd .null = ev := by
      rw [setSlot, ← hs, Function.update_eq_self]
    rw [hsame]
    exact h.same hplain
  | live a n ctx hslot hnode hnfd _ _ hns =>
    have hstep : ev.step (.unregister fd) = .ok (setSlot { ev with
        nodes := Function.update ev.nodes a none
        freed := ev.freed ++ [a] } fd .null) := by
      rw [step, unregister, slot_eq hin, ok_bind, hslot,
        if_neg (by simp), fdnodeFree_eq hnode]
      rfl
    refine ⟨_, l, hstep, ?_, rfl, rfl⟩
    exact h.update (fun _ => hplain.scheduled) (fun _ _ _ _ => hplain.registered) rfl rfl
      (fun fd' hfd' => Function.update_of_ne hfd' _ _)
      (fun a' ha' => Function.update_of_ne ha' _ _) (h.live_only hslot hnode hnfd)
      (.empty (Function.update_self fd _ _) fun hs => hns (hplain.scheduled.mp hs))
  | tagged a tag hslot htag _ _ =>
    refine h.keeps hplain ?_
    have hne : tag ≠ 0 := by omega
    rw [step, unregister, slot_eq hin, ok_bind, hslot, if_pos hne]
    rfl

theorem keeps_register (h : FdTableInv pre ev l) (hallows : ev.Allows (.register fd handler ctx a))
    (hc : ev.Copes (.register fd handler ctx a)) : FdKeeps pre ev (.register fd handler ctx a) := by
  obtain ⟨hnull, hfresh⟩ := hallows
  have hin : ev.InTable fd := hc
  have hstep : ev.step (.register fd handler ctx a) =
      .ok ((ev.setNode a ⟨handler, fd, .user ctx, 0⟩).setSlot fd ⟨some a, 0⟩) := by
    rw [step, register, slot_eq hin]
    rfl
  have hsched : ∀ fd', FdScheduled (pre ++ [.register fd handler ctx a]) fd' ↔
      FdScheduled pre fd' := by
    intro fd'
    rw [fdScheduled_concat]
    simp
  have hns : ¬ FdScheduled pre fd := by
    cases h.slots fd hin with
    | empty _ hns => exact hns
    | live _ _ _ _ _ _ _ _ hns => exact hns
    | tagged _ _ hs _ _ _ =>
      rw [hnull] at hs
      cases hs
  refine ⟨_, l, hstep, ?_, rfl, rfl⟩
  refine h.update hsched (fun fd' hfd' _ _ hr => hr.concat ?_) rfl rfl
    (fun fd' hfd' => Function.update_of_ne hfd' _ _)
    (fun a' ha' => Function.update_of_ne ha' _ _) ⟨fun q hq => ⟨?_, ?_⟩, ?_⟩ ?_
  · intro _ _ _ heq
    exact hfd' (FdCall.register.inj heq).1.symm
  · -- the new node is in no list
    rintro rfl
    obtain ⟨n, hn, -⟩ := h.pending.node q hq
    rw [hfresh] at hn
    cases hn
  · rintro rfl
    obtain ⟨-, tag, -, hs⟩ := h.listed q hq
    rw [hnull] at hs
    cases hs
  · intro fd' _ hin' hs
    cases h.slots fd' hin' with
    | empty hs' _ =>
      rw [hs] at hs'
      cases hs'
    | live a' n _ hs' hn _ _ _ _ =>
      rw [hs, FdPtr.mk.injEq, Option.some.injEq] at hs'
      rw [← hs'.1, hfresh] at hn
      cases hn
    | tagged _ tag hs' htag _ _ =>
      rw [hs, FdPtr.mk.injEq] at hs'
      omega
  · exact .live a ⟨handler, fd, .user ctx, 0⟩ ctx (Function.update_self fd _ _)
      (Function.update_self a _ _) rfl rfl (fdRegistered_register handler ctx a)
      fun hs => hns ((hsched fd).mp hs)

theorem keeps_schedClose (h : FdTableInv pre ev l) {issock : Bool}
    (hc : ev.Copes (.schedClose fd issock)) : FdKeeps pre ev (.schedClose fd issock) := by
  obtain ⟨hin, hne⟩ := hc
  have hsched : ∀ fd', fd' ≠ fd → (FdScheduled (pre ++ [.schedClose fd issock]) fd' ↔
      FdScheduled pre fd') := by
    intro fd' hfd'
    rw [fdScheduled_concat]
    constructor
    · rintro (⟨b, heq⟩ | ⟨-, hs⟩)
      · exact absurd (FdCall.schedClose.inj heq).1.symm hfd'
      · exact hs
    · exact fun hs => .inr ⟨by simp, hs⟩
  have hself : FdScheduled (pre ++ [.schedClose fd issock]) fd :=
    fdScheduled_concat.mpr (.inl ⟨issock, rfl⟩)
  have hreg : ∀ fd' handler ctx, FdRegistered pre fd' handler ctx →
      FdRegistered (pre ++ [.schedClose fd issock]) fd' handler ctx :=
    fun fd' _ _ hr => hr.concat fun _ _ _ heq => by cases heq
  have hscheduled : ∀ fd', FdScheduled (pre ++ [.schedClose fd issock]) fd' → ev.InTable fd' := by
    intro fd' hs
    by_cases heq : fd' = fd
    · rw [heq]
      exact hin
    · exact h.scheduled fd' ((hsched fd' heq).mp hs)
  cases h.slots fd hin with
  | empty hs _ => exact absurd hs hne
  | live a n ctx hslot hnode hnfd hctx _ _ =>
    have htag : (if issock then 1 else 2) = 1 ∨ (if issock then 1 else 2) = 2 := by
      cases issock <;> simp
    have hstep : ev.step (.schedClose fd issock) = .ok { (ev.setSlot fd
        ⟨some a, if issock then 1 else 2⟩).setNode a { n with ctx := .next ev.pendclose } with
          pendclose := some a } := by
      have hderef : (ev.setSlot fd ⟨some a, if issock then 1 else 2⟩).deref ⟨some a, 0⟩ =
          .ok (a, n) := deref_eq hnode
      rw [step, schedClose, slot_eq hin, ok_bind, hslot,
        if_neg (by simp)]
      dsimp only
      rw [hderef]
      rfl
    obtain ⟨hlist, hothers⟩ := h.live_only hslot hnode hnfd
    refine ⟨_, (a, fd) :: l, hstep, ?_, rfl, rfl⟩
    constructor
    case pending =>
      refine ⟨rfl, _, _, Function.update_self a _ _, hnfd, rfl, ?_⟩
      exact h.pending.congr fun q hq => Function.update_of_ne (hlist q hq).1 _ _
    case nodup =>
      refine List.nodup_cons.mpr ⟨fun hmem => ?_, h.nodup⟩
      obtain ⟨q, hq, heq⟩ := List.mem_map.mp hmem
      exact (hlist q hq).1 heq
    case listed =>
      intro q hq
      rcases List.mem_cons.mp hq with rfl | hq
      · exact ⟨hin, _, htag, Function.update_self fd _ _⟩
      · obtain ⟨hqin, tag, hqtag, hqslot⟩ := h.listed q hq
        exact ⟨hqin, tag, hqtag, (Function.update_of_ne (hlist q hq).2 _ _).trans hqslot⟩
    case slots =>
      intro fd' hfd'
      by_cases heq : fd' = fd
      · rw [heq]
        exact .tagged a _ (Function.update_self fd _ _) htag List.mem_cons_self hself
      · refine (h.slots fd' hfd').mono (hsched fd' heq) (hreg fd') (Function.update_of_ne heq _ _)
          (fun a' ha' => Function.update_of_ne ?_ _ _) (List.subset_cons_self _ l)
        rintro rfl
        exact hothers fd' heq hfd' ha'
    case scheduled => exact hscheduled
  | tagged a tag hslot htag hmem hs =>
    have hne : tag ≠ 0 := by omega
    have hstep : ev.step (.schedClose fd issock) = .ok ev := by
      rw [step, schedClose, slot_eq hin, ok_bind, hslot, if_pos hne]
      rfl
    refine ⟨ev, l, hstep, ⟨h.pending, h.nodup, h.listed, fun fd' hfd' => ?_, hscheduled⟩, rfl, rfl⟩
    by_cases heq : fd' = fd
    · rw [heq]
      exact .tagged a tag hslot htag hmem hself
    · exact (h.slots fd' hfd').mono (hsched fd' heq) (hreg fd') rfl (fun _ _ => rfl)
        (List.Subset.refl l)

theorem FdTableInv.nodup_fds (h : FdTableInv pre ev l) : (l.map Prod.snd).Nodup := by
  refine List.Nodup.map_on (fun q hq r hr heq => ?_) (List.Nodup.of_map _ h.nodup)
  obtain ⟨-, tag, -, hqs⟩ := h.listed q hq
  obtain ⟨-, tag', -, hrs⟩ := h.listed r hr
  rw [heq, hrs, FdPtr.mk.injEq, Option.some.injEq] at hqs
  exact Prod.ext hqs.1.symm heq

theorem FdTableInv.length_le (h : FdTableInv pre ev l) : l.length ≤ ev.maxfds := by
  have hnodup : ((l.map Prod.snd).map Int.toNat).Nodup := by
    refine List.Nodup.map_on (fun x hx y hy heq => ?_) h.nodup_fds
    obtain ⟨q, hq, rfl⟩ := List.mem_map.mp hx
    obtain ⟨r, hr, rfl⟩ := List.mem_map.mp hy
    have hq0 := (h.listed q hq).1.1
    have hr0 := (h.listed r hr).1.1
    omega
  have hsub : (l.map Prod.snd).map Int.toNat ⊆ List.range ev.maxfds := by
    intro m hm
    obtain ⟨x, hx, rfl⟩ := List.mem_map.mp hm
    obtain ⟨q, hq, rfl⟩ := List.mem_map.mp hx
    have hlt := (h.listed q hq).1.2
    have hge := (h.listed q hq).1.1
    rw [List.mem_range]
    omega
  simpa using (hnodup.subperm hsub).length_le

theorem FdTableInv.mem_iff (h : FdTableInv pre ev l) :
    FdScheduled pre fd ↔ fd ∈ l.map Prod.snd := by
  constructor
  · intro hs
    cases h.slots fd (h.scheduled fd hs) with
    | empty _ hns => exact absurd hs hns
    | live _ _ _ _ _ _ _ _ hns => exact absurd hs hns
    | tagged a _ _ _ hmem _ => exact List.mem_map_of_mem (f := Prod.snd) hmem
  · intro hmem
    obtain ⟨q, hq, rfl⟩ := List.mem_map.mp hmem
    obtain ⟨hin, tag, htag, hslot⟩ := h.listed q hq
    cases h.slots q.2 hin with
    | empty hs _ =>
      rw [hslot] at hs
      cases hs
    | live a n _ hs _ _ _ _ _ =>
      rw [hslot, FdPtr.mk.injEq] at hs
      omega
    | tagged _ _ _ _ _ hs => exact hs

theorem step_schedRun (h : FdTableInv pre ev l) : ev.step .schedRun = .ok (ev.closeAll l) :=
  schedRunLoop_eq h.pending h.nodup (fun q hq => (h.listed q hq).1)
    (Nat.lt_succ_of_le h.length_le)

theorem FdTableInv.closeAll (h : FdTableInv pre ev l) :
    FdTableInv (pre ++ [.schedRun]) (ev.closeAll l) [] := by
  have hnone : ∀ fd, ¬ FdScheduled (pre ++ [.schedRun]) fd := by
    intro fd
    rw [fdScheduled_concat]
    simp
  refine ⟨rfl, List.nodup_nil, fun q hq => absurd hq List.not_mem_nil, fun fd hin => ?_,
    fun fd hs => absurd hs (hnone fd)⟩
  have hin' : ev.InTable fd := hin
  by_cases hmem : fd ∈ l.map Prod.snd
  · exact .empty (if_pos hmem) (hnone fd)
  · cases h.slots fd hin' with
    | empty hs _ => exact .empty ((if_neg hmem).trans hs) (hnone fd)
    | live a n ctx hs hn hfd hctx hr _ =>
      have hnotin : a ∉ l.map Prod.fst := by
        intro ha
        obtain ⟨q, hq, heq⟩ := List.mem_map.mp ha
        exact ((h.live_only hs hn hfd).1 q hq).1 heq
      exact .live a n ctx ((if_neg hmem).trans hs) ((if_neg hnotin).trans hn) hfd hctx
        (hr.concat fun _ _ _ heq => by cases heq) (hnone fd)
    | tagged a tag _ _ hl _ => exact absurd (List.mem_map_of_mem (f := Prod.snd) hl) hmem

theorem FdKeeps.callOk (h : FdKeeps pre ev c) (hc : c ≠ .schedRun) :
    ∃ ev' l', ev.step c = .ok ev' ∧ FdTableInv (pre ++ [c]) ev' l' ∧ FdCallOk pre ev c ev' := by
  obtain ⟨ev', l', hstep, hinv, hclosed, hcalled⟩ := h
  exact ⟨ev', l', hstep, hinv, hinv.tableOk, fun heq => absurd heq hc, fun _ => hclosed,
    .inl hcalled⟩

theorem schedRun_callOk (h : FdTableInv pre ev l) : FdCallOk pre ev .schedRun (ev.closeAll l) where
  table := h.closeAll.tableOk
  closes _ := by
    refine ⟨l, rfl, rfl, fun fd => ⟨fun hs => ?_, fun hs hmem => hs (h.mem_iff.mpr hmem)⟩⟩
    have hmem := h.mem_iff.mp hs
    refine ⟨List.count_eq_one_of_mem h.nodup_fds hmem, if_pos hmem, ?_⟩
    obtain ⟨q, hq, rfl⟩ := List.mem_map.mp hmem
    obtain ⟨-, tag, -, hslot⟩ := h.listed q hq
    exact ⟨q.1, tag, hslot, List.count_eq_one_of_mem h.nodup (List.mem_map_of_mem hq)⟩
  keeps hc := absurd rfl hc
  calls := .inl rfl

theorem FdTableInv.called (h : FdTableInv pre ev l)
    (called : List (H × Option (FdCtx C) × BitVec 32)) :
    FdTableInv pre { ev with called := called } l :=
  ⟨h.pending, h.nodup, h.listed, fun fd hin => (h.slots fd hin).mono Iff.rfl (fun _ _ hr => hr) rfl
    (fun _ _ => rfl) (List.Subset.refl l), h.scheduled⟩

theorem call_callOk (h : FdTableInv pre ev l) {event : Option (ℤ × BitVec 32)}
    (hc : ev.Copes (.call event)) : ∃ ev' l', ev.step (.call event) = .ok ev' ∧
      FdTableInv (pre ++ [.call event]) ev' l' ∧ FdCallOk pre ev (.call event) ev' := by
  have hplain : FdCall.Plain (.call event : FdCall H C) := trivial
  cases event with
  | none => exact (h.keeps hplain rfl).callOk (by simp)
  | some e =>
    obtain ⟨fd, revents⟩ := e
    obtain ⟨hin, hne⟩ := hc
    dsimp only at hin hne
    cases h.slots fd hin with
    | empty hs _ => exact absurd hs hne
    | live a n ctx hslot hnode hfd hctx hr _ =>
      have hhandler : ev.getHandler fd = .ok n.handler := by
        rw [getHandler, slot_eq hin, ok_bind, hslot, if_neg (by simp),
          deref_eq hnode, ok_bind, if_neg (not_not.mpr hfd)]
        rfl
      have hcontext : ev.getContext fd = .ok (some (.user ctx)) := by
        rw [getContext, slot_eq hin, ok_bind, if_neg hne, hslot,
          if_neg (by simp), deref_eq hnode, ok_bind, if_neg (not_not.mpr hfd), hctx]
        rfl
      cases hh : n.handler with
      | none =>
        refine (h.keeps hplain ?_).callOk (by simp)
        rw [step, call]
        dsimp only
        rw [hhandler, hh]
        rfl
      | some handler =>
        have hstep : ev.step (.call (some (fd, revents))) = .ok { ev with
            called := ev.called ++ [(handler, some (.user ctx), revents)] } := by
          rw [step, call]
          dsimp only
          rw [hhandler, hh, ok_bind]
          dsimp only
          rw [hcontext]
          rfl
        have hinv := (h.same hplain).called
          (ev.called ++ [(handler, some (.user ctx), revents)])
        exact ⟨_, l, hstep, hinv, hinv.tableOk, fun heq => (by cases heq), fun _ => rfl,
          .inr ⟨fd, revents, handler, ctx, rfl, ⟨a, n, hslot, hnode, hfd⟩, hh ▸ hr, rfl⟩⟩
    | tagged a tag hslot htag _ _ =>
      refine (h.keeps hplain ?_).callOk (by simp)
      have hne : tag ≠ 0 := by omega
      rw [step, call]
      dsimp only
      rw [getHandler, slot_eq hin, ok_bind, hslot, if_pos hne]
      rfl

/-- A call that can cope with its slot returns and does what it should. -/
theorem step_callOk (h : FdTableInv pre ev l) (hallows : ev.Allows c) (hc : ev.Copes c) :
    ∃ ev' l', ev.step c = .ok ev' ∧ FdTableInv (pre ++ [c]) ev' l' ∧ FdCallOk pre ev c ev' := by
  cases c with
  | register fd handler ctx a => exact (keeps_register h hallows hc).callOk (by simp)
  | unregister fd => exact (keeps_unregister h hc).callOk (by simp)
  | eventSet fd events => exact (keeps_eventSet h hc).callOk (by simp)
  | eventAdd fd event => exact (keeps_eventAdd h hc).callOk (by simp)
  | eventClr fd event => exact (keeps_eventClr h hc).callOk (by simp)
  | eventDel fd => exact (keeps_eventDel h hc).callOk (by simp)
  | eventGetInterest fd => exact (keeps_eventGetInterest h hc).callOk (by simp)
  | schedClose fd issock => exact (keeps_schedClose h hc).callOk (by simp)
  | schedRun => exact ⟨_, [], step_schedRun h, h.closeAll, schedRun_callOk h⟩
  | call event => exact call_callOk h hc

theorem Fdevents.slot_bind_error {α : Type} {f : FdPtr → Except FdFault α} (h : ¬ ev.InTable fd) :
    (ev.slot fd >>= f) = .error .range := by
  rw [slot, if_neg h]
  rfl

theorem Fdevents.deref_tagged {fdn : FdPtr} (h : fdn.tag ≠ 0) : ev.deref fdn = .error .tagged :=
  if_pos h

variable (ev) in
/-- An empty or a tagged slot is not dereferenced without a fault. -/
theorem Fdevents.deref_bind_error {α : Type} {f : ℕ × Fdnode H C → Except FdFault α} {fdn : FdPtr}
    (h : ¬ (fdn ≠ .null ∧ fdn.tag = 0)) : ∃ e, (ev.deref fdn >>= f) = .error e := by
  by_cases hnull : fdn = .null
  · exact ⟨.null, by rw [hnull]; rfl⟩
  · exact ⟨.tagged, by rw [deref_tagged fun htag => h ⟨hnull, htag⟩]; rfl⟩

theorem step_error (hc : ¬ ev.Copes c) : ∃ e, ev.step c = .error e := by
  cases c with
  | register fd handler ctx a => exact ⟨_, slot_bind_error hc⟩
  | unregister fd => exact ⟨_, slot_bind_error hc⟩
  | eventSet fd events =>
    obtain ⟨hfd, hc⟩ := Classical.not_imp.mp hc
    rw [step, eventSet, if_neg hfd]
    by_cases hin : ev.InTable fd
    · have htag : (ev.fdarray fd).tag ≠ 0 := fun htag => hc ⟨hin, htag⟩
      have hne : ev.fdarray fd ≠ .null := fun hnull => htag (by rw [hnull]; rfl)
      rw [slot_eq hin, ok_bind, if_neg hne]
      exact ev.deref_bind_error fun h => htag h.2
    · exact ⟨_, slot_bind_error hin⟩
  | eventAdd fd event =>
    obtain ⟨hfd, hc⟩ := Classical.not_imp.mp hc
    rw [step, eventAdd, if_neg hfd]
    by_cases hin : ev.InTable fd
    · rw [slot_eq hin, ok_bind]
      exact ev.deref_bind_error fun h => hc ⟨hin, h⟩
    · exact ⟨_, slot_bind_error hin⟩
  | eventClr fd event =>
    obtain ⟨hfd, hc⟩ := Classical.not_imp.mp hc
    rw [step, eventClr, if_neg hfd]
    by_cases hin : ev.InTable fd
    · rw [slot_eq hin, ok_bind]
      exact ev.deref_bind_error fun h => hc ⟨hin, h⟩
    · exact ⟨_, slot_bind_error hin⟩
  | eventDel fd =>
    obtain ⟨hfd, hc⟩ := Classical.not_imp.mp hc
    rw [step, eventDel, if_neg hfd]
    by_cases hin : ev.InTable fd
    · have hnull : ev.fdarray fd = .null := not_not.mp fun hne => hc ⟨hin, hne⟩
      rw [slot_eq hin, ok_bind, hnull]
      exact ⟨.null, rfl⟩
    · exact ⟨_, slot_bind_error hin⟩
  | eventGetInterest fd =>
    obtain ⟨hfd, hc⟩ := Classical.not_imp.mp hc
    rw [step, eventGetInterest, if_pos hfd]
    by_cases hin : ev.InTable fd
    · rw [slot_eq hin, ok_bind]
      obtain ⟨e, he⟩ := ev.deref_bind_error
        (f := fun r => (pure r.2.events : Except FdFault (BitVec 32))) fun h => hc ⟨hin, h⟩
      exact ⟨e, by rw [he]; rfl⟩
    · exact ⟨.range, by rw [slot_bind_error hin]; rfl⟩
  | schedClose fd issock =>
    rw [step, schedClose]
    by_cases hin : ev.InTable fd
    · have hnull : ev.fdarray fd = .null := not_not.mp fun hne => hc ⟨hin, hne⟩
      rw [slot_eq hin, ok_bind, hnull]
      exact ⟨.null, rfl⟩
    · exact ⟨_, slot_bind_error hin⟩
  | schedRun => exact absurd trivial hc
  | call event =>
    cases event with
    | none => exact absurd trivial hc
    | some e =>
      have herror : ∃ x, ev.getHandler e.1 = .error x := by
        by_cases hin : ev.InTable e.1
        · have hnull : ev.fdarray e.1 = .null := not_not.mp fun hne => hc ⟨hin, hne⟩
          rw [getHandler, slot_eq hin, ok_bind, hnull]
          exact ⟨.null, rfl⟩
        · exact ⟨_, slot_bind_error hin⟩
      obtain ⟨x, hx⟩ := herror
      refine ⟨x, ?_⟩
      rw [step, call, hx]
      rfl

/-- The calls that follow after the calls `pre` return and do what they should. -/
def SurvivesFrom (pre : List (FdCall H C)) (ev : Fdevents H C) (calls : List (FdCall H C)) : Prop :=
  ∀ mid c post, calls = mid ++ c :: post → ∃ ev₁ ev₂,
    ev.run mid = .ok ev₁ ∧ ev₁.step c = .ok ev₂ ∧ FdCallOk (pre ++ mid) ev₁ c ev₂

theorem survivesFrom_cons {calls : List (FdCall H C)} :
    SurvivesFrom pre ev (c :: calls) ↔ ∃ ev', ev.step c = .ok ev' ∧ FdCallOk pre ev c ev' ∧
      SurvivesFrom (pre ++ [c]) ev' calls := by
  constructor
  · intro h
    obtain ⟨ev₁, ev', hrun, hstep, hok⟩ := h [] c calls rfl
    obtain rfl : ev = ev₁ := Except.ok.inj hrun
    rw [List.append_nil] at hok
    refine ⟨ev', hstep, hok, fun mid d post heq => ?_⟩
    obtain ⟨ev₁, ev₂, hrun, hstep₁, hok₁⟩ := h (c :: mid) d post (by rw [heq]; rfl)
    rw [run, hstep] at hrun
    refine ⟨ev₁, ev₂, hrun, hstep₁, ?_⟩
    rwa [List.append_assoc]
  · rintro ⟨ev', hstep, hok, hrest⟩ mid d post heq
    cases mid with
    | nil =>
      obtain ⟨rfl, rfl⟩ := List.cons.inj heq
      exact ⟨ev, ev', rfl, hstep, by rwa [List.append_nil]⟩
    | cons m mid =>
      obtain ⟨rfl, rfl⟩ := List.cons.inj heq
      obtain ⟨ev₁, ev₂, hrun, hstep₁, hok₁⟩ := hrest mid d post rfl
      refine ⟨ev₁, ev₂, ?_, hstep₁, ?_⟩
      · rw [run, hstep]
        exact hrun
      · rwa [List.append_assoc] at hok₁

theorem survivesFrom_iff : ∀ {calls pre : List (FdCall H C)} {ev : Fdevents H C}
    {l : List (ℕ × ℤ)}, FdTableInv pre ev l → ev.AllowsRun calls →
    (SurvivesFrom pre ev calls ↔ ev.CopesRun calls)
  | [], pre, ev, _, _, _ => by
    refine iff_of_true (fun mid c post heq => ?_) trivial
    exact absurd heq (by simp)
  | c :: calls, pre, ev, l, h, hallows => by
    obtain ⟨hallow, hallows⟩ := hallows
    rw [survivesFrom_cons]
    by_cases hc : ev.Copes c
    · obtain ⟨ev', l', hstep, hinv, hok⟩ := step_callOk h hallow hc
      have ih := survivesFrom_iff hinv (hallows ev' hstep)
      constructor
      · rintro ⟨ev₁, hstep₁, -, hrest⟩
        refine ⟨hc, fun ev₂ hstep₂ => ?_⟩
        obtain rfl := Except.ok.inj (hstep.symm.trans hstep₁)
        obtain rfl := Except.ok.inj (hstep.symm.trans hstep₂)
        exact ih.mp hrest
      · rintro ⟨-, hrest⟩
        exact ⟨ev', hstep, hok, ih.mpr (hrest ev' hstep)⟩
    · obtain ⟨e, he⟩ := step_error hc
      refine iff_of_false ?_ fun hcopes => hc hcopes.1
      rintro ⟨ev', hstep, -⟩
      rw [he] at hstep
      cases hstep

theorem fdTableInv_init (maxfds : ℕ) :
    FdTableInv [] (Fdevents.init maxfds : Fdevents H C) [] := by
  have hnone : ∀ fd, ¬ FdScheduled ([] : List (FdCall H C)) fd := by
    rintro fd ⟨pre, issock, post, heq, -⟩
    exact absurd heq (by simp)
  exact ⟨rfl, List.nodup_nil, fun q hq => absurd hq List.not_mem_nil,
    fun fd _ => .empty rfl (hnone fd), fun fd hs => absurd hs (hnone fd)⟩

end Invariant

/-- The table survives a run exactly when every call meets a slot that it can cope with. -/
theorem survives_iff {maxfds : ℕ} {calls : List (FdCall H C)}
    (hallows : (Fdevents.init maxfds).AllowsRun calls) :
    Survives maxfds calls ↔ (Fdevents.init maxfds).CopesRun calls :=
  survivesFrom_iff (fdTableInv_init maxfds) hallows

/-- A descriptor is registered, has an event, and is closed; the event comes once more. -/
theorem survives_closed :
    Survives 8 [FdCall.register 5 (some 1) 2 0, .eventSet 5 1, .call (some (5, 1)),
        .schedClose 5 true, .call (some (5, 1)), .schedRun] ↔
      (Fdevents.init 8).CopesRun [FdCall.register 5 (some 1) 2 0, .eventSet 5 1,
        .call (some (5, 1)), .schedClose 5 true, .call (some (5, 1)), .schedRun] :=
  survives_iff ⟨⟨rfl, rfl⟩, fun _ _ => ⟨trivial, fun _ _ => ⟨trivial, fun _ _ =>
    ⟨trivial, fun _ _ => ⟨trivial, fun _ _ => ⟨trivial, fun _ _ => trivial⟩⟩⟩⟩⟩⟩

/-- An event that was reported before its descriptor was unregistered. -/
theorem not_survives : ¬ ∀ (maxfds : ℕ) (calls : List (FdCall ℕ ℕ)),
    (Fdevents.init maxfds).AllowsRun calls → Survives maxfds calls := by
  intro h
  obtain ⟨ev, ev', hrun, hstep, -⟩ := h 8
    [.register 5 (some 1) 2 0, .eventSet 5 1, .unregister 5, .call (some (5, 1))]
    ⟨⟨rfl, rfl⟩, fun _ _ => ⟨trivial, fun _ _ => ⟨trivial, fun _ _ => ⟨trivial, fun _ _ =>
      trivial⟩⟩⟩⟩
    [.register 5 (some 1) 2 0, .eventSet 5 1, .unregister 5] (.call (some (5, 1))) [] rfl
  have herror : ((Fdevents.init 8).run [FdCall.register 5 (some 1) 2 0, .eventSet 5 1,
      .unregister 5] >>= fun ev => ev.step (.call (some (5, 1)))) = .error .null := rfl
  rw [hrun, ok_bind, hstep] at herror
  cases herror

end Lighttpd
