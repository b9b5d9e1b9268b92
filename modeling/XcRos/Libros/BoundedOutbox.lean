import XcRos.Foundation.Newest
import XcRos.Libros.TcpFraming

/-! # A TCP connection whose outbox is bounded

A publisher with a queue size drops the message that has waited longest for a slow subscriber. Of a run
with a bound the messages that are not dropped are a run without one.
-/

namespace XcRos.Libros

open XcRos.Foundation XcRos.Rpc

open scoped List

/-! ## The outbox only ever loses its first message -/

theorem Outgoing.startMessageWrite_outbox (o : Outgoing) (pc : StartWrite) :
    (o.startMessageWrite pc).1.outbox <:+ o.outbox := by
  cases pc with
  | locking =>
    simp only [startMessageWrite]
    split
    · exact List.suffix_rfl
    · split
      · exact List.suffix_rfl
      · rename_i m rest hOutbox
        rw [hOutbox]
        exact List.suffix_cons m rest
  | writing m =>
    simp only [startMessageWrite]
    split
    · exact List.suffix_rfl
    · exact List.suffix_rfl
  | enabling => exact List.suffix_rfl
  | returned => exact List.suffix_rfl

theorem Outgoing.push_of_room {o : Outgoing} {maxQueue : Nat} (hRoom : o.outbox.length < maxQueue) (m : Bytes) :
    o.push maxQueue m = o.push 0 m := by
  rw [push, push, if_neg (fun hFull => Nat.not_le.mpr hRoom hFull.2), if_neg (fun hBound => Nat.lt_irrefl 0 hBound.1)]

theorem Outgoing.push_of_full {o : Outgoing} {maxQueue : Nat} (hBound : 0 < maxQueue) {oldest : Bytes}
    {waiting : List Bytes} (hOutbox : o.outbox = oldest :: waiting) (hFull : maxQueue ≤ o.outbox.length) (m : Bytes) :
    o.push maxQueue m = push { o with outbox := waiting } 0 m := by
  rw [push, push, if_pos ⟨hBound, hFull⟩, if_neg (fun hNone => Nat.lt_irrefl 0 hNone.1), hOutbox]
  rfl

theorem Outgoing.dropOldest_coherent {o : Outgoing} {threads : List StartWrite} {finishing : Nat}
    (h : o.Coherent threads finishing) {oldest : Bytes} {waiting : List Bytes} (hOutbox : o.outbox = oldest :: waiting) :
    Coherent { o with outbox := waiting } threads finishing := by
  refine ⟨h.asserts, h.lock, h.started, h.progress, h.noProgress, ?_, h.held, ?_, h.enabled⟩
  · intro m hm
    apply h.outbox m
    rw [hOutbox]
    exact List.mem_cons_of_mem oldest hm
  · intro _ hFree hHeader
    apply h.wakeup _ hFree hHeader
    rw [hOutbox]
    exact List.cons_ne_nil oldest waiting

namespace Sender

variable {s s' : Sender}

theorem stepCall_outbox {i : Nat} (hStep : s.stepCall i = some s') : s'.outgoing.outbox <:+ s.outgoing.outbox := by
  simp only [stepCall] at hStep
  split at hStep
  · cases hStep
    exact Outgoing.startMessageWrite_outbox _ _
  · cases hStep

theorem stepWriter_outbox (hStep : s.stepWriter = some s') : s'.outgoing.outbox <:+ s.outgoing.outbox := by
  simp only [stepWriter] at hStep
  split at hStep
  · cases hStep
  · split at hStep
    · cases hStep
    · cases hStep
      exact List.suffix_rfl
  · cases hStep
    exact List.suffix_rfl
  · cases hStep
    exact List.suffix_rfl
  · cases hStep
    exact Outgoing.startMessageWrite_outbox _ _
  · cases hStep
    exact List.suffix_rfl

theorem onWriteable_outbox (hStep : s.onWriteable = some s') : s'.outgoing.outbox <:+ s.outgoing.outbox := by
  simp only [onWriteable] at hStep
  split at hStep
  · obtain ⟨-, rfl⟩ := of_guard hStep
    exact List.suffix_rfl
  · cases hStep

theorem transportWrite_outbox {n : Nat} {bs : Bytes} (hStep : s.transportWrite n = some (bs, s')) :
    s'.outgoing.outbox <:+ s.outgoing.outbox := by
  simp only [transportWrite] at hStep
  split at hStep
  · split at hStep
    · split at hStep
      · cases hStep
        exact List.suffix_rfl
      · cases hStep
        exact List.suffix_rfl
    · cases hStep
  · cases hStep

end Sender

namespace Tcp

variable {maxQueue : Nat} {s s' : Stream} {kept : List Body}

/-! ## The run of the messages that are kept -/

namespace Stream

/-- As if `log` were what has been enqueued. -/
def relogged (s : Stream) (log : List Body) : Stream := { s with enqueued := log }

/-- Of the steps only `enqueue` has to do with the bound and the log. -/
theorem step_cases {a : Label} (hStep : s.step maxQueue a = some s') :
    (∃ body, a = .enqueue body ∧ s' = { s with
      sender := s.sender.enqueueMessage maxQueue (frame body.1)
      enqueued := s.enqueued ++ [body] }) ∨
    (s'.enqueued = s.enqueued ∧ s'.sender.outgoing.outbox <:+ s.sender.outgoing.outbox ∧
      ∀ bound log, (s.relogged log).step bound a = some (s'.relogged log)) := by
  cases a with
  | enqueue body =>
    cases hStep
    exact .inl ⟨body, rfl, rfl⟩
  | call i =>
    obtain ⟨sender, hSender, rfl⟩ := Option.map_eq_some_iff.mp hStep
    refine .inr ⟨rfl, Sender.stepCall_outbox hSender, fun _ _ => ?_⟩
    exact Option.map_eq_some_iff.mpr ⟨sender, hSender, rfl⟩
  | writer =>
    obtain ⟨sender, hSender, rfl⟩ := Option.map_eq_some_iff.mp hStep
    refine .inr ⟨rfl, Sender.stepWriter_outbox hSender, fun _ _ => ?_⟩
    exact Option.map_eq_some_iff.mpr ⟨sender, hSender, rfl⟩
  | writeable =>
    obtain ⟨sender, hSender, rfl⟩ := Option.map_eq_some_iff.mp hStep
    refine .inr ⟨rfl, Sender.onWriteable_outbox hSender, fun _ _ => ?_⟩
    exact Option.map_eq_some_iff.mpr ⟨sender, hSender, rfl⟩
  | write n =>
    obtain ⟨⟨bs, sender⟩, hSender, rfl⟩ := Option.map_eq_some_iff.mp hStep
    refine .inr ⟨rfl, Sender.transportWrite_outbox hSender, fun _ _ => ?_⟩
    exact Option.map_eq_some_iff.mpr ⟨(bs, sender), hSender, rfl⟩
  | readable =>
    simp only [step] at hStep
    obtain ⟨hReady, rfl⟩ := of_guard hStep
    exact .inr ⟨rfl, List.suffix_rfl, fun _ _ => if_pos hReady⟩
  | read n =>
    simp only [step] at hStep
    split at hStep
    · rename_i size hSize
      obtain ⟨hGuard, rfl⟩ := of_guard hStep
      refine .inr ⟨rfl, List.suffix_rfl, fun _ _ => ?_⟩
      simp only [step, relogged, hSize]
      exact if_pos hGuard
    · cases hStep
  | leaveRead =>
    simp only [step] at hStep
    split at hStep
    · cases hStep
    · rename_i hNone
      obtain ⟨hReading, rfl⟩ := of_guard hStep
      refine .inr ⟨rfl, List.suffix_rfl, fun _ _ => ?_⟩
      simp only [step, relogged, hNone]
      exact if_pos hReading

end Stream

/-- The messages of `kept` are on their way as in a run without a bound; the last of them wait in the outbox. -/
structure Bounded (maxQueue : Nat) (s : Stream) (kept : List Body) : Prop where
  framed : Framed (s.relogged kept)
  keeps : KeepsNewest maxQueue s.enqueued kept
  waiting : ∃ front back, kept = front ++ back ∧ s.sender.outgoing.outbox = back.map fun body => frame body.1
  room : s.sender.outgoing.outbox.length ≤ maxQueue

theorem bounded_start (maxQueue : Nat) : Bounded maxQueue .start [] :=
  ⟨framed_start, .nil, ⟨[], [], rfl, rfl⟩, Nat.zero_le maxQueue⟩

theorem Bounded.move (h : Bounded maxQueue s kept) (hEnqueued : s'.enqueued = s.enqueued)
    (hOutbox : s'.sender.outgoing.outbox <:+ s.sender.outgoing.outbox) {a : Label}
    (hStep : (s.relogged kept).step 0 a = some (s'.relogged kept)) : Bounded maxQueue s' kept := by
  constructor
  · exact framed_step h.framed hStep
  · rw [hEnqueued]
    exact h.keeps
  · obtain ⟨front, back, rfl, hBack⟩ := h.waiting
    rw [hBack] at hOutbox
    obtain ⟨left, ⟨gone, hGone⟩, hLeft⟩ := List.suffix_map_iff.mp hOutbox
    refine ⟨front ++ gone, left, ?_, hLeft⟩
    rw [← hGone, List.append_assoc]
  · exact hOutbox.length_le.trans h.room

theorem Bounded.enqueue_of_room (h : Bounded maxQueue s kept) (hRoom : s.sender.outgoing.outbox.length < maxQueue)
    (body : Body) :
    Bounded maxQueue
      { s with
        sender := s.sender.enqueueMessage maxQueue (frame body.1)
        enqueued := s.enqueued ++ [body] }
      (kept ++ [body]) := by
  have hSender : s.sender.enqueueMessage maxQueue (frame body.1) = s.sender.enqueueMessage 0 (frame body.1) := by
    rw [Sender.enqueueMessage, Outgoing.push_of_room hRoom, Sender.enqueueMessage]
  have hOutbox : (s.sender.enqueueMessage 0 (frame body.1)).outgoing.outbox =
      s.sender.outgoing.outbox ++ [frame body.1] := by
    rw [Sender.enqueueMessage, Outgoing.push, if_neg fun hBound => Nat.lt_irrefl 0 hBound.1]
  constructor
  · rw [hSender]
    exact framed_step (a := .enqueue body) h.framed rfl
  · exact h.keeps.push (Nat.zero_lt_of_lt hRoom) body
  · obtain ⟨front, back, rfl, hBack⟩ := h.waiting
    refine ⟨front, back ++ [body], List.append_assoc front back [body], ?_⟩
    rw [hSender, hOutbox, hBack, List.map_append, List.map_singleton]
  · rw [hSender, hOutbox, List.length_append, List.length_singleton]
    exact hRoom

theorem Framed.dropOldest {front waiting : List Body} {oldest : Body} (h : Framed (s.relogged (front ++ oldest :: waiting)))
    (hOutbox : s.sender.outgoing.outbox = (oldest :: waiting).map fun body => frame body.1) :
    Framed { s with
      sender := { s.sender with
        outgoing := { s.sender.outgoing with outbox := waiting.map fun body => frame body.1 } }
      enqueued := front ++ waiting } := by
  refine ⟨⟨Outgoing.dropOldest_coherent h.sender.outgoing hOutbox, h.sender.header⟩, h.reader, ?_⟩
  have hFollows := h.follows
  simp only [Reader.Follows, Stream.relogged, bodies, Sender.unsent, Outgoing.unsent] at hFollows ⊢
  rw [hOutbox] at hFollows
  have hRest : (waiting.map fun body : Body => frame body.1).flatten = (waiting.map Subtype.val).flatMap frame := by
    rw [List.flatMap_map, List.flatMap_def]
  simp only [List.map_append, List.map_cons, List.flatMap_append, List.flatMap_cons, List.flatten_cons, hRest,
    ← List.append_assoc] at hFollows ⊢
  have hBefore := List.append_cancel_right (List.append_cancel_right hFollows)
  rw [← hBefore]
  rfl

theorem Bounded.enqueue_of_full (h : Bounded maxQueue s kept) (hBound : 0 < maxQueue)
    (hFull : maxQueue ≤ s.sender.outgoing.outbox.length) (body : Body) :
    ∃ front oldest waiting, kept = front ++ oldest :: waiting ∧
      Bounded maxQueue
        { s with
          sender := s.sender.enqueueMessage maxQueue (frame body.1)
          enqueued := s.enqueued ++ [body] }
        (front ++ waiting ++ [body]) := by
  obtain ⟨front, back, rfl, hBack⟩ := h.waiting
  have hLength : s.sender.outgoing.outbox.length = back.length := by rw [hBack, List.length_map]
  cases back with
  | nil =>
    rw [hLength, List.length_nil] at hFull
    omega
  | cons oldest waiting =>
    rw [List.length_cons] at hLength
    have hRoom := h.room
    let gone : Outgoing := { s.sender.outgoing with outbox := waiting.map fun body => frame body.1 }
    have hPush : s.sender.outgoing.push maxQueue (frame body.1) = gone.push 0 (frame body.1) :=
      Outgoing.push_of_full hBound hBack hFull _
    have hOutbox : (gone.push 0 (frame body.1)).outbox = (waiting ++ [body]).map fun body => frame body.1 := by
      rw [Outgoing.push, if_neg fun hNone => Nat.lt_irrefl 0 hNone.1, List.map_append, List.map_singleton]
    refine ⟨front, oldest, waiting, rfl, ?_, ?_, ?_, ?_⟩
    · rw [Sender.enqueueMessage, hPush]
      exact framed_step (a := .enqueue body) (h.framed.dropOldest hBack) rfl
    · exact h.keeps.dropOldest hBound (by omega) body
    · refine ⟨front, waiting ++ [body], List.append_assoc front waiting [body], ?_⟩
      rw [Sender.enqueueMessage, hPush, hOutbox]
    · rw [Sender.enqueueMessage, hPush, hOutbox, List.length_map, List.length_append, List.length_singleton]
      omega

theorem bounded_step (hBound : 0 < maxQueue) {a : Label} (h : Bounded maxQueue s kept)
    (hStep : s.step maxQueue a = some s') : ∃ kept', Bounded maxQueue s' kept' := by
  obtain ⟨body, rfl, rfl⟩ | ⟨hEnqueued, hOutbox, hSame⟩ := Stream.step_cases hStep
  · obtain hRoom | hFull := Nat.lt_or_ge s.sender.outgoing.outbox.length maxQueue
    · exact ⟨kept ++ [body], h.enqueue_of_room hRoom body⟩
    · obtain ⟨front, oldest, waiting, -, hNext⟩ := h.enqueue_of_full hBound hFull body
      exact ⟨front ++ waiting ++ [body], hNext⟩
  · exact ⟨kept, h.move hEnqueued hOutbox (hSame 0 kept)⟩

theorem bounded_of_reachable (hBound : 0 < maxQueue) (hReach : (system maxQueue).Reachable s) :
    ∃ kept, Bounded maxQueue s kept := by
  apply hReach.invariant fun s => ∃ kept, Bounded maxQueue s kept
  · rintro _ rfl
    exact ⟨[], bounded_start maxQueue⟩
  · rintro t a t' ⟨kept, h⟩ _ hStep
    exact bounded_step hBound h hStep

theorem Bounded.progress (h : Bounded maxQueue s kept) (hMore : s.reader.handled ≠ kept.map Subtype.val) :
    ∃ a s', s.step maxQueue a = some s' ∧ s'.enqueued = s.enqueued ∧ Bounded maxQueue s' kept ∧
      weight s' < weight s := by
  obtain ⟨a, t, hStep, hKept, hLess⟩ := h.framed.progress hMore
  obtain ⟨body, rfl, rfl⟩ | ⟨-, hOutbox, hSame⟩ := Stream.step_cases hStep
  · have hLength := congrArg List.length hKept
    simp [Stream.relogged] at hLength
  · have hBack : s.step maxQueue a = some (t.relogged s.enqueued) := hSame maxQueue s.enqueued
    refine ⟨a, t.relogged s.enqueued, hBack, rfl, ?_, hLess⟩
    exact h.move rfl hOutbox (hSame 0 kept)

theorem Bounded.exists_run (h : Bounded maxQueue s kept) :
    ∃ as s', (system maxQueue).run s as = some s' ∧ s'.enqueued = s.enqueued ∧
      s'.reader.handled = kept.map Subtype.val := by
  have hProgress : ∀ t, Bounded maxQueue t kept ∧ t.enqueued = s.enqueued →
      ¬ (t.enqueued = s.enqueued ∧ t.reader.handled = kept.map Subtype.val) →
        ∃ a t', (system maxQueue).step t a = some t' ∧ (Bounded maxQueue t' kept ∧ t'.enqueued = s.enqueued) ∧
          weight t' < weight t := by
    rintro t ⟨hInv, hSame⟩ hNot
    have hMore : t.reader.handled ≠ kept.map Subtype.val := fun hEq => hNot ⟨hSame, hEq⟩
    obtain ⟨a, t', hStep, hEnqueued, hNext, hLess⟩ := hInv.progress hMore
    exact ⟨a, t', hStep, ⟨hNext, hEnqueued.trans hSame⟩, hLess⟩
  exact Machine.exists_run_of_measure _ _ weight hProgress s ⟨h, rfl⟩

/-- With a queue size the messages handled are, whole and in order, the first of those that are kept. The
outbox never holds more than the queue size; a message is only ever lost to as many younger ones, so the last
messages enqueued are always kept; at rest, and in some continuation without further messages, all that is
kept has been handled. -/
theorem newest_handled (hBound : 0 < maxQueue) (hReach : (system maxQueue).Reachable s) :
    s.sender.outgoing.assertFailed = false ∧ s.reader.assertFailed = false ∧
      s.sender.outgoing.outbox.length ≤ maxQueue ∧
        ∃ kept, KeepsNewest maxQueue (bodies s) kept ∧ s.reader.handled <+: kept ∧
          (AtRest s → s.reader.handled = kept) ∧
            ∃ as s', (system maxQueue).run s as = some s' ∧ s'.enqueued = s.enqueued ∧ s'.reader.handled = kept := by
  obtain ⟨kept, h⟩ := bounded_of_reachable hBound hReach
  have hFramed := h.framed
  obtain ⟨cs, hSplit, -⟩ := hFramed.reader.split (fun e he => (bodies_bounds _ e he).1) hFramed.follows
  refine ⟨hFramed.sender.outgoing.asserts, hFramed.reader.asserts, h.room, kept.map Subtype.val, ?_, ?_, ?_, ?_⟩
  · exact h.keeps.map Subtype.val
  · exact ⟨cs, hSplit.symm⟩
  · rintro ⟨hCalls, hWriter, hEnabled, hPipe, hReader⟩
    exact hFramed.atRest ⟨hCalls, hWriter, hEnabled, hPipe, hReader⟩
  · exact h.exists_run

def crowdedRun : List Label :=
  [.enqueue ⟨[8], by decide⟩, .enqueue ⟨[9], by decide⟩, .enqueue ⟨[10], by decide⟩]

theorem newest_handled_crowded :
    ∃ s kept, (system 2).run .start crowdedRun = some s ∧ bodies s = [[8], [9], [10]] ∧
      KeepsNewest 2 (bodies s) kept := by
  have hStart : (system 2).Reachable .start := .init rfl
  have hRun : (system 2).run .start crowdedRun = some (((system 2).run .start crowdedRun).getD .start) := rfl
  obtain ⟨-, -, -, kept, hKeeps, -⟩ := newest_handled (by decide) (hStart.run hRun)
  exact ⟨_, kept, hRun, rfl, hKeeps⟩

end Tcp

end XcRos.Libros
