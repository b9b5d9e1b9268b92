import XcRos.Foundation.Machine
import XcRos.Libros.TransportSubscriberLink

/-! # Messages over a TCP connection

A subscriber link and a publisher link at the two ends of a stream of bytes. The transport may take
any part of what it is given to write, and return any part of what has arrived.
-/

namespace XcRos.Libros.Tcp

open XcRos.Foundation XcRos.Rpc

def link : Link where
  requiresHeader := true
  lengthLimit := some 1000000000

/-- A message that the publisher link at the other end takes to be possible. -/
abbrev Body := { body : Bytes // body.length ≤ 1000000000 }

structure Stream where
  sender : Sender
  pipe : Bytes
  reader : Reader
  enqueued : List Body

inductive Label where
  | enqueue (body : Body)
  | call (i : Nat)
  | writer
  | writeable
  | write (n : Nat)
  | readable
  | read (n : Nat)
  | leaveRead

namespace Stream

/-- Both headers have been exchanged: their callbacks are about to start the traffic. -/
def start : Stream where
  sender :=
    { outgoing :=
        { outbox := []
          writingMessage := false
          headerWritten := false
          hasWriteCallback := false
          writeBuffer := []
          writeSent := 0
          writeEnabled := true
          assertFailed := false }
      writer := .headerDone
      calls := [] }
  pipe := []
  reader := Reader.start
  enqueued := []

def withSender (s : Stream) (sender : Sender) : Stream := { s with sender := sender }

def step (maxQueue : Nat) (s : Stream) : Label → Option Stream
  | .enqueue body =>
    some { s with
      sender := s.sender.enqueueMessage maxQueue (frame body.1)
      enqueued := s.enqueued ++ [body] }
  | .call i => (s.sender.stepCall i).map s.withSender
  | .writer => s.sender.stepWriter.map s.withSender
  | .writeable => s.sender.onWriteable.map s.withSender
  | .write n =>
    (s.sender.transportWrite n).map fun next => { s with sender := next.2, pipe := s.pipe ++ next.1 }
  | .readable =>
    if s.reader.readEnabled ∧ s.reader.dropped = false ∧ s.reader.reading = false then
      some { s with reader := { s.reader with reading := true } }
    else none
  | .read n =>
    match s.reader.toRead with
    | some size =>
      if s.reader.reading ∧ n ≤ size ∧ n ≤ s.pipe.length then
        some { s with
          reader := s.reader.transportRead link (some (s.pipe.take n))
          pipe := s.pipe.drop n }
      else none
    | none => none
  | .leaveRead =>
    match s.reader.toRead with
    | some _ => none
    | none => if s.reader.reading then some { s with reader := s.reader.leave } else none

end Stream

def system (maxQueue : Nat) : Machine Stream Label where
  Init s := s = .start
  step := Stream.step maxQueue

def bodies (s : Stream) : List Bytes := s.enqueued.map Subtype.val

structure AtRest (s : Stream) : Prop where
  calls : ∀ pc ∈ s.sender.calls, pc = .returned
  writer : s.sender.writer = .idle
  writeEnabled : s.sender.outgoing.writeEnabled = false
  pipe : s.pipe = []
  reader : s.reader.reading = false

structure Framed (s : Stream) : Prop where
  sender : s.sender.Coherent
  reader : s.reader.Waiting
  follows : s.reader.Follows (s.pipe ++ s.sender.unsent) (bodies s)

variable {s s' : Stream}

theorem bodies_bounds (s : Stream) :
    ∀ body ∈ bodies s, body.length < 256 ^ 4 ∧ link.exceeds body.length = false := by
  intro body hBody
  obtain ⟨b, _, rfl⟩ := List.mem_map.mp hBody
  have hb := b.2
  constructor
  · omega
  · simpa [link, Link.exceeds] using hb

theorem frame_ne_nil (body : Bytes) : frame body ≠ [] := by
  intro h
  have hLength := congrArg List.length h
  rw [Reader.length_frame, List.length_nil] at hLength
  omega

theorem framed_start : Framed .start := by
  refine ⟨⟨?_, ?_⟩, Reader.start_waiting, rfl⟩
  · exact ⟨rfl, rfl, nofun, nofun, fun _ => ⟨rfl, rfl⟩, nofun, nofun, nofun, nofun⟩
  · exact ⟨fun _ => rfl, fun _ => rfl⟩

theorem Framed.withSender (h : Framed s) {sender : Sender} (hSender : sender.Coherent)
    (hUnsent : sender.unsent = s.sender.unsent) : Framed (s.withSender sender) := by
  refine ⟨hSender, h.reader, ?_⟩
  have hFollows := h.follows
  rw [← hUnsent] at hFollows
  exact hFollows

theorem Framed.read (h : Framed s) (hLoop : s.reader.reading = true) {n : Nat}
    (hSize : n ≤ s.reader.readSize - s.reader.readBuffer.length) (hPipe : n ≤ s.pipe.length) :
    Framed { s with
      reader := s.reader.transportRead link (some (s.pipe.take n))
      pipe := s.pipe.drop n } := by
  have hFollows := h.follows
  rw [← List.take_append_drop n s.pipe, List.append_assoc] at hFollows
  have hLe := h.reader.filled_le
  have hLength : s.reader.readBuffer.length + (s.pipe.take n).length ≤ s.reader.readSize := by
    rw [List.length_take]
    omega
  obtain ⟨hReader, hRest⟩ := Reader.transportRead_follows h.reader hLoop (bodies_bounds s) hLength hFollows
  exact ⟨h.sender, hReader, hRest⟩

theorem framed_step {a : Label} (h : Framed s) (hStep : s.step 0 a = some s') : Framed s' := by
  cases a with
  | enqueue body =>
    cases hStep
    obtain ⟨hSender, hUnsent⟩ := Sender.enqueueMessage_coherent h.sender (frame_ne_nil body.1)
    refine ⟨hSender, h.reader, ?_⟩
    have hFollows := h.follows.append body.1
    rw [List.append_assoc, ← hUnsent] at hFollows
    simpa only [bodies, List.map_append, List.map_cons, List.map_nil] using hFollows
  | call i =>
    obtain ⟨sender, hSender, rfl⟩ := Option.map_eq_some_iff.mp hStep
    obtain ⟨hCoherent, hUnsent⟩ := Sender.stepCall_coherent h.sender hSender
    exact h.withSender hCoherent hUnsent
  | writer =>
    obtain ⟨sender, hSender, rfl⟩ := Option.map_eq_some_iff.mp hStep
    obtain ⟨hCoherent, hUnsent⟩ := Sender.stepWriter_coherent h.sender hSender
    exact h.withSender hCoherent hUnsent
  | writeable =>
    obtain ⟨sender, hSender, rfl⟩ := Option.map_eq_some_iff.mp hStep
    obtain ⟨hCoherent, hUnsent⟩ := Sender.onWriteable_coherent h.sender hSender
    exact h.withSender hCoherent hUnsent
  | write n =>
    obtain ⟨⟨bs, sender⟩, hSender, rfl⟩ := Option.map_eq_some_iff.mp hStep
    obtain ⟨hCoherent, hUnsent⟩ := Sender.transportWrite_coherent h.sender hSender
    refine ⟨hCoherent, h.reader, ?_⟩
    have hFollows := h.follows
    rw [← hUnsent, ← List.append_assoc] at hFollows
    exact hFollows
  | readable =>
    simp only [Stream.step] at hStep
    split at hStep
    · cases hStep
      exact ⟨h.sender, h.reader.enter, h.follows⟩
    · cases hStep
  | read n =>
    simp only [Stream.step, h.reader.toRead] at hStep
    split at hStep
    · rename_i hGuard
      cases hStep
      exact h.read hGuard.1 hGuard.2.1 hGuard.2.2
    · cases hStep
  | leaveRead =>
    simp only [Stream.step, h.reader.toRead, reduceCtorEq] at hStep

theorem Framed.idle_of_returned (h : Framed s)
    (hReturned : ∀ pc ∈ s.sender.threads, pc = .returned) (hDone : s.sender.writer.finishing = 0)
    (hHeader : s.sender.writer ≠ .headerDone) (hDisabled : s.sender.outgoing.writeEnabled = false) :
    s.sender.unsent = [] := by
  have hOutgoing := h.sender.outgoing
  have hNotEnabling : StartWrite.enabling ∉ s.sender.threads := fun hMem => by cases hReturned _ hMem
  have hNotLocking : StartWrite.locking ∉ s.sender.threads := fun hMem => by cases hReturned _ hMem
  have hHeld : s.sender.threads.flatMap StartWrite.held = [] := by
    apply List.flatMap_eq_nil_iff.mpr
    intro pc hPc
    rw [hReturned pc hPc]
    rfl
  have hCallback : s.sender.outgoing.hasWriteCallback = false := by
    cases hSome : s.sender.outgoing.hasWriteCallback with
    | false => rfl
    | true =>
      obtain hEnabled | hMem := hOutgoing.enabled hSome
      · exact absurd (hDisabled.symm.trans hEnabled) Bool.false_ne_true
      · exact absurd hMem hNotEnabling
  have hFree : s.sender.outgoing.writingMessage = false := by
    have hLock := hOutgoing.lock
    rw [hHeld, hCallback, hDone] at hLock
    cases hWriting : s.sender.outgoing.writingMessage with
    | false => rfl
    | true =>
      rw [hWriting] at hLock
      cases hLock
  have hWritten : s.sender.outgoing.headerWritten = true := by
    cases hNone : s.sender.outgoing.headerWritten with
    | true => rfl
    | false => exact absurd (h.sender.header.mp hNone) hHeader
  have hOutbox : s.sender.outgoing.outbox = [] := by
    by_contra hSome
    exact hNotLocking (hOutgoing.wakeup hSome hFree hWritten)
  obtain ⟨hBuffer, _⟩ := hOutgoing.noProgress hCallback
  simp only [Sender.unsent, Outgoing.unsent, hHeld, hBuffer, hOutbox, List.drop_nil, List.flatten_nil,
    List.append_nil]

theorem Framed.atRest (h : Framed s) (hRest : AtRest s) : s.reader.handled = bodies s := by
  have hUnsent : s.sender.unsent = [] := by
    apply h.idle_of_returned
    · intro pc hPc
      obtain hCall | hWriter := List.mem_append.mp hPc
      · exact hRest.calls pc hCall
      · rw [List.mem_singleton.mp hWriter, hRest.writer]
        rfl
    · rw [hRest.writer]
      rfl
    · rw [hRest.writer]
      simp
    · exact hRest.writeEnabled
  have hFollows := h.follows
  rw [hUnsent, hRest.pipe, List.append_nil] at hFollows
  have hShort : s.reader.readBuffer.length + ([] : Bytes).length < s.reader.readSize :=
    h.reader.idle hRest.reader
  exact h.reader.handled_eq hShort (fun e he => (bodies_bounds s e he).1) hFollows

/-! ## Every message arrives -/

def readerWeight (r : Reader) : Nat := (!r.reading).toNat + if r.readSize = 0 then 1 else 0

def weight (s : Stream) : Nat := s.sender.weight + 4 * s.pipe.length + readerWeight s.reader

theorem readerWeight_le (r : Reader) : readerWeight r ≤ 2 := by
  have hBit := Bool.toNat_le (!r.reading)
  rw [readerWeight]
  split <;> omega

theorem Framed.sender_progress (h : Framed s) (hSome : s.sender.unsent ≠ []) :
    ∃ a s', s.step 0 a = some s' ∧ s'.enqueued = s.enqueued ∧ weight s' < weight s := by
  obtain ⟨i, sender, hStep, hLess⟩ | ⟨sender, hStep, hLess⟩ | ⟨sender, hStep, hLess⟩ |
    ⟨n, bs, sender, hStep, hLess⟩ := Sender.advances h.sender hSome
  · refine ⟨.call i, s.withSender sender, by rw [Stream.step, hStep]; rfl, rfl, ?_⟩
    simp only [weight, Stream.withSender]
    omega
  · refine ⟨.writer, s.withSender sender, by rw [Stream.step, hStep]; rfl, rfl, ?_⟩
    simp only [weight, Stream.withSender]
    omega
  · refine ⟨.writeable, s.withSender sender, by rw [Stream.step, hStep]; rfl, rfl, ?_⟩
    simp only [weight, Stream.withSender]
    omega
  · refine ⟨.write n, { s with sender := sender, pipe := s.pipe ++ bs }, by rw [Stream.step, hStep]; rfl,
      rfl, ?_⟩
    simp only [weight, List.length_append]
    omega

theorem Framed.reader_progress (h : Framed s) (hLoop : s.reader.reading = true)
    (hWaits : s.reader.readSize = 0 ∨ s.pipe ≠ []) :
    ∃ a s', s.step 0 a = some s' ∧ s'.enqueued = s.enqueued ∧ weight s' < weight s := by
  have hStep : ∀ n, n ≤ s.reader.readSize - s.reader.readBuffer.length → n ≤ s.pipe.length →
      s.step 0 (.read n) = some { s with
        reader := s.reader.transportRead link (some (s.pipe.take n))
        pipe := s.pipe.drop n } := by
    intro n hSize hPipe
    simp only [Stream.step, h.reader.toRead, hLoop, hSize, hPipe, and_self, if_true]
  by_cases hZero : s.reader.readSize = 0
  · refine ⟨.read 0, _, hStep 0 (Nat.zero_le _) (Nat.zero_le _), rfl, ?_⟩
    obtain ⟨_, hFour, _⟩ | ⟨hCallback, hBody⟩ := h.reader.callback
    · omega
    · have hEmpty : s.reader.readBuffer = [] := by
        obtain hShort | ⟨_, hEmpty⟩ := hBody
        · omega
        · exact hEmpty
      have hFull : (s.reader.readBuffer ++ s.pipe.take 0).length = s.reader.readSize := by
        rw [hEmpty, hZero]
        rfl
      rw [Reader.transportRead_message h.reader hCallback hFull]
      simp [weight, readerWeight, hLoop, hZero]
  · have hPipe : 0 < s.pipe.length := List.length_pos_iff.mpr (hWaits.resolve_left hZero)
    have hShort : s.reader.readBuffer.length < s.reader.readSize := by
      obtain ⟨_, hFour, hLess⟩ | ⟨_, hLess | ⟨hNone, _⟩⟩ := h.reader.callback
      · omega
      · exact hLess
      · exact absurd hNone hZero
    let n := min (s.reader.readSize - s.reader.readBuffer.length) s.pipe.length
    refine ⟨.read n, _, hStep n (Nat.min_le_left _ _) (Nat.min_le_right _ _), rfl, ?_⟩
    have hLe := readerWeight_le (s.reader.transportRead link (some (s.pipe.take n)))
    simp only [weight, List.length_drop]
    omega

theorem Framed.progress (h : Framed s) (hMore : s.reader.handled ≠ bodies s) :
    ∃ a s', s.step 0 a = some s' ∧ s'.enqueued = s.enqueued ∧ weight s' < weight s := by
  have hSender : s.pipe = [] → s.reader.readBuffer.length < s.reader.readSize → s.sender.unsent ≠ [] := by
    intro hPipe hShort hNone
    have hFollows := h.follows
    rw [hPipe, hNone, List.append_nil] at hFollows
    have hLess : s.reader.readBuffer.length + ([] : Bytes).length < s.reader.readSize := hShort
    exact hMore (h.reader.handled_eq hLess (fun e he => (bodies_bounds s e he).1) hFollows)
  cases hLoop : s.reader.reading with
  | true =>
    by_cases hWaits : s.reader.readSize = 0 ∨ s.pipe ≠ []
    · exact h.reader_progress hLoop hWaits
    · obtain ⟨hSize, hPipe⟩ := not_or.mp hWaits
      apply h.sender_progress
      apply hSender (not_not.mp hPipe)
      obtain ⟨_, hFour, hLess⟩ | ⟨_, hLess | ⟨hNone, _⟩⟩ := h.reader.callback
      · omega
      · exact hLess
      · exact absurd hNone hSize
  | false =>
    by_cases hPipe : s.pipe = []
    · exact h.sender_progress (hSender hPipe (h.reader.idle hLoop))
    · refine ⟨.readable, { s with reader := { s.reader with reading := true } }, ?_, rfl, ?_⟩
      · simp only [Stream.step, h.reader.enabled, h.reader.connected, hLoop, and_self, if_true]
      · simp only [weight, readerWeight, hLoop]
        exact Nat.add_lt_add_left (Nat.add_lt_add_right Nat.one_pos _) _

theorem framed_of_reachable (hReach : (system 0).Reachable s) : Framed s := by
  apply hReach.invariant Framed
  · rintro _ rfl
    exact framed_start
  · exact fun _ _ _ h _ hStep => framed_step h hStep

/-- Each message enqueued is handled once, whole and in order. At any time the messages handled are
the first of those enqueued, no read or write is asked for while another is outstanding, and some
continuation without further messages hands over all of them; at rest that has been done. -/
theorem handled_exactly (hReach : (system 0).Reachable s) :
    s.sender.outgoing.assertFailed = false ∧ s.reader.assertFailed = false ∧
      s.reader.handled <+: bodies s ∧ (AtRest s → s.reader.handled = bodies s) ∧
        ∃ as s', (system 0).run s as = some s' ∧ s'.enqueued = s.enqueued ∧
          s'.reader.handled = bodies s := by
  have hFramed := framed_of_reachable hReach
  obtain ⟨cs, hSplit, _⟩ := hFramed.reader.split (fun e he => (bodies_bounds s e he).1) hFramed.follows
  refine ⟨hFramed.sender.outgoing.asserts, hFramed.reader.asserts, ⟨cs, hSplit.symm⟩, hFramed.atRest, ?_⟩
  have hProgress : ∀ t, Framed t ∧ t.enqueued = s.enqueued →
      ¬ (t.enqueued = s.enqueued ∧ t.reader.handled = bodies s) →
        ∃ a t', (system 0).step t a = some t' ∧ (Framed t' ∧ t'.enqueued = s.enqueued) ∧
          weight t' < weight t := by
    rintro t ⟨hInv, hSame⟩ hNot
    have hBodies : bodies t = bodies s := by rw [bodies, hSame, bodies]
    have hMore : t.reader.handled ≠ bodies t := fun hEq => hNot ⟨hSame, hEq.trans hBodies⟩
    obtain ⟨a, t', hStep, hEnqueued, hLess⟩ := hInv.progress hMore
    exact ⟨a, t', hStep, ⟨framed_step hInv hStep, hEnqueued.trans hSame⟩, hLess⟩
  exact Machine.exists_run_of_measure _ _ weight hProgress s ⟨hFramed, rfl⟩

def sampleRun : List Label :=
  [.writer, .enqueue ⟨[7], by decide⟩, .enqueue ⟨[], by decide⟩, .call 0, .call 1, .writer, .call 0, .write 3,
    .read 2, .call 0, .write 2, .writer, .writer, .writer, .writer, .write 4, .writer, .writer, .writer,
    .writer, .readable, .read 2, .read 1, .read 4, .read 0, .read 0]

theorem handled_exactly_sample :
    ∃ s, (system 0).run .start sampleRun = some s ∧ s.reader.handled = [[7], []] := by
  have hStart : (system 0).Reachable .start := .init rfl
  have hRun : (system 0).run .start sampleRun = some (((system 0).run .start sampleRun).getD .start) := rfl
  obtain ⟨_, _, _, hRest, _⟩ := handled_exactly (hStart.run hRun)
  refine ⟨_, hRun, hRest ⟨?_, rfl, rfl, rfl, rfl⟩⟩
  intro pc hPc
  have hCalls : pc ∈ [StartWrite.returned, StartWrite.returned] := hPc
  simpa using hCalls

end XcRos.Libros.Tcp
