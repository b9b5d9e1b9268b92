import XcRos.Libros.Connection

/-! # The writing side of a connection

`TransportSubscriberLink::enqueueMessage` and `startMessageWrite` over `Connection::write` and
`writeTransport`. Any number of threads enqueue; one thread, woken by the poll set, runs
`writeTransport` and the callbacks in it. Each section under a mutex is one step of its thread.
-/

namespace XcRos.Libros

open XcRos.Foundation XcRos.Rpc

/-- What the threads share: the outbox, the write in progress and the transport's interest in writing. -/
structure Outgoing where
  outbox : List Bytes
  writingMessage : Bool
  headerWritten : Bool
  hasWriteCallback : Bool
  writeBuffer : Bytes
  writeSent : Nat
  writeEnabled : Bool
  assertFailed : Bool

/-- Where a thread is in `startMessageWrite`. -/
inductive StartWrite where
  | locking
  | writing (m : Bytes)
  | enabling
  | returned

/-- Where the thread of the poll set is in `writeTransport`. -/
inductive Writer where
  | idle
  | loop (canWriteMore : Bool)
  | headerDone
  | messageDone
  | starting (pc : StartWrite)
  | leaving

structure Sender where
  outgoing : Outgoing
  writer : Writer
  calls : List StartWrite

namespace Outgoing

/-- The locked part of `enqueueMessage`. -/
def push (o : Outgoing) (maxQueue : Nat) (m : Bytes) : Outgoing :=
  let outbox := if 0 < maxQueue ∧ maxQueue ≤ o.outbox.length then o.outbox.drop 1 else o.outbox
  { o with outbox := outbox ++ [m] }

/-- One step of a thread in `startMessageWrite`. -/
def startMessageWrite (o : Outgoing) : StartWrite → Outgoing × StartWrite
  | .locking =>
    if o.writingMessage || !o.headerWritten then (o, .returned)
    else
      match o.outbox with
      | [] => (o, .returned)
      | m :: rest =>
        ({ o with writingMessage := true, outbox := rest },
          if 0 < m.length then .writing m else .returned)
  | .writing m =>
    if o.hasWriteCallback then ({ o with assertFailed := true }, .returned)
    else ({ o with hasWriteCallback := true, writeBuffer := m, writeSent := 0 }, .enabling)
  -- An immediate write comes from a callback, inside of `writeTransport`, which then returns at once.
  | .enabling => ({ o with writeEnabled := true }, .returned)
  | .returned => (o, .returned)

/-- The end of a write: everything about it is cleared before its callback runs. -/
def written (o : Outgoing) : Outgoing :=
  { o with hasWriteCallback := false, writeBuffer := [], writeSent := 0 }

end Outgoing

/-- The writing thread in its callback; a completed write leaves `can_write_more` as it was. -/
def StartWrite.callback : StartWrite → Writer
  | .returned => .loop true
  | pc => .starting pc

namespace Sender

/-- A call of `enqueueMessage` by some thread, up to `startMessageWrite`. -/
def enqueueMessage (s : Sender) (maxQueue : Nat) (m : Bytes) : Sender :=
  { s with outgoing := s.outgoing.push maxQueue m, calls := s.calls ++ [.locking] }

def stepCall (s : Sender) (i : Nat) : Option Sender :=
  match s.calls[i]? with
  | some pc =>
    let next := s.outgoing.startMessageWrite pc
    some { s with outgoing := next.1, calls := s.calls.set i next.2 }
  | none => none

def stepWriter (s : Sender) : Option Sender :=
  match s.writer with
  | .idle => none
  | .loop canWriteMore =>
    if s.outgoing.hasWriteCallback && canWriteMore then none
    else
      let enabled := s.outgoing.writeEnabled && s.outgoing.hasWriteCallback
      some { s with outgoing := { s.outgoing with writeEnabled := enabled }, writer := .leaving }
  | .headerDone =>
    some { s with outgoing := { s.outgoing with headerWritten := true }, writer := .starting .locking }
  | .messageDone =>
    some { s with outgoing := { s.outgoing with writingMessage := false }, writer := .starting .locking }
  | .starting pc =>
    let next := s.outgoing.startMessageWrite pc
    some { s with outgoing := next.1, writer := next.2.callback }
  | .leaving => some { s with writer := .idle }

def onWriteable (s : Sender) : Option Sender :=
  match s.writer with
  | .idle => if s.outgoing.writeEnabled then some { s with writer := .loop true } else none
  | _ => none

/-- The loop calls `transport_->write`, which takes `n` bytes: these, and the sender after them. -/
def transportWrite (s : Sender) (n : Nat) : Option (Bytes × Sender) :=
  match s.writer with
  | .loop true =>
    let o := s.outgoing
    let toWrite := o.writeBuffer.drop o.writeSent
    if o.hasWriteCallback ∧ n ≤ toWrite.length then
      let sent := o.writeSent + n
      if sent = o.writeBuffer.length then
        some (toWrite.take n, { s with outgoing := o.written, writer := .messageDone })
      else
        some (toWrite.take n, { s with
          outgoing := { o with writeSent := sent }
          writer := .loop (!decide (n < o.writeBuffer.length - sent)) })
    else none
  | _ => none

end Sender

/-! ## What the threads keep true between them -/

/-- The message that a thread has taken off the outbox and not yet given to the connection. -/
def StartWrite.held : StartWrite → List Bytes
  | .writing m => [m]
  | _ => []

/-- The thread of the poll set as one of the threads in `startMessageWrite`. -/
def Writer.startWrite : Writer → StartWrite
  | .starting pc => pc
  | _ => .returned

def Writer.finishing : Writer → Nat
  | .messageDone => 1
  | _ => 0

namespace Outgoing

def unsent (o : Outgoing) (threads : List StartWrite) : Bytes :=
  (threads.flatMap StartWrite.held).flatten ++ (o.writeBuffer.drop o.writeSent ++ o.outbox.flatten)

/-- `writing_message_` is a lock: one thread holds a message, or one write is in progress, or one
callback is about to give the lock back (`finishing`). -/
structure Coherent (o : Outgoing) (threads : List StartWrite) (finishing : Nat) : Prop where
  asserts : o.assertFailed = false
  lock : (threads.flatMap StartWrite.held).length + o.hasWriteCallback.toNat + finishing =
    o.writingMessage.toNat
  started : o.writingMessage = true → o.headerWritten = true
  progress : o.hasWriteCallback = true → o.writeSent < o.writeBuffer.length
  noProgress : o.hasWriteCallback = false → o.writeBuffer = [] ∧ o.writeSent = 0
  outbox : ∀ m ∈ o.outbox, m ≠ []
  held : ∀ m ∈ threads.flatMap StartWrite.held, m ≠ []
  wakeup : o.outbox ≠ [] → o.writingMessage = false → o.headerWritten = true → .locking ∈ threads
  enabled : o.hasWriteCallback = true → o.writeEnabled = true ∨ .enabling ∈ threads

variable {o : Outgoing} {front back : List StartWrite} {pc : StartWrite} {finishing : Nat}

theorem flatMap_held_split (front back : List StartWrite) (pc : StartWrite) :
    (front ++ pc :: back).flatMap StartWrite.held =
      front.flatMap StartWrite.held ++ (pc.held ++ back.flatMap StartWrite.held) := by
  rw [List.flatMap_append, List.flatMap_cons]

theorem mem_of_mem_split {x pc pc' : StartWrite} {front back : List StartWrite} (hNe : x ≠ pc)
    (h : x ∈ front ++ pc :: back) : x ∈ front ++ pc' :: back := by
  obtain hFront | hBack := List.mem_append.mp h
  · exact List.mem_append_left _ hFront
  · obtain rfl | hBack := List.mem_cons.mp hBack
    · exact absurd rfl hNe
    · exact List.mem_append_right _ (List.mem_cons_of_mem _ hBack)

variable {threads : List StartWrite}

theorem Coherent.free (h : o.Coherent threads finishing) (hFree : o.writingMessage = false) :
    threads.flatMap StartWrite.held = [] ∧ o.hasWriteCallback = false ∧ finishing = 0 := by
  have hLock := h.lock
  rw [hFree, Bool.toNat_false] at hLock
  refine ⟨List.length_eq_zero_iff.mp (by omega), ?_, by omega⟩
  cases hCallback : o.hasWriteCallback with
  | false => rfl
  | true =>
    rw [hCallback, Bool.toNat_true] at hLock
    omega

theorem Coherent.move (h : o.Coherent (front ++ pc :: back) finishing) (pc' : StartWrite)
    (hHeld : pc.held = []) (hHeld' : pc'.held = [])
    (hWakeup : pc = .locking → o.outbox ≠ [] → o.writingMessage = false → o.headerWritten = true → False)
    (hEnabled : pc = .enabling → o.writeEnabled = true) :
    o.Coherent (front ++ pc' :: back) finishing ∧
      o.unsent (front ++ pc' :: back) = o.unsent (front ++ pc :: back) := by
  have hSame : (front ++ pc' :: back).flatMap StartWrite.held =
      (front ++ pc :: back).flatMap StartWrite.held := by
    rw [flatMap_held_split, flatMap_held_split, hHeld, hHeld']
  constructor
  · constructor
    · exact h.asserts
    · rw [hSame]
      exact h.lock
    · exact h.started
    · exact h.progress
    · exact h.noProgress
    · exact h.outbox
    · rw [hSame]
      exact h.held
    · intro hSome hFree hHeader
      by_cases hPc : pc = .locking
      · exact (hWakeup hPc hSome hFree hHeader).elim
      · exact mem_of_mem_split (Ne.symm hPc) (h.wakeup hSome hFree hHeader)
    · intro hCallback
      by_cases hPc : pc = .enabling
      · exact Or.inl (hEnabled hPc)
      · exact (h.enabled hCallback).imp id (mem_of_mem_split (Ne.symm hPc))
  · rw [unsent, hSame]
    rfl

theorem startMessageWrite_coherent (h : o.Coherent (front ++ pc :: back) finishing) :
    (o.startMessageWrite pc).1.Coherent (front ++ (o.startMessageWrite pc).2 :: back) finishing ∧
      (o.startMessageWrite pc).1.unsent (front ++ (o.startMessageWrite pc).2 :: back) =
        o.unsent (front ++ pc :: back) := by
  cases pc with
  | returned => exact ⟨h, rfl⟩
  | locking =>
    simp only [startMessageWrite]
    split
    · rename_i hBusy
      apply h.move .returned rfl rfl
      · intro _ _ hFree hHeader
        rw [hFree, hHeader] at hBusy
        cases hBusy
      · rintro ⟨⟩
    · rename_i hFree
      simp only [Bool.or_eq_true, Bool.not_eq_true', not_or, Bool.not_eq_true, Bool.not_eq_false] at hFree
      split
      · rename_i hEmpty
        apply h.move .returned rfl rfl
        · exact fun _ hSome => absurd hEmpty hSome
        · rintro ⟨⟩
      · rename_i m rest hOutbox
        have hm : m ≠ [] := h.outbox m (hOutbox ▸ List.mem_cons_self)
        obtain ⟨hNone, hCallback, hFinishing⟩ := h.free hFree.1
        rw [flatMap_held_split, List.append_eq_nil_iff, List.append_eq_nil_iff] at hNone
        obtain ⟨hFront, -, hBack⟩ := hNone
        have hHeld : (front ++ StartWrite.writing m :: back).flatMap StartWrite.held = [m] := by
          rw [flatMap_held_split, hFront, hBack]
          rfl
        rw [if_pos (List.length_pos_iff.mpr hm)]
        constructor
        · constructor
          · exact h.asserts
          · simp only [hHeld, hCallback, hFinishing]
            rfl
          · exact fun _ => hFree.2
          · exact h.progress
          · exact h.noProgress
          · exact fun x hx => h.outbox x (hOutbox ▸ List.mem_cons_of_mem m hx)
          · rw [hHeld]
            rintro x hx
            rw [List.mem_singleton.mp hx]
            exact hm
          · rintro _ ⟨⟩
          · exact fun hSome => absurd (hCallback.symm.trans hSome) Bool.false_ne_true
        · obtain ⟨hBuffer, _⟩ := h.noProgress hCallback
          simp only [unsent, hHeld, flatMap_held_split, hFront, hBack, StartWrite.held, hBuffer, hOutbox,
            List.drop_nil, List.nil_append, List.append_nil, List.flatten_nil, List.flatten_cons]
  | writing m =>
    have hHas : (front ++ StartWrite.writing m :: back).flatMap StartWrite.held =
        front.flatMap StartWrite.held ++ ([m] ++ back.flatMap StartWrite.held) := flatMap_held_split _ _ _
    have hLock := h.lock
    have hOne : o.writingMessage.toNat ≤ 1 := Bool.toNat_le o.writingMessage
    rw [hHas, List.length_append, List.length_append, List.length_singleton] at hLock
    have hFront : front.flatMap StartWrite.held = [] := List.length_eq_zero_iff.mp (by omega)
    have hBack : back.flatMap StartWrite.held = [] := List.length_eq_zero_iff.mp (by omega)
    have hCallback : o.hasWriteCallback = false := by
      cases hSome : o.hasWriteCallback with
      | false => rfl
      | true =>
        rw [hSome, Bool.toNat_true] at hLock
        omega
    have hWriting : o.writingMessage = true := by
      cases hFree : o.writingMessage with
      | true => rfl
      | false =>
        rw [hFree, Bool.toNat_false] at hLock
        omega
    have hHeld : (front ++ StartWrite.enabling :: back).flatMap StartWrite.held = [] := by
      rw [flatMap_held_split, hFront, hBack]
      rfl
    have hm : m ≠ [] := by
      apply h.held m
      rw [hHas]
      exact List.mem_append_right _ List.mem_cons_self
    simp only [startMessageWrite, hCallback, Bool.false_eq_true, if_false]
    rw [hCallback, hFront, hBack] at hLock
    constructor
    · constructor
      · exact h.asserts
      · rw [hHeld]
        simpa [Nat.add_comm] using hLock
      · exact h.started
      · exact fun _ => List.length_pos_iff.mpr hm
      · rintro ⟨⟩
      · exact h.outbox
      · rw [hHeld]
        exact fun x hx => absurd hx List.not_mem_nil
      · exact fun _ hFree => absurd (hWriting.symm.trans hFree) (by decide)
      · exact fun _ => Or.inr (List.mem_append_right _ List.mem_cons_self)
    · obtain ⟨hBuffer, _⟩ := h.noProgress hCallback
      simp only [unsent, hHeld, hHas, hFront, hBack, hBuffer, List.drop_nil, List.drop_zero, List.nil_append,
        List.append_nil, List.flatten_nil, List.flatten_cons]
  | enabling =>
    have hEnabled : Coherent { o with writeEnabled := true } (front ++ .enabling :: back) finishing :=
      ⟨h.asserts, h.lock, h.started, h.progress, h.noProgress, h.outbox, h.held, h.wakeup,
        fun _ => Or.inl rfl⟩
    exact hEnabled.move .returned rfl rfl (by rintro ⟨⟩) (fun _ => rfl)

theorem push_coherent (h : o.Coherent threads finishing) {m : Bytes} (hm : m ≠ []) (w : StartWrite) :
    (threads = front ++ [w]) → (o.push 0 m).Coherent (front ++ [.locking] ++ [w]) finishing ∧
      (o.push 0 m).unsent (front ++ [.locking] ++ [w]) = o.unsent threads ++ m := by
  rintro rfl
  have hPush : o.push 0 m = { o with outbox := o.outbox ++ [m] } := by
    rw [push, if_neg (fun hBound => Nat.lt_irrefl 0 hBound.1)]
  have hSame : (front ++ [StartWrite.locking] ++ [w]).flatMap StartWrite.held =
      (front ++ [w]).flatMap StartWrite.held := by
    simp only [List.flatMap_append, List.flatMap_cons, List.flatMap_nil, StartWrite.held, List.append_nil]
  rw [hPush]
  constructor
  · constructor
    · exact h.asserts
    · rw [hSame]
      exact h.lock
    · exact h.started
    · exact h.progress
    · exact h.noProgress
    · intro x hx
      obtain hOld | hNew := List.mem_append.mp hx
      · exact h.outbox x hOld
      · rw [List.mem_singleton.mp hNew]
        exact hm
    · rw [hSame]
      exact h.held
    · intro _ _ _
      exact List.mem_append_left _ (List.mem_append_right _ (List.mem_singleton.mpr rfl))
    · intro hCallback
      refine (h.enabled hCallback).imp id fun hMem => ?_
      obtain hFront | hLast := List.mem_append.mp hMem
      · exact List.mem_append_left _ (List.mem_append_left _ hFront)
      · exact List.mem_append_right _ hLast
  · rw [unsent, hSame]
    simp only [unsent, List.flatten_append, List.flatten_cons, List.flatten_nil, List.append_nil,
      List.append_assoc]

theorem messageWritten_coherent (h : o.Coherent (front ++ [.returned]) 1) :
    Coherent { o with writingMessage := false } (front ++ [.locking]) 0 ∧
      unsent { o with writingMessage := false } (front ++ [.locking]) = o.unsent (front ++ [.returned]) := by
  have hLock := h.lock
  have hOne : o.writingMessage.toNat ≤ 1 := Bool.toNat_le o.writingMessage
  have hCallback : o.hasWriteCallback = false := by
    cases hSome : o.hasWriteCallback with
    | false => rfl
    | true =>
      rw [hSome, Bool.toNat_true] at hLock
      omega
  have hSame : (front ++ [StartWrite.locking]).flatMap StartWrite.held =
      (front ++ [StartWrite.returned]).flatMap StartWrite.held := by
    simp only [List.flatMap_append, List.flatMap_cons, List.flatMap_nil, StartWrite.held]
  have hNone : (front ++ [StartWrite.returned]).flatMap StartWrite.held = [] :=
    List.length_eq_zero_iff.mp (by omega)
  constructor
  · constructor
    · exact h.asserts
    · simp only [hSame, hNone, hCallback]
      rfl
    · rintro ⟨⟩
    · exact h.progress
    · exact h.noProgress
    · exact h.outbox
    · rw [hSame]
      exact h.held
    · exact fun _ _ _ => List.mem_append_right _ (List.mem_singleton.mpr rfl)
    · exact fun hSome => absurd (hCallback.symm.trans hSome) Bool.false_ne_true
  · rw [unsent, hSame]
    rfl

theorem headerWritten_coherent (h : o.Coherent (front ++ [.returned]) 0) (hHeader : o.headerWritten = false) :
    Coherent { o with headerWritten := true } (front ++ [.locking]) 0 ∧
      unsent { o with headerWritten := true } (front ++ [.locking]) = o.unsent (front ++ [.returned]) := by
  obtain ⟨hMoved, hUnsent⟩ := h.move .locking rfl rfl (by rintro ⟨⟩) (by rintro ⟨⟩)
  have hFree : o.writingMessage = false := by
    cases hWriting : o.writingMessage with
    | false => rfl
    | true => exact absurd (hHeader.symm.trans (h.started hWriting)) Bool.false_ne_true
  refine ⟨?_, hUnsent⟩
  exact ⟨hMoved.asserts, hMoved.lock, fun _ => rfl, hMoved.progress, hMoved.noProgress, hMoved.outbox,
    hMoved.held, fun _ _ _ => List.mem_append_right _ (List.mem_singleton.mpr rfl), hMoved.enabled⟩

theorem disableWrite_coherent (h : o.Coherent threads finishing) :
    Coherent { o with writeEnabled := o.writeEnabled && o.hasWriteCallback } threads finishing := by
  refine ⟨h.asserts, h.lock, h.started, h.progress, h.noProgress, h.outbox, h.held, h.wakeup, ?_⟩
  intro hCallback
  refine (h.enabled hCallback).imp (fun hEnabled => ?_) id
  rw [hEnabled]
  exact hCallback

theorem progress_coherent (h : o.Coherent threads 0) (hCallback : o.hasWriteCallback = true) {n : Nat}
    (hPart : o.writeSent + n < o.writeBuffer.length) :
    Coherent { o with writeSent := o.writeSent + n } threads 0 ∧
      (o.writeBuffer.drop o.writeSent).take n ++ unsent { o with writeSent := o.writeSent + n } threads =
        o.unsent threads := by
  constructor
  · exact ⟨h.asserts, h.lock, h.started, fun _ => hPart,
      fun hNone => absurd (hNone.symm.trans hCallback) Bool.false_ne_true, h.outbox, h.held, h.wakeup, h.enabled⟩
  · have hNone : threads.flatMap StartWrite.held = [] := by
      have hLock := h.lock
      have hOne : o.writingMessage.toNat ≤ 1 := Bool.toNat_le o.writingMessage
      rw [hCallback, Bool.toNat_true] at hLock
      exact List.length_eq_zero_iff.mp (by omega)
    simp only [unsent, hNone, List.flatten_nil, List.nil_append, ← List.append_assoc]
    rw [← List.drop_drop, List.take_append_drop]

theorem written_coherent (h : o.Coherent threads 0) (hCallback : o.hasWriteCallback = true) :
    o.written.Coherent threads 1 ∧
      o.writeBuffer.drop o.writeSent ++ o.written.unsent threads = o.unsent threads := by
  have hLock := h.lock
  have hOne : o.writingMessage.toNat ≤ 1 := Bool.toNat_le o.writingMessage
  rw [hCallback, Bool.toNat_true] at hLock
  have hNone : threads.flatMap StartWrite.held = [] := List.length_eq_zero_iff.mp (by omega)
  have hWriting : o.writingMessage = true := by
    cases hFree : o.writingMessage with
    | true => rfl
    | false =>
      rw [hFree, Bool.toNat_false] at hLock
      omega
  constructor
  · constructor
    · exact h.asserts
    · simp only [written, hNone, hWriting]
      rfl
    · exact h.started
    · rintro ⟨⟩
    · exact fun _ => ⟨rfl, rfl⟩
    · exact h.outbox
    · exact h.held
    · exact fun _ hFree => absurd (hWriting.symm.trans hFree) (by decide)
    · rintro ⟨⟩
  · simp only [unsent, written, hNone, List.flatten_nil, List.nil_append, List.drop_nil]

end Outgoing

namespace Sender

def threads (s : Sender) : List StartWrite := s.calls ++ [s.writer.startWrite]

def unsent (s : Sender) : Bytes := s.outgoing.unsent s.threads

structure Coherent (s : Sender) : Prop where
  outgoing : s.outgoing.Coherent s.threads s.writer.finishing
  header : s.outgoing.headerWritten = false ↔ s.writer = .headerDone

variable {s s' : Sender}

@[simp] theorem callback_startWrite (pc : StartWrite) : pc.callback.startWrite = pc := by cases pc <;> rfl

@[simp] theorem callback_finishing (pc : StartWrite) : pc.callback.finishing = 0 := by cases pc <;> rfl

theorem callback_ne_headerDone (pc : StartWrite) : pc.callback ≠ .headerDone := by cases pc <;> simp [StartWrite.callback]

theorem startMessageWrite_headerWritten (o : Outgoing) (pc : StartWrite) :
    (o.startMessageWrite pc).1.headerWritten = o.headerWritten := by
  cases pc with
  | locking =>
    simp only [Outgoing.startMessageWrite]
    split
    · rfl
    · split <;> rfl
  | writing m =>
    simp only [Outgoing.startMessageWrite]
    split <;> rfl
  | _ => rfl

theorem enqueueMessage_coherent (h : s.Coherent) {m : Bytes} (hm : m ≠ []) :
    (s.enqueueMessage 0 m).Coherent ∧ (s.enqueueMessage 0 m).unsent = s.unsent ++ m := by
  obtain ⟨hOutgoing, hUnsent⟩ := Outgoing.push_coherent h.outgoing hm s.writer.startWrite rfl
  exact ⟨⟨hOutgoing, h.header⟩, hUnsent⟩

theorem set_eq_split {α : Type} {l : List α} {i : Nat} {a : α} (h : l[i]? = some a) :
    ∃ front back, l = front ++ a :: back ∧ ∀ b, l.set i b = front ++ b :: back := by
  obtain ⟨hLt, rfl⟩ := List.getElem?_eq_some_iff.mp h
  refine ⟨l.take i, l.drop (i + 1), ?_, fun b => List.set_eq_take_append_cons_drop .. |>.trans (if_pos hLt)⟩
  rw [← List.drop_eq_getElem_cons hLt, List.take_append_drop]

theorem stepCall_coherent (h : s.Coherent) {i : Nat} (hStep : s.stepCall i = some s') :
    s'.Coherent ∧ s'.unsent = s.unsent := by
  simp only [stepCall] at hStep
  split at hStep
  · rename_i pc hCall
    cases hStep
    obtain ⟨front, back, hCalls, hSet⟩ := set_eq_split hCall
    have hThreads : s.threads = front ++ pc :: (back ++ [s.writer.startWrite]) := by
      rw [threads, hCalls, List.append_assoc, List.cons_append]
    have hOutgoing := h.outgoing
    rw [hThreads] at hOutgoing
    obtain ⟨hNext, hUnsent⟩ := Outgoing.startMessageWrite_coherent hOutgoing
    simp only [unsent, threads, hSet, List.append_assoc, List.cons_append] at hNext hUnsent ⊢
    refine ⟨⟨?_, ?_⟩, ?_⟩
    · simpa only [threads, List.append_assoc, List.cons_append] using hNext
    · rw [startMessageWrite_headerWritten]
      exact h.header
    · rw [hUnsent, hCalls, List.append_assoc, List.cons_append]
  · cases hStep

theorem Coherent.withWriter (h : s.Coherent) (hHeader : s.writer ≠ .headerDone) {o : Outgoing}
    {writer : Writer} (hWritten : o.headerWritten = s.outgoing.headerWritten) (hNew : writer ≠ .headerDone)
    (hOutgoing : o.Coherent (s.calls ++ [writer.startWrite]) writer.finishing) :
    Coherent { s with outgoing := o, writer := writer } := by
  refine ⟨hOutgoing, ?_⟩
  rw [hWritten]
  exact h.header.trans ⟨fun hOld => absurd hOld hHeader, fun hDone => absurd hDone hNew⟩

theorem stepWriter_coherent (h : s.Coherent) (hStep : s.stepWriter = some s') :
    s'.Coherent ∧ s'.unsent = s.unsent := by
  have hOutgoing := h.outgoing
  cases hWriter : s.writer with
  | idle =>
    simp only [stepWriter, hWriter, reduceCtorEq] at hStep
  | loop canWriteMore =>
    simp only [stepWriter, hWriter] at hStep
    split at hStep
    · cases hStep
    · cases hStep
      simp only [threads, hWriter] at hOutgoing
      refine ⟨h.withWriter ?_ rfl ?_ (Outgoing.disableWrite_coherent hOutgoing), ?_⟩
      · simp [hWriter]
      · simp
      · simp only [unsent, threads, hWriter]
        rfl
  | headerDone =>
    simp only [stepWriter, hWriter] at hStep
    cases hStep
    simp only [threads, hWriter] at hOutgoing
    have hHeader := h.header.mpr hWriter
    obtain ⟨hNext, hUnsent⟩ := Outgoing.headerWritten_coherent hOutgoing hHeader
    refine ⟨⟨hNext, ?_⟩, ?_⟩
    · simp
    · simp only [unsent, threads, hWriter]
      exact hUnsent
  | messageDone =>
    simp only [stepWriter, hWriter] at hStep
    cases hStep
    simp only [threads, hWriter] at hOutgoing
    obtain ⟨hNext, hUnsent⟩ := Outgoing.messageWritten_coherent hOutgoing
    refine ⟨h.withWriter ?_ rfl ?_ hNext, ?_⟩
    · simp [hWriter]
    · simp
    · simp only [unsent, threads, hWriter]
      exact hUnsent
  | starting pc =>
    simp only [stepWriter, hWriter] at hStep
    cases hStep
    simp only [threads, hWriter] at hOutgoing
    obtain ⟨hNext, hUnsent⟩ := Outgoing.startMessageWrite_coherent hOutgoing
    refine ⟨h.withWriter ?_ (startMessageWrite_headerWritten _ _) (callback_ne_headerDone _) ?_, ?_⟩
    · simp [hWriter]
    · rw [callback_startWrite, callback_finishing]
      exact hNext
    · simp only [unsent, threads, hWriter, callback_startWrite]
      exact hUnsent
  | leaving =>
    simp only [stepWriter, hWriter] at hStep
    cases hStep
    simp only [threads, hWriter] at hOutgoing
    refine ⟨h.withWriter ?_ rfl ?_ hOutgoing, ?_⟩
    · simp [hWriter]
    · simp
    · simp only [unsent, threads, hWriter]
      rfl

theorem onWriteable_coherent (h : s.Coherent) (hStep : s.onWriteable = some s') :
    s'.Coherent ∧ s'.unsent = s.unsent := by
  have hOutgoing := h.outgoing
  simp only [onWriteable] at hStep
  split at hStep
  · rename_i hWriter
    split at hStep
    · cases hStep
      simp only [threads, hWriter] at hOutgoing
      refine ⟨h.withWriter ?_ rfl ?_ hOutgoing, ?_⟩
      · simp [hWriter]
      · simp
      · simp only [unsent, threads, hWriter]
        rfl
    · cases hStep
  · cases hStep

theorem transportWrite_coherent (h : s.Coherent) {n : Nat} {bs : Bytes}
    (hStep : s.transportWrite n = some (bs, s')) : s'.Coherent ∧ bs ++ s'.unsent = s.unsent := by
  have hOutgoing := h.outgoing
  simp only [transportWrite] at hStep
  split at hStep
  · rename_i hWriter
    simp only [threads, hWriter] at hOutgoing
    split at hStep
    · rename_i hGuard
      obtain ⟨hCallback, hn⟩ := hGuard
      rw [List.length_drop] at hn
      have hProgress := hOutgoing.progress hCallback
      split at hStep
      · rename_i hFull
        cases hStep
        obtain ⟨hNext, hUnsent⟩ := Outgoing.written_coherent hOutgoing hCallback
        refine ⟨h.withWriter ?_ rfl ?_ hNext, ?_⟩
        · simp [hWriter]
        · simp
        · have hAll : (s.outgoing.writeBuffer.drop s.outgoing.writeSent).take n =
              s.outgoing.writeBuffer.drop s.outgoing.writeSent := by
            apply List.take_of_length_le
            rw [List.length_drop]
            omega
          rw [hAll]
          simp only [unsent, threads, hWriter]
          exact hUnsent
      · rename_i hPart
        cases hStep
        obtain ⟨hNext, hUnsent⟩ := Outgoing.progress_coherent hOutgoing hCallback
          (n := n) (by omega)
        refine ⟨h.withWriter ?_ rfl ?_ hNext, ?_⟩
        · simp [hWriter]
        · simp
        · simp only [unsent, threads, hWriter]
          exact hUnsent
    · cases hStep
  · cases hStep

end Sender

/-! ## What is left to be done -/

def Writer.weight : Writer → Nat
  | .loop true => 0
  | .idle => 1
  | .leaving => 2
  | .loop false => 4
  | .starting .returned => 4
  | .starting .enabling => 5
  | .starting (.writing _) => 6
  | .starting .locking => 7
  | .messageDone => 8
  | .headerDone => 8

namespace Outgoing

/-- What a thread in `startMessageWrite` may bring down. -/
def weight (o : Outgoing) (held : Nat) : Nat :=
  3 * o.outbox.length + 2 * held + (!o.writeEnabled).toNat

theorem startMessageWrite_weight_le (o : Outgoing) (pc : StartWrite) :
    (o.startMessageWrite pc).1.weight (o.startMessageWrite pc).2.held.length ≤ o.weight pc.held.length := by
  cases pc with
  | locking =>
    simp only [startMessageWrite]
    split
    · exact Nat.le_refl _
    · split
      · exact Nat.le_refl _
      · have hOne : ∀ m : Bytes, (if 0 < m.length then StartWrite.writing m else .returned).held.length ≤ 1 := by
          intro m
          split
          · exact Nat.le_refl 1
          · exact Nat.zero_le 1
        rename_i m rest hOutbox
        have hNew := hOne m
        have hOld : StartWrite.locking.held.length = 0 := rfl
        simp only [weight, hOutbox, List.length_cons, hOld]
        omega
  | writing m =>
    simp only [startMessageWrite]
    split <;> simp only [weight, StartWrite.held, List.length_nil, List.length_singleton] <;> omega
  | enabling =>
    simp only [startMessageWrite, weight, StartWrite.held, Bool.not_true, Bool.toNat_false]
    omega
  | returned => exact Nat.le_refl _

theorem callback_weight_lt (o : Outgoing) (pc : StartWrite) :
    (o.startMessageWrite pc).2.callback.weight < (Writer.starting pc).weight := by
  cases pc with
  | locking =>
    simp only [startMessageWrite]
    split
    · simp only [StartWrite.callback, Writer.weight, Nat.succ_pos]
    · split
      · simp only [StartWrite.callback, Writer.weight, Nat.succ_pos]
      · dsimp only
        split <;> simp only [StartWrite.callback, Writer.weight] <;> omega
  | writing m =>
    simp only [startMessageWrite]
    split <;> simp only [StartWrite.callback, Writer.weight] <;> omega
  | enabling => simp only [startMessageWrite, StartWrite.callback, Writer.weight, Nat.succ_pos]
  | returned => simp only [startMessageWrite, StartWrite.callback, Writer.weight, Nat.succ_pos]

end Outgoing

namespace Sender

variable {s s' : Sender}

def weight (s : Sender) : Nat :=
  20 * s.unsent.length + s.outgoing.weight (s.threads.flatMap StartWrite.held).length + s.writer.weight

theorem stepCall_weight_lt (h : s.Coherent) {i : Nat} {pc : StartWrite} (hCall : s.calls[i]? = some pc)
    (hLess : (s.outgoing.startMessageWrite pc).1.weight (s.outgoing.startMessageWrite pc).2.held.length <
      s.outgoing.weight pc.held.length) : ∃ s', s.stepCall i = some s' ∧ s'.weight < s.weight := by
  have hStep : s.stepCall i = some { s with
      outgoing := (s.outgoing.startMessageWrite pc).1
      calls := s.calls.set i (s.outgoing.startMessageWrite pc).2 } := by
    simp only [stepCall, hCall]
  obtain ⟨_, hUnsent⟩ := stepCall_coherent h hStep
  obtain ⟨front, back, hCalls, hSet⟩ := set_eq_split hCall
  refine ⟨_, hStep, ?_⟩
  rw [weight, hUnsent, weight]
  simp only [threads, hSet]
  simp only [hCalls, Outgoing.weight, List.flatMap_append, List.flatMap_cons, List.length_append] at hLess ⊢
  omega

theorem stepWriter_weight_lt (h : s.Coherent) (hIdle : s.writer ≠ .idle) (hLoop : s.writer ≠ .loop true) :
    ∃ s', s.stepWriter = some s' ∧ s'.weight < s.weight := by
  cases hWriter : s.writer with
  | idle => exact absurd hWriter hIdle
  | loop canWriteMore =>
    cases canWriteMore with
    | true => exact absurd hWriter hLoop
    | false =>
      have hStep : s.stepWriter = some { s with
          outgoing := { s.outgoing with writeEnabled := s.outgoing.writeEnabled && s.outgoing.hasWriteCallback }
          writer := .leaving } := by
        simp only [stepWriter, hWriter, Bool.and_false, Bool.false_eq_true, if_false]
      obtain ⟨_, hUnsent⟩ := stepWriter_coherent h hStep
      refine ⟨_, hStep, ?_⟩
      have hBit := Bool.toNat_le (!(s.outgoing.writeEnabled && s.outgoing.hasWriteCallback))
      rw [weight, hUnsent, weight]
      simp only [threads, hWriter, Writer.startWrite, Writer.weight, Outgoing.weight]
      omega
  | headerDone =>
    have hStep : s.stepWriter = some { s with
        outgoing := { s.outgoing with headerWritten := true }, writer := .starting .locking } := by
      simp only [stepWriter, hWriter]
    obtain ⟨_, hUnsent⟩ := stepWriter_coherent h hStep
    refine ⟨_, hStep, ?_⟩
    rw [weight, hUnsent, weight]
    simp only [threads, hWriter, Writer.startWrite, Writer.weight, Outgoing.weight, List.flatMap_append,
      List.flatMap_cons, List.flatMap_nil, StartWrite.held]
    omega
  | messageDone =>
    have hStep : s.stepWriter = some { s with
        outgoing := { s.outgoing with writingMessage := false }, writer := .starting .locking } := by
      simp only [stepWriter, hWriter]
    obtain ⟨_, hUnsent⟩ := stepWriter_coherent h hStep
    refine ⟨_, hStep, ?_⟩
    rw [weight, hUnsent, weight]
    simp only [threads, hWriter, Writer.startWrite, Writer.weight, Outgoing.weight, List.flatMap_append,
      List.flatMap_cons, List.flatMap_nil, StartWrite.held]
    omega
  | starting pc =>
    have hStep : s.stepWriter = some { s with
        outgoing := (s.outgoing.startMessageWrite pc).1
        writer := (s.outgoing.startMessageWrite pc).2.callback } := by
      simp only [stepWriter, hWriter]
    obtain ⟨_, hUnsent⟩ := stepWriter_coherent h hStep
    refine ⟨_, hStep, ?_⟩
    have hLe := Outgoing.startMessageWrite_weight_le s.outgoing pc
    have hLess := Outgoing.callback_weight_lt s.outgoing pc
    have hOld : (Writer.starting pc).startWrite = pc := rfl
    rw [weight, hUnsent, weight]
    simp only [threads, hWriter, callback_startWrite, hOld, Outgoing.weight, List.flatMap_append,
      List.flatMap_cons, List.flatMap_nil, List.append_nil, List.length_append] at hLe ⊢
    omega
  | leaving =>
    have hStep : s.stepWriter = some { s with writer := .idle } := by
      simp only [stepWriter, hWriter]
    obtain ⟨_, hUnsent⟩ := stepWriter_coherent h hStep
    refine ⟨_, hStep, ?_⟩
    rw [weight, hUnsent, weight]
    simp only [threads, hWriter, Writer.startWrite, Writer.weight]
    omega

inductive Advances (s : Sender) : Prop
  | call (i : Nat) (s' : Sender) (hStep : s.stepCall i = some s') (hLess : s'.weight < s.weight)
  | writer (s' : Sender) (hStep : s.stepWriter = some s') (hLess : s'.weight < s.weight)
  | writeable (s' : Sender) (hStep : s.onWriteable = some s') (hLess : s'.weight < s.weight)
  | write (n : Nat) (bs : Bytes) (s' : Sender) (hStep : s.transportWrite n = some (bs, s'))
      (hLess : s'.weight + 4 * bs.length < s.weight)

theorem advances_of_mem (h : s.Coherent) {pc : StartWrite} (hMem : pc ∈ s.calls)
    (hLess : (s.outgoing.startMessageWrite pc).1.weight (s.outgoing.startMessageWrite pc).2.held.length <
      s.outgoing.weight pc.held.length) : s.Advances := by
  obtain ⟨i, hi, hGet⟩ := List.getElem_of_mem hMem
  obtain ⟨s', hStep, hWeight⟩ := stepCall_weight_lt h (List.getElem?_eq_some_iff.mpr ⟨hi, hGet⟩) hLess
  exact .call i s' hStep hWeight

theorem transportWrite_advances (h : s.Coherent) (hWriter : s.writer = .loop true)
    (hCallback : s.outgoing.hasWriteCallback = true) : s.Advances := by
  have hProgress := h.outgoing.progress hCallback
  have hStep : s.transportWrite (s.outgoing.writeBuffer.length - s.outgoing.writeSent) =
      some ((s.outgoing.writeBuffer.drop s.outgoing.writeSent).take
        (s.outgoing.writeBuffer.length - s.outgoing.writeSent),
        { s with outgoing := s.outgoing.written, writer := .messageDone }) := by
    have hAll : s.outgoing.writeSent + (s.outgoing.writeBuffer.length - s.outgoing.writeSent) =
        s.outgoing.writeBuffer.length := by omega
    simp only [transportWrite, hWriter, hCallback, List.length_drop, Nat.le_refl, and_self, if_true, hAll]
  obtain ⟨_, hUnsent⟩ := transportWrite_coherent h hStep
  refine .write _ _ _ hStep ?_
  have hLength := congrArg List.length hUnsent
  rw [List.length_append] at hLength
  have hTaken : ((s.outgoing.writeBuffer.drop s.outgoing.writeSent).take
      (s.outgoing.writeBuffer.length - s.outgoing.writeSent)).length =
        s.outgoing.writeBuffer.length - s.outgoing.writeSent := by
    rw [List.length_take, List.length_drop, Nat.min_self]
  rw [hTaken] at hLength ⊢
  rw [weight, weight, ← hLength]
  simp only [threads, hWriter, Writer.startWrite, Writer.weight, Outgoing.weight, Outgoing.written]
  omega

theorem advances (h : s.Coherent) (hSome : s.unsent ≠ []) : s.Advances := by
  by_cases hBusy : s.writer ≠ .idle ∧ s.writer ≠ .loop true
  · obtain ⟨s', hStep, hLess⟩ := stepWriter_weight_lt h hBusy.1 hBusy.2
    exact .writer s' hStep hLess
  have hQuiet : s.writer = .idle ∨ s.writer = .loop true := by
    by_contra hNot
    exact hBusy (not_or.mp hNot)
  have hStart : s.writer.startWrite = .returned ∧ s.writer.finishing = 0 ∧ s.writer ≠ .headerDone := by
    obtain hWriter | hWriter := hQuiet <;> rw [hWriter] <;> exact ⟨rfl, rfl, nofun⟩
  have hCalls : ∀ pc ∈ s.threads, pc ≠ .returned → pc ∈ s.calls := by
    intro pc hMem hNe
    obtain hCall | hWriter := List.mem_append.mp hMem
    · exact hCall
    · rw [List.mem_singleton.mp hWriter, hStart.1] at hNe
      exact absurd rfl hNe
  cases hCallback : s.outgoing.hasWriteCallback with
  | true =>
    obtain hWriter | hWriter := hQuiet
    · cases hEnabled : s.outgoing.writeEnabled with
      | true =>
        refine .writeable { s with writer := .loop true } ?_ ?_
        · simp only [onWriteable, hWriter, hEnabled, if_true]
        · simp only [weight, unsent, threads, hWriter, Writer.startWrite, Writer.weight]
          omega
      | false =>
        have hMem : StartWrite.enabling ∈ s.threads :=
          (h.outgoing.enabled hCallback).resolve_left (by simp [hEnabled])
        apply advances_of_mem h (hCalls _ hMem nofun)
        simp only [Outgoing.startMessageWrite, Outgoing.weight, hEnabled, StartWrite.held, List.length_nil,
          Bool.not_true, Bool.not_false, Bool.toNat_true, Bool.toNat_false]
        omega
    · exact transportWrite_advances h hWriter hCallback
  | false =>
    by_cases hHeld : s.threads.flatMap StartWrite.held = []
    · have hLock := h.outgoing.lock
      rw [hHeld, hCallback, hStart.2.1] at hLock
      have hFree : s.outgoing.writingMessage = false := by
        cases hWriting : s.outgoing.writingMessage with
        | false => rfl
        | true =>
          rw [hWriting] at hLock
          cases hLock
      have hWritten : s.outgoing.headerWritten = true := by
        cases hNone : s.outgoing.headerWritten with
        | true => rfl
        | false => exact absurd (h.header.mp hNone) hStart.2.2
      obtain ⟨hBuffer, _⟩ := h.outgoing.noProgress hCallback
      cases hOutbox : s.outgoing.outbox with
      | nil =>
        apply absurd _ hSome
        simp only [unsent, Outgoing.unsent, hHeld, hBuffer, hOutbox, List.drop_nil, List.flatten_nil,
          List.append_nil]
      | cons m rest =>
        have hMem : StartWrite.locking ∈ s.threads := by
          apply h.outgoing.wakeup _ hFree hWritten
          rw [hOutbox]
          exact List.cons_ne_nil m rest
        have hm : 0 < m.length :=
          List.length_pos_iff.mpr (h.outgoing.outbox m (hOutbox ▸ List.mem_cons_self))
        apply advances_of_mem h (hCalls _ hMem nofun)
        simp only [Outgoing.startMessageWrite, hFree, hWritten, hOutbox, Bool.not_true, Bool.or_self,
          Bool.false_eq_true, if_false, hm, if_true, Outgoing.weight, StartWrite.held, List.length_cons,
          List.length_nil]
        omega
    · obtain ⟨m, hm⟩ := List.exists_mem_of_ne_nil _ hHeld
      obtain ⟨pc, hMem, hPc⟩ := List.mem_flatMap.mp hm
      cases pc with
      | writing x =>
        apply advances_of_mem h (hCalls _ hMem nofun)
        simp only [Outgoing.startMessageWrite, hCallback, Bool.false_eq_true, if_false, Outgoing.weight,
          StartWrite.held, List.length_cons, List.length_nil]
        omega
      | _ => cases hPc

end Sender

end XcRos.Libros
