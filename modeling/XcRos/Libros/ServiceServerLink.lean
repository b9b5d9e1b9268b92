import Mathlib.Logic.Function.Basic
import XcRos.Foundation.LittleEndian
import XcRos.Foundation.Machine

/-! # A client's link to a service

`ServiceServerLink` with any number of callers, the reader that runs the callbacks of its connection
and the thread that drops the connection. A thread moves by one section under `call_queue_mutex_` or
the `finished_mutex_` of a call, with what it does by itself around it. A thread that calls twice is
two callers. The server answers the requests in the order in which they arrive.
-/

namespace XcRos.Libros.Service

open XcRos.Foundation

inductive Thread where
  | caller (i : Nat)
  | reader
  | dropper
deriving DecidableEq, Repr

def Thread.call : Thread → Option Nat
  | .caller i => some i
  | _ => none

/-- A request on its way. `call` is not part of the bytes, it says whose request this is. -/
structure Request (ρ : Type) where
  call : Nat
  data : ρ
deriving DecidableEq, Repr

structure Response where
  ok : UInt8
  payload : List UInt8
  short : payload.length < 256 ^ 4
deriving DecidableEq

def Response.bytes (response : Response) : List UInt8 :=
  response.ok :: le 4 response.payload.length ++ response.payload

/-- `CallInfo`; `resp` is what has been stored through the pointer of that name. -/
structure CallInfo (ρ : Type) where
  req : ρ
  resp : Option (List UInt8)
  finished : Bool
  success : Bool
  callFinished : Bool
  exceptionString : List UInt8
deriving DecidableEq, Repr

/-- What a thread in `processNextCall` is about to do. -/
inductive Processing (ρ : Type) where
  | take
  | fetch
  | send (request : Request ρ)
  | drop
  | dropping
deriving DecidableEq, Repr

/-- What a thread in `call` is about to do. `wait` locks `finished_mutex_`, `blocked` is inside
`finished_condition_.wait`. -/
inductive CallerPc (ρ : Type) where
  | absent
  | push
  | process (p : Processing ρ)
  | wait
  | blocked
  | leave
  | returned (result : Bool)
deriving DecidableEq, Repr

inductive ReaderPc (ρ : Type) where
  | idle
  | header
  | headerProcess (p : Processing ρ)
  | headerEnd
  | okAndLength (ok : UInt8) (len : Nat)
  | tooLong
  | response (buffer : List UInt8)
  | finish
  | process (p : Processing ρ)
deriving DecidableEq, Repr

/-- What the thread in `clearCalls` is about to do. From `loop` on it wants `call_queue_mutex_` for
as long as the queue is not empty. -/
inductive DropperPc where
  | absent
  | first
  | cancelCurrent (i : Nat)
  | spinCurrent (i : Nat)
  | loop
  | cancel (i : Nat)
  | spin (i : Nat)
  | done
deriving DecidableEq, Repr

inductive ReadCallback where
  | onHeader
  | onResponseOkAndLength
  | onResponse
deriving DecidableEq, Repr

structure ServiceServerLink (ρ : Type) where
  persistent : Bool
  headerWritten : Bool
  headerRead : Bool
  callQueue : List Nat
  currentCall : Option Nat
  info : Nat → CallInfo ρ
  callQueueMutex : Option Thread
  finishedMutex : Nat → Option Thread
  -- the connection
  dropped : Bool
  writeBuffer : Option (Request ρ)
  /-- The request has gone out and `onRequestWritten` comes next. -/
  requestWritten : Bool
  readCallback : Option (ReadCallback × Nat)
  /-- The bytes behind the header that have arrived. -/
  incoming : List UInt8
  -- the threads
  calls : Nat
  caller : Nat → CallerPc ρ
  reader : ReaderPc ρ
  dropper : DropperPc
  /-- The call whose thread drops the connection. -/
  dropThread : Option Nat
  -- the server
  unanswered : List (Request ρ)
  -- what has happened
  queued : List Nat
  sent : List (Request ρ)
  answered : List (Request ρ × Response)

variable {ρ : Type}

/-! ## Locks -/

def Processing.locksQueue : Processing ρ → Bool
  | .take | .fetch => true
  | _ => false

def CallerPc.locksQueue : CallerPc ρ → Bool
  | .push => true
  | .process p => p.locksQueue
  | _ => false

def ReaderPc.locksQueue : ReaderPc ρ → Bool
  | .header | .okAndLength _ _ | .response _ | .finish => true
  | .headerProcess p | .process p => p.locksQueue
  | _ => false

def DropperPc.locksQueue : DropperPc → Bool
  | .first | .loop => true
  | _ => false

namespace ServiceServerLink

/-- The next section of the thread is one under `call_queue_mutex_`. -/
def locksQueue (s : ServiceServerLink ρ) : Thread → Bool
  | .caller i => (s.caller i).locksQueue
  | .reader => s.reader.locksQueue
  | .dropper => s.dropper.locksQueue

/-- The call whose `finished_mutex_` the next section of the thread locks. -/
def locksFinished (s : ServiceServerLink ρ) : Thread → Option Nat
  | .caller i => if s.caller i matches .wait then some i else none
  | .reader => if s.reader matches .finish then s.currentCall else none
  | .dropper =>
    match s.dropper with
    | .cancelCurrent i | .cancel i => some i
    | _ => none

def holdsQueue (s : ServiceServerLink ρ) (t : Thread) : Prop := s.locksQueue t = true → s.callQueueMutex = some t

instance (s : ServiceServerLink ρ) (t : Thread) : Decidable (s.holdsQueue t) :=
  inferInstanceAs (Decidable (s.locksQueue t = true → s.callQueueMutex = some t))

def ready (s : ServiceServerLink ρ) (t : Thread) : Prop :=
  s.holdsQueue t ∧ ∀ i ∈ s.locksFinished t, s.finishedMutex i = some t

instance (s : ServiceServerLink ρ) (t : Thread) : Decidable (s.ready t) :=
  inferInstanceAs (Decidable (s.holdsQueue t ∧ ∀ i ∈ s.locksFinished t, s.finishedMutex i = some t))

def lock (s : ServiceServerLink ρ) (t : Thread) : Option (ServiceServerLink ρ) :=
  if s.locksQueue t = true ∧ s.callQueueMutex = none then some { s with callQueueMutex := some t } else none

def lockFinished (s : ServiceServerLink ρ) (t : Thread) : Option (ServiceServerLink ρ) :=
  match s.locksFinished t with
  | some i =>
    if s.finishedMutex i = none ∧ s.holdsQueue t then
      some { s with finishedMutex := Function.update s.finishedMutex i (some t) }
    else none
  | none => none

def unlockFinished (s : ServiceServerLink ρ) (t : Thread) : ServiceServerLink ρ :=
  { s with finishedMutex := fun i => if s.finishedMutex i = some t then none else s.finishedMutex i }

def unlock (s : ServiceServerLink ρ) (t : Thread) : ServiceServerLink ρ :=
  { s.unlockFinished t with callQueueMutex := if s.callQueueMutex = some t then none else s.callQueueMutex }

/-! ## The connection -/

/-- `Connection::read` -/
def read (s : ServiceServerLink ρ) (callback : ReadCallback) (size : Nat) : ServiceServerLink ρ :=
  { s with readCallback := if s.dropped then s.readCallback else some (callback, size) }

/-- `Connection::write` -/
def write (s : ServiceServerLink ρ) (request : Request ρ) : ServiceServerLink ρ :=
  { s with writeBuffer := if s.dropped then s.writeBuffer else some request }

/-- `Connection::drop` up to `clearCalls`. -/
def beginDrop (s : ServiceServerLink ρ) (thread : Option Nat) : ServiceServerLink ρ :=
  { s with dropped := true, dropper := .first, dropThread := thread }

/-! ## `processNextCall` -/

/-- Where the thread is in `processNextCall`. -/
def processing (s : ServiceServerLink ρ) : Thread → Option (Processing ρ)
  | .caller i =>
    match s.caller i with
    | .process p => some p
    | _ => none
  | .reader =>
    match s.reader with
    | .headerProcess p | .process p => some p
    | _ => none
  | .dropper => none

/-- The thread goes on in `processNextCall`, or returns from it. -/
def proceed (s : ServiceServerLink ρ) (t : Thread) (p : Option (Processing ρ)) : ServiceServerLink ρ :=
  { s with
    caller :=
      match t with
      | .caller i => Function.update s.caller i ((p.map .process).getD .wait)
      | _ => s.caller
    reader :=
      match t, s.reader with
      | .reader, .headerProcess _ => (p.map .headerProcess).getD .headerEnd
      | .reader, _ => (p.map .process).getD .idle
      | _, reader => reader }

def processNextCall (s : ServiceServerLink ρ) (t : Thread) : Processing ρ → Option (ServiceServerLink ρ)
  | .take =>
    if s.currentCall.isSome then some (s.proceed t none)
    else
      match s.callQueue with
      | i :: rest => some ({ s with currentCall := some i, callQueue := rest }.proceed t (some .fetch))
      | [] => some (s.proceed t (if s.persistent then none else some .drop))
  | .fetch => s.currentCall.map fun i => s.proceed t (some (.send ⟨i, (s.info i).req⟩))
  | .send request => some ((s.write request).proceed t none)
  | .drop =>
    some (if s.dropped then s.proceed t none else (s.beginDrop t.call).proceed t (some .dropping))
  | .dropping => if s.dropper = .done then some (s.proceed t none) else none

/-! ## The sections of the threads -/

def setInfo (s : ServiceServerLink ρ) (i : Nat) (f : CallInfo ρ → CallInfo ρ) : ServiceServerLink ρ :=
  { s with info := Function.update s.info i (f (s.info i)) }

def setCaller (s : ServiceServerLink ρ) (i : Nat) (pc : CallerPc ρ) : ServiceServerLink ρ :=
  { s with caller := Function.update s.caller i pc }

/-- `finished_ = true` with the notification of the caller. -/
def finishCall (s : ServiceServerLink ρ) (i : Nat) : ServiceServerLink ρ :=
  { s with
    info := Function.update s.info i { s.info i with finished := true }
    caller := if s.caller i matches .blocked then Function.update s.caller i .wait else s.caller }

/-- `call` apart from `processNextCall`. -/
def callStep (s : ServiceServerLink ρ) (i : Nat) : Option (ServiceServerLink ρ) :=
  match s.caller i with
  | .push =>
    if s.dropped then
      some ((s.setInfo i fun info => { info with callFinished := true }).setCaller i (.returned false))
    else
      let immediate := s.callQueue.isEmpty && s.headerWritten && s.headerRead
      some ({ s with callQueue := s.callQueue ++ [i], queued := s.queued ++ [i] }.setCaller i
        (if immediate then .process .take else .wait))
  | .wait => some (s.setCaller i (if (s.info i).finished then .leave else .blocked))
  | .leave =>
    some ((s.setInfo i fun info => { info with callFinished := true }).setCaller i (.returned (s.info i).success))
  | _ => none

/-- The callbacks of the connection apart from `processNextCall`. -/
def readerStep (s : ServiceServerLink ρ) : Option (ServiceServerLink ρ) :=
  match s.reader with
  | .header =>
    if s.callQueue.isEmpty then some { s with headerRead := true, reader := .idle }
    else some { s with reader := .headerProcess .take }
  | .headerEnd => some { s with headerRead := true, reader := .idle }
  | .okAndLength ok len =>
    s.currentCall.map fun i =>
      let s := s.setInfo i fun info => { info with success := ok != 0 }
      if 0 < len then { s.read .onResponse len with reader := .idle } else { s with reader := .response [] }
  | .tooLong =>
    some (if s.dropped then { s with reader := .idle } else { s.beginDrop none with reader := .process .dropping })
  | .response buffer =>
    s.currentCall.map fun i =>
      { s.setInfo i fun info =>
          if info.success then { info with resp := some buffer } else { info with exceptionString := buffer } with
        reader := .finish }
  | .finish => s.currentCall.map fun i => { s.finishCall i with currentCall := none, reader := .process .take }
  | _ => none

/-- `call_queue_.pop()` in `clearCalls`. -/
def popCall (s : ServiceServerLink ρ) : ServiceServerLink ρ :=
  { s with callQueue := s.callQueue.tail, dropper := .loop }

/-- `clearCalls`. Only at its end, and after its first section, is `call_queue_mutex_` unlocked. -/
def dropStep (s : ServiceServerLink ρ) : Option (ServiceServerLink ρ) :=
  match s.dropper with
  | .first => some ({ s with dropper := (s.currentCall.map DropperPc.cancelCurrent).getD .loop }.unlock .dropper)
  | .cancelCurrent i =>
    some ({ s.finishCall i with dropper := if s.dropThread = some i then .loop else .spinCurrent i }.unlockFinished
      .dropper)
  | .spinCurrent i => if (s.info i).callFinished then some { s with dropper := .loop } else none
  | .loop =>
    match s.callQueue with
    | [] => some ({ s with dropper := .done }.unlock .dropper)
    | i :: _ => some { s with dropper := .cancel i }
  | .cancel i =>
    let s := (s.finishCall i).unlockFinished .dropper
    some (if s.dropThread = some i then s.popCall else { s with dropper := .spin i })
  | .spin i => if (s.info i).callFinished then some s.popCall else none
  | .absent | .done => none

def act (s : ServiceServerLink ρ) (t : Thread) : Option (ServiceServerLink ρ) :=
  if s.ready t then
    match t, s.processing t with
    | .dropper, _ => s.dropStep
    | t, some p => (s.processNextCall t p).map (·.unlock t)
    | .caller i, none => (s.callStep i).map (·.unlock (.caller i))
    | .reader, none => s.readerStep.map (·.unlock .reader)
  else none

/-! ## Runs -/

def begin (s : ServiceServerLink ρ) (req : ρ) : ServiceServerLink ρ :=
  { s with
    calls := s.calls + 1
    info := Function.update s.info s.calls ⟨req, none, false, false, false, []⟩
    caller := Function.update s.caller s.calls .push }

/-- `onResponseOkAndLength` up to its lock. -/
def onResponseOkAndLength (s : ServiceServerLink ρ) (buffer : List UInt8) : ServiceServerLink ρ :=
  let len := ofLe buffer.tail
  { s with reader := if len > 1000000000 then .tooLong else .okAndLength (buffer.headD 0) len }

/-- The bytes that were asked for are there, and their callback is called. -/
def receive (s : ServiceServerLink ρ) : Option (ServiceServerLink ρ) :=
  match s.dropped, s.reader, s.readCallback with
  | false, .idle, some (callback, size) =>
    if size ≤ s.incoming.length then
      let next := { s with readCallback := none, incoming := s.incoming.drop size }
      match callback with
      | .onResponseOkAndLength => some (next.onResponseOkAndLength (s.incoming.take size))
      | .onResponse => some { next with reader := .response (s.incoming.take size) }
      | .onHeader => none
    else none
  | _, _, _ => none

/-- The header has arrived; without an `md5sum` it is not looked at. -/
def receiveHeader (s : ServiceServerLink ρ) (hasMd5sum : Bool) : Option (ServiceServerLink ρ) :=
  match s.dropped, s.reader, s.readCallback with
  | false, .idle, some (.onHeader, _) =>
    some { s with readCallback := none, reader := if hasMd5sum then .header else .idle }
  | _, _, _ => none

def transmit (s : ServiceServerLink ρ) : Option (ServiceServerLink ρ) :=
  match s.dropped, s.requestWritten, s.writeBuffer with
  | false, false, some request =>
    some { s with
      writeBuffer := none
      requestWritten := true
      unanswered := s.unanswered ++ [request]
      sent := s.sent ++ [request] }
  | _, _, _ => none

def onRequestWritten (s : ServiceServerLink ρ) : Option (ServiceServerLink ρ) :=
  if s.requestWritten then some { s.read .onResponseOkAndLength 5 with requestWritten := false } else none

def answer (s : ServiceServerLink ρ) (response : Response) : Option (ServiceServerLink ρ) :=
  match s.unanswered with
  | request :: rest =>
    some { s with
      unanswered := rest
      incoming := s.incoming ++ response.bytes
      answered := s.answered ++ [(request, response)] }
  | [] => none

end ServiceServerLink

inductive Label (ρ : Type) where
  | call (req : ρ)
  | lock (t : Thread)
  | lockFinished (t : Thread)
  | act (t : Thread)
  /-- `finished_condition_.wait` returns without a notification. -/
  | wakeUp (i : Nat)
  | onHeaderWritten
  | receiveHeader (hasMd5sum : Bool)
  | receive
  | transmit
  | onRequestWritten
  | answer (response : Response)
  | drop
deriving DecidableEq

def step (s : ServiceServerLink ρ) : Label ρ → Option (ServiceServerLink ρ)
  | .call req => some (s.begin req)
  | .lock t => s.lock t
  | .lockFinished t => s.lockFinished t
  | .act t => s.act t
  | .wakeUp i => if s.caller i matches .blocked then some (s.setCaller i .wait) else none
  | .onHeaderWritten => some { s with headerWritten := true }
  | .receiveHeader hasMd5sum => s.receiveHeader hasMd5sum
  | .receive => s.receive
  | .transmit => s.transmit
  | .onRequestWritten => s.onRequestWritten
  | .answer response => s.answer response
  | .drop => if s.dropped then none else some (s.beginDrop none)

def start (persistent : Bool) (req : ρ) : ServiceServerLink ρ where
  persistent := persistent
  headerWritten := false
  headerRead := false
  callQueue := []
  currentCall := none
  info _ := ⟨req, none, false, false, false, []⟩
  callQueueMutex := none
  finishedMutex _ := none
  dropped := false
  writeBuffer := none
  requestWritten := false
  readCallback := some (.onHeader, 4)
  incoming := []
  calls := 0
  caller _ := .absent
  reader := .idle
  dropper := .absent
  dropThread := none
  unanswered := []
  queued := []
  sent := []
  answered := []

def system (ρ : Type) : Machine (ServiceServerLink ρ) (Label ρ) where
  Init s := ∃ persistent req, s = start persistent req
  step := step

/-! ## What a step does -/

/-- What a thread in `processNextCall` does with the locks that it needs. -/
inductive Processed (s : ServiceServerLink ρ) (t : Thread) : Processing ρ → ServiceServerLink ρ → Prop
  | busy (hBusy : s.currentCall.isSome = true) : Processed s t .take (s.proceed t none)
  | taken {i : Nat} {rest : List Nat} (hIdle : s.currentCall = none) (hQueue : s.callQueue = i :: rest) :
      Processed s t .take ({ s with currentCall := some i, callQueue := rest }.proceed t (some .fetch))
  | empty (hIdle : s.currentCall = none) (hQueue : s.callQueue = []) :
      Processed s t .take (s.proceed t (if s.persistent then none else some .drop))
  | fetched {i : Nat} (hCurrent : s.currentCall = some i) :
      Processed s t .fetch (s.proceed t (some (.send ⟨i, (s.info i).req⟩)))
  | sent (request : Request ρ) : Processed s t (.send request) ((s.write request).proceed t none)
  | late (hDropped : s.dropped = true) : Processed s t .drop (s.proceed t none)
  | dropped (hLive : s.dropped = false) :
      Processed s t .drop ((s.beginDrop t.call).proceed t (some .dropping))
  | cleared (hDone : s.dropper = .done) : Processed s t .dropping (s.proceed t none)

theorem processed_of_processNextCall {s next : ServiceServerLink ρ} {t : Thread} {p : Processing ρ}
    (h : s.processNextCall t p = some next) : Processed s t p next := by
  cases p with
  | take =>
    simp only [ServiceServerLink.processNextCall] at h
    split at h
    · cases h
      exact .busy ‹_›
    · have hIdle : s.currentCall = none := Option.not_isSome_iff_eq_none.mp ‹_›
      split at h
      · cases h
        exact .taken hIdle ‹_›
      · cases h
        exact .empty hIdle ‹_›
  | fetch =>
    obtain ⟨i, hCurrent, rfl⟩ := Option.map_eq_some_iff.mp h
    exact .fetched hCurrent
  | send request =>
    cases h
    exact .sent request
  | drop =>
    simp only [ServiceServerLink.processNextCall, Option.some.injEq] at h
    subst h
    split
    · exact .late ‹_›
    · exact .dropped (Bool.not_eq_true _ ▸ ‹_›)
  | dropping =>
    simp only [ServiceServerLink.processNextCall] at h
    split at h
    · cases h
      exact .cleared ‹_›
    · cases h

/-- What a caller does outside of `processNextCall`. -/
inductive Called (s : ServiceServerLink ρ) (i : Nat) : ServiceServerLink ρ → Prop
  | refused (hAt : s.caller i = .push) (hDropped : s.dropped = true) :
      Called s i ((s.setInfo i fun info => { info with callFinished := true }).setCaller i (.returned false))
  | queued (hAt : s.caller i = .push) (hLive : s.dropped = false) :
      Called s i ({ s with callQueue := s.callQueue ++ [i], queued := s.queued ++ [i] }.setCaller i
        (if s.callQueue.isEmpty && s.headerWritten && s.headerRead then .process .take else .wait))
  | checked (hAt : s.caller i = .wait) :
      Called s i (s.setCaller i (if (s.info i).finished then .leave else .blocked))
  | left (hAt : s.caller i = .leave) :
      Called s i ((s.setInfo i fun info => { info with callFinished := true }).setCaller i
        (.returned (s.info i).success))

theorem called_of_callStep {s next : ServiceServerLink ρ} {i : Nat} (h : s.callStep i = some next) :
    Called s i next := by
  rw [ServiceServerLink.callStep] at h
  split at h
  · split at h
    · cases h
      exact .refused ‹_› ‹_›
    · cases h
      exact .queued ‹_› (Bool.not_eq_true _ ▸ ‹_›)
  · cases h
    exact .checked ‹_›
  · cases h
    exact .left ‹_›
  · cases h

/-- What the callbacks of the connection do outside of `processNextCall`. -/
inductive CalledBack (s : ServiceServerLink ρ) : ServiceServerLink ρ → Prop
  | headerEmpty (hAt : s.reader = .header) (hQueue : s.callQueue = []) :
      CalledBack s { s with headerRead := true, reader := .idle }
  | headerQueued (hAt : s.reader = .header) (hQueue : s.callQueue ≠ []) :
      CalledBack s { s with reader := .headerProcess .take }
  | headerEnd (hAt : s.reader = .headerEnd) : CalledBack s { s with headerRead := true, reader := .idle }
  | length {ok : UInt8} {len i : Nat} (hAt : s.reader = .okAndLength ok len) (hCurrent : s.currentCall = some i)
      (hLen : 0 < len) :
      CalledBack s
        { (s.setInfo i fun info => { info with success := ok != 0 }).read .onResponse len with reader := .idle }
  | noPayload {ok : UInt8} {i : Nat} (hAt : s.reader = .okAndLength ok 0) (hCurrent : s.currentCall = some i) :
      CalledBack s { s.setInfo i fun info => { info with success := ok != 0 } with reader := .response [] }
  | tooLongLate (hAt : s.reader = .tooLong) (hDropped : s.dropped = true) :
      CalledBack s { s with reader := .idle }
  | tooLong (hAt : s.reader = .tooLong) (hLive : s.dropped = false) :
      CalledBack s { s.beginDrop none with reader := .process .dropping }
  | response {buffer : List UInt8} {i : Nat} (hAt : s.reader = .response buffer) (hCurrent : s.currentCall = some i) :
      CalledBack s
        { s.setInfo i fun info =>
            if info.success then { info with resp := some buffer } else { info with exceptionString := buffer } with
          reader := .finish }
  | finished {i : Nat} (hAt : s.reader = .finish) (hCurrent : s.currentCall = some i) :
      CalledBack s { s.finishCall i with currentCall := none, reader := .process .take }

theorem calledBack_of_readerStep {s next : ServiceServerLink ρ} (h : s.readerStep = some next) :
    CalledBack s next := by
  rw [ServiceServerLink.readerStep] at h
  split at h
  · split at h
    · cases h
      exact .headerEmpty ‹_› (List.isEmpty_iff.mp ‹_›)
    · rename_i hQueue
      cases h
      exact .headerQueued ‹_› (fun hEmpty => hQueue (List.isEmpty_iff.mpr hEmpty))
  · cases h
    exact .headerEnd ‹_›
  · rename_i ok len hAt
    obtain ⟨i, hCurrent, rfl⟩ := Option.map_eq_some_iff.mp h
    simp only
    split
    · exact .length hAt hCurrent ‹_›
    · cases (by omega : len = 0)
      exact .noPayload hAt hCurrent
  · cases h
    split
    · exact .tooLongLate ‹_› ‹_›
    · exact .tooLong ‹_› (Bool.not_eq_true _ ▸ ‹_›)
  · obtain ⟨i, hCurrent, rfl⟩ := Option.map_eq_some_iff.mp h
    exact .response ‹_› hCurrent
  · obtain ⟨i, hCurrent, rfl⟩ := Option.map_eq_some_iff.mp h
    exact .finished ‹_› hCurrent
  · cases h

inductive Happened (s : ServiceServerLink ρ) : Label ρ → ServiceServerLink ρ → Prop
  | call (req : ρ) : Happened s (.call req) (s.begin req)
  | wakeUp {i : Nat} (hAt : s.caller i = .blocked) : Happened s (.wakeUp i) (s.setCaller i .wait)
  | onHeaderWritten : Happened s .onHeaderWritten { s with headerWritten := true }
  | receiveHeader {size : Nat} (hasMd5sum : Bool) (hLive : s.dropped = false) (hIdle : s.reader = .idle)
      (hRead : s.readCallback = some (.onHeader, size)) :
      Happened s (.receiveHeader hasMd5sum)
        { s with readCallback := none, reader := if hasMd5sum then .header else .idle }
  | receiveLength {size : Nat} (hLive : s.dropped = false) (hIdle : s.reader = .idle)
      (hRead : s.readCallback = some (.onResponseOkAndLength, size)) (hSize : size ≤ s.incoming.length) :
      Happened s .receive
        ({ s with readCallback := none, incoming := s.incoming.drop size }.onResponseOkAndLength
          (s.incoming.take size))
  | receivePayload {size : Nat} (hLive : s.dropped = false) (hIdle : s.reader = .idle)
      (hRead : s.readCallback = some (.onResponse, size)) (hSize : size ≤ s.incoming.length) :
      Happened s .receive
        { s with readCallback := none, incoming := s.incoming.drop size, reader := .response (s.incoming.take size) }
  | transmit {request : Request ρ} (hLive : s.dropped = false) (hFirst : s.requestWritten = false)
      (hWrite : s.writeBuffer = some request) :
      Happened s .transmit
        { s with
          writeBuffer := none
          requestWritten := true
          unanswered := s.unanswered ++ [request]
          sent := s.sent ++ [request] }
  | onRequestWritten (hWritten : s.requestWritten = true) :
      Happened s .onRequestWritten { s.read .onResponseOkAndLength 5 with requestWritten := false }
  | answer {request : Request ρ} {rest : List (Request ρ)} (response : Response)
      (hRequest : s.unanswered = request :: rest) :
      Happened s (.answer response)
        { s with
          unanswered := rest
          incoming := s.incoming ++ response.bytes
          answered := s.answered ++ [(request, response)] }
  | drop (hLive : s.dropped = false) : Happened s .drop (s.beginDrop none)

inductive Moved (s : ServiceServerLink ρ) : Label ρ → ServiceServerLink ρ → Prop
  | lock {t : Thread} (hLocks : s.locksQueue t = true) (hFree : s.callQueueMutex = none) :
      Moved s (.lock t) { s with callQueueMutex := some t }
  | lockFinished {t : Thread} {i : Nat} (hLocks : s.locksFinished t = some i) :
      Moved s (.lockFinished t) { s with finishedMutex := Function.update s.finishedMutex i (some t) }
  | process {t : Thread} {p : Processing ρ} {next : ServiceServerLink ρ} (hReady : s.ready t)
      (hAt : s.processing t = some p) (hNext : Processed s t p next) : Moved s (.act t) (next.unlock t)
  | call {i : Nat} {next : ServiceServerLink ρ} (hReady : s.ready (.caller i)) (hNext : Called s i next) :
      Moved s (.act (.caller i)) (next.unlock (.caller i))
  | callBack {next : ServiceServerLink ρ} (hReady : s.ready .reader) (hNext : CalledBack s next) :
      Moved s (.act .reader) (next.unlock .reader)
  | clear {next : ServiceServerLink ρ} (hReady : s.ready .dropper) (hNext : s.dropStep = some next) :
      Moved s (.act .dropper) next
  | happen {a : Label ρ} {next : ServiceServerLink ρ} (hNext : Happened s a next) : Moved s a next

theorem moved_of_act {s s' : ServiceServerLink ρ} {t : Thread} (h : s.act t = some s') : Moved s (.act t) s' := by
  unfold ServiceServerLink.act at h
  split at h
  · rename_i hReady
    split at h
    · exact .clear hReady h
    · obtain ⟨next, hNext, rfl⟩ := Option.map_eq_some_iff.mp h
      exact .process hReady ‹_› (processed_of_processNextCall hNext)
    · obtain ⟨next, hNext, rfl⟩ := Option.map_eq_some_iff.mp h
      exact .call hReady (called_of_callStep hNext)
    · obtain ⟨next, hNext, rfl⟩ := Option.map_eq_some_iff.mp h
      exact .callBack hReady (calledBack_of_readerStep hNext)
  · cases h

theorem happened_of_receive {s s' : ServiceServerLink ρ} (h : s.receive = some s') : Happened s .receive s' := by
  rw [ServiceServerLink.receive] at h
  split at h
  · split at h
    · simp only at h
      split at h
      · cases h
        exact .receiveLength ‹_› ‹_› ‹_› ‹_›
      · cases h
        exact .receivePayload ‹_› ‹_› ‹_› ‹_›
      · cases h
    · cases h
  · cases h

theorem moved_of_step {s s' : ServiceServerLink ρ} {a : Label ρ} (h : step s a = some s') : Moved s a s' := by
  cases a with
  | call req =>
    cases h
    exact .happen (.call req)
  | lock t =>
    simp only [step, ServiceServerLink.lock] at h
    split at h
    · rename_i hLock
      cases h
      exact .lock hLock.1 hLock.2
    · cases h
  | lockFinished t =>
    simp only [step, ServiceServerLink.lockFinished] at h
    split at h
    · split at h
      · cases h
        exact .lockFinished ‹_›
      · cases h
    · cases h
  | act t => exact moved_of_act h
  | wakeUp i =>
    simp only [step] at h
    split at h
    · rename_i hAt
      cases h
      apply Moved.happen
      apply Happened.wakeUp
      revert hAt
      cases s.caller i <;> simp
    · cases h
  | onHeaderWritten =>
    cases h
    exact .happen .onHeaderWritten
  | receiveHeader hasMd5sum =>
    simp only [step, ServiceServerLink.receiveHeader] at h
    split at h
    · cases h
      exact .happen (.receiveHeader hasMd5sum ‹_› ‹_› ‹_›)
    · cases h
  | receive => exact .happen (happened_of_receive h)
  | transmit =>
    simp only [step, ServiceServerLink.transmit] at h
    split at h
    · cases h
      exact .happen (.transmit ‹_› ‹_› ‹_›)
    · cases h
  | onRequestWritten =>
    simp only [step, ServiceServerLink.onRequestWritten] at h
    split at h
    · cases h
      exact .happen (.onRequestWritten ‹_›)
    · cases h
  | answer response =>
    simp only [step, ServiceServerLink.answer] at h
    split at h
    · cases h
      exact .happen (.answer response ‹_›)
    · cases h
  | drop =>
    simp only [step] at h
    split at h
    · cases h
    · cases h
      exact .happen (.drop (Bool.not_eq_true _ ▸ ‹_›))

end XcRos.Libros.Service
