import XcRos.Rpc.Client
import XcRos.Rpc.ValueRoundTrip

/-! # What a call of `execute` puts on the wire

The client as a machine: calls of `execute` one after the other, and inside each the passes of the
dispatcher. `full` is the request as `generateRequest` built it for the current call, while the
client's own `request` shrinks with every partial write.
-/

namespace XcRos.Rpc

open XcRos.Foundation

structure ClientSession where
  client : Client
  pass : Option Pass
  full : Bytes

/-- One step of a session; each carries what the caller, the kernel and the peer decide. -/
inductive ClientStep where
  | execute (methodName : Bytes) (params : Value) (connect : ConnectResult)
  | poll (revents : Mask)
  | handle (io : ClientIo)
  | endPass
  | finish
  | pollFailed

namespace ClientSession

/-- The flags that `execute` sets first; the record of the wires starts anew with the call. -/
def startCall (c : Client) : Client :=
  { c with
    executing := true, sendAttempts := 0, isFault := false
    fd := c.fd.map fun _ => .fresh, closed := [] }

variable [DoubleText]

/-- `execute` up to the dispatcher's loop. -/
def execute (s : ClientSession) (methodName : Bytes) (params : Value) (connect : ConnectResult) :
    ClientSession :=
  let r := (startCall s.client).setupConnection connect
  if r.1 then
    let c := r.2.generateRequest methodName params
    ⟨c, none, c.request⟩
  else ⟨{ r.2 with executing := false }, none, []⟩

/-- The end of a pass of `work`: what becomes of the source under the new mask. -/
def updateMask (c : Client) (newMask : Mask) : Client :=
  match c.mask with
  | none => c
  | some _ =>
    if newMask = .none then
      let c : Client := { c with mask := none }
      if c.keepOpen then c else c.close
    else if newMask = .all then c
    else { c with mask := some newMask }

/-- `execute` from the end of the dispatcher's loop on. -/
def finish (s : ClientSession) : ClientSession :=
  let c := if s.client.connectionState = .idle then s.client.parseResponse.2 else s.client
  { s with client := { c with executing := false } }

def step (s : ClientSession) : ClientStep → Option ClientSession
  | .execute methodName params connect =>
    if s.client.executing then none else some (s.execute methodName params connect)
  | .poll revents =>
    match s.client.executing, s.pass, s.client.mask with
    | true, none, some mask => some { s with pass := some ⟨Mask.answered mask revents, .all⟩ }
    | _, _, _ => none
  | .handle io =>
    match s.pass with
    | some ⟨eventType :: pending, newMask⟩ =>
      let r := s.client.handleEvent eventType io
      some { s with client := r.2, pass := some ⟨pending, newMask.inter r.1⟩ }
    | _ => none
  | .endPass =>
    match s.pass with
    | some ⟨[], newMask⟩ => some { s with client := updateMask s.client newMask, pass := none }
    | _ => none
  | .finish =>
    match s.client.executing, s.pass, s.client.mask with
    | true, none, none => some s.finish
    | _, _, _ => none
  | .pollFailed =>
    match s.client.executing, s.pass with
    | true, none => some s.finish
    | _, _ => none

end ClientSession

def clientMachine [DoubleText] : Machine ClientSession ClientStep where
  Init s := ∃ host port uri, s = ⟨.new host port uri, none, []⟩
  step := ClientSession.step

def Client.wires (c : Client) : List Wire := c.fd.toList ++ c.closed

/-- A connection carried a part from the front, and the whole before its answer was awaited. -/
def Wire.Intact (full : Bytes) (wire : Wire) : Prop :=
  wire.carried <+: full ∧ (wire.reachedHeader = true → wire.carried = full)

/-- Every connection carried the request undamaged, and the one awaiting its header carried it all. -/
def RequestIntact (s : ClientSession) : Prop :=
  (∀ wire ∈ s.client.wires, wire.Intact s.full) ∧
    (s.client.connectionState = .readHeader → s.client.fd.map Wire.carried = some s.full)

instance (full : Bytes) (wire : Wire) : Decidable (wire.Intact full) :=
  inferInstanceAs (Decidable (_ ∧ _))

instance (s : ClientSession) : Decidable (RequestIntact s) :=
  inferInstanceAs (Decidable (_ ∧ _))

/-- The text that `readHeader` starts with during this event, if the event gets that far. -/
def Client.headerAtRead (c : Client) (io : ClientIo) : Option Bytes :=
  match c.connectionState with
  | .writeRequest =>
    if nbWrite c.request c.bytesWritten io.writes = (true, c.request.length) then some [] else none
  | .readHeader => some c.header
  | _ => none

/-- The event makes `readHeader` open the connection anew. -/
def Client.Reconnects (c : Client) (eventType : EventType) (io : ClientIo) : Prop :=
  eventType ≠ .exception ∧ c.keepOpen = true ∧ c.sendAttempts = 0 ∧ io.connect = .connected ∧
    ∃ header, c.headerAtRead io = some header ∧
      ((nbRead header io.headerReads).ok = false ∨ (nbRead header io.headerReads).eof = true) ∧
      (nbRead header io.headerReads).text = []

/-- Whenever the event reconnects, no partial write has shortened the request. -/
def retriesWhole (s : ClientSession) : ClientStep → Prop
  | .handle io =>
    ∀ eventType pending newMask, s.pass = some ⟨eventType :: pending, newMask⟩ →
      s.client.Reconnects eventType io → s.client.request = s.full
  | _ => True

/-! ## The invariant -/

namespace Client

def OpenSound (full : Bytes) (c : Client) : Prop :=
  match c.connectionState with
  | .noConnection => c.fd = none
  | .connecting => False
  | .writeRequest =>
    c.bytesWritten = 0 ∧ ∃ wire, c.fd = some wire ∧ wire.reachedHeader = false ∧ wire.carried ++ c.request = full
  | _ => ∃ wire, c.fd = some wire ∧ wire.carried = full

structure Sound (full : Bytes) (c : Client) : Prop where
  wires : ∀ wire ∈ c.wires, wire.Intact full
  opened : c.OpenSound full

section Close

variable (c : Client)

@[simp] theorem superClose_wires : c.superClose.wires = c.wires := by
  rw [superClose]
  split <;> simp_all [wires]

@[simp] theorem superClose_fd : c.superClose.fd = none := by
  rw [superClose]
  split
  · assumption
  · rfl

@[simp] theorem superClose_request : c.superClose.request = c.request := by
  rw [superClose]
  split <;> rfl

@[simp] theorem close_wires : c.close.wires = c.wires := superClose_wires _

@[simp] theorem close_fd : c.close.fd = none := superClose_fd _

@[simp] theorem close_request : c.close.request = c.request := superClose_request _

@[simp] theorem close_connectionState : c.close.connectionState = .noConnection := by
  rw [close, superClose]
  split <;> rfl

variable {c}

theorem close_sound {full : Bytes} (h : ∀ wire ∈ c.wires, wire.Intact full) : c.close.Sound full where
  wires := by simpa using h
  opened := by simp [OpenSound]

end Close

theorem fresh_intact (full : Bytes) : Wire.fresh.Intact full :=
  ⟨List.nil_prefix, fun h => absurd h (by decide)⟩

theorem mem_wires {c : Client} {wire : Wire} : wire ∈ c.wires ↔ c.fd = some wire ∨ wire ∈ c.closed := by
  simp [wires, Option.mem_toList]

/-- The outcome of `setupConnection`: a connection that carried nothing yet, or none. -/
structure SetUp (full : Bytes) (c : Client) (connect : ConnectResult) (r : Bool × Client) : Prop where
  wires : ∀ wire ∈ r.2.wires, wire.Intact full
  outcome :
    (r.1 = true ∧ r.2.connectionState = .writeRequest ∧ r.2.bytesWritten = 0 ∧ r.2.fd = some .fresh ∧
        r.2.request = c.request ∧ (c.connectionState = .noConnection → connect = .connected)) ∨
      (r.1 = false ∧ r.2.connectionState = .noConnection ∧ r.2.fd = none)

theorem openConnection_setUp (full : Bytes) {c : Client} (hWires : ∀ wire ∈ c.wires, wire.Intact full)
    (hNone : c.connectionState = .noConnection → c.fd = none)
    (hIdle : c.connectionState ≠ .noConnection → c.fd = some .fresh) (connect : ConnectResult) :
    SetUp full c connect (c.openConnection connect) := by
  rw [openConnection]
  split
  · rename_i hState
    have hFresh : ∀ wire ∈ ({ c with fd := some .fresh } : Client).wires, wire.Intact full := by
      intro wire hMem
      rcases mem_wires.mp hMem with h | h
      · cases h
        exact fresh_intact full
      · exact hWires wire (mem_wires.mpr (.inr h))
    cases connect with
    | noSocket => exact ⟨hWires, .inr ⟨rfl, hState, hNone hState⟩⟩
    | blocking | refused =>
      exact ⟨by simpa [doConnect] using hFresh, .inr ⟨rfl, by simp [doConnect], by simp [doConnect]⟩⟩
    | connected => exact ⟨hFresh, .inl ⟨rfl, rfl, rfl, rfl, rfl, fun _ => rfl⟩⟩
  · rename_i hState
    exact ⟨hWires, .inl ⟨rfl, rfl, rfl, hIdle hState, rfl, fun h => absurd h hState⟩⟩

theorem setupConnection_setUp (full : Bytes) {c : Client} (hWires : ∀ wire ∈ c.wires, wire.Intact full)
    (hNone : c.connectionState = .noConnection → c.fd = none)
    (hIdle : c.connectionState = .idle → c.fd = some .fresh) (connect : ConnectResult) :
    SetUp full c connect (c.setupConnection connect) := by
  rw [setupConnection]
  split
  · have hOpen := openConnection_setUp full (c := { c.close with eof := false })
      (by rw [← close_wires] at hWires; exact hWires) (fun _ => close_fd c)
      (fun h => absurd (close_connectionState c) h) connect
    refine ⟨hOpen.wires, ?_⟩
    rcases hOpen.outcome with ⟨hOk, hState, hBytes, hFd, hRequest, hConnect⟩ | hFailed
    · exact .inl ⟨hOk, hState, hBytes, hFd, hRequest.trans (close_request c),
        fun _ => hConnect (close_connectionState c)⟩
    · exact .inr hFailed
  · rename_i hKeep
    simp only [not_or, not_and, ne_eq, not_not] at hKeep
    have hOpen := openConnection_setUp full (c := { c with eof := false }) hWires hNone
      (fun h => hIdle (hKeep.1 h)) connect
    exact ⟨hOpen.wires, hOpen.outcome⟩

theorem SetUp.sound {full : Bytes} {c : Client} {connect : ConnectResult} {r : Bool × Client}
    (h : SetUp full c connect r) (hRequest : r.1 = true → r.2.request = full) : r.2.Sound full := by
  refine ⟨h.wires, ?_⟩
  rcases h.outcome with ⟨hOk, hState, hBytes, hFd, -, -⟩ | ⟨-, hState, hFd⟩
  · simp only [OpenSound, hState]
    exact ⟨hBytes, .fresh, hFd, rfl, hRequest hOk⟩
  · simpa only [OpenSound, hState] using hFd

theorem reconnect_setUp (full : Bytes) {c : Client} (hWires : ∀ wire ∈ c.wires, wire.Intact full)
    (connect : ConnectResult) :
    SetUp full { c with connectionState := .noConnection } connect (c.reconnect connect) := by
  have hSetUp := setupConnection_setUp full
    (c := { c.superClose with connectionState := .noConnection, eof := false })
    (by rw [← superClose_wires] at hWires; exact hWires) (fun _ => superClose_fd c)
    (fun hIdle => by cases hIdle) connect
  refine ⟨hSetUp.wires, ?_⟩
  rcases hSetUp.outcome with ⟨hOk, hState, hBytes, hFd, hRequest, hConnect⟩ | hFailed
  · exact .inl ⟨hOk, hState, hBytes, hFd, hRequest.trans (superClose_request c), fun _ => hConnect rfl⟩
  · exact .inr hFailed

/-! ## The event handler -/

theorem writeRequest_sound {full : Bytes} {c : Client} (h : c.Sound full)
    (hState : c.connectionState = .writeRequest) (writes : List WriteResult) :
    (c.writeRequest writes).2.Sound full := by
  have hOpened := h.opened
  simp only [OpenSound, hState] at hOpened
  obtain ⟨hStart, wire, hFd, hHeader, hFull⟩ := hOpened
  have hBounds := nbWrite_bounds c.request writes 0 (Nat.zero_le _)
  have hPut : written c.request 0 (nbWrite c.request 0 writes).2 =
      c.request.take (nbWrite c.request 0 writes).2 := List.drop_zero
  have hClosed : ∀ w ∈ c.closed, w.Intact full := fun w hw => h.wires w (mem_wires.mpr (.inr hw))
  have hPrefix : wire.carried ++ c.request.take (nbWrite c.request 0 writes).2 <+: full := by
    rw [← hFull]
    exact List.prefix_append_right_inj _ |>.mpr (List.take_prefix _ _)
  simp only [writeRequest, hStart, hFd, hPut, Option.map_some]
  generalize hWritten : nbWrite c.request 0 writes = r at hBounds hPrefix
  split
  · dsimp only
    refine close_sound fun w hw => ?_
    rcases mem_wires.mp hw with hOpen | hOld
    · cases hOpen
      exact ⟨hPrefix, fun hTrue => absurd (hHeader.symm.trans hTrue) (by decide)⟩
    · exact hClosed w hOld
  · split
    · rename_i hAll
      have hWhole : wire.carried ++ c.request.take r.2 = full := by
        rw [hAll, List.take_length, hFull]
      refine ⟨fun w hw => ?_, ⟨_, rfl, hWhole⟩⟩
      rcases mem_wires.mp hw with hOpen | hOld
      · cases hOpen
        exact ⟨hPrefix, fun _ => hWhole⟩
      · exact hClosed w hOld
    · refine ⟨fun w hw => ?_, ?_⟩
      · rcases mem_wires.mp hw with hOpen | hOld
        · cases hOpen
          exact ⟨hPrefix, fun hTrue => absurd (hHeader.symm.trans hTrue) (by decide)⟩
        · exact hClosed w hOld
      · simp only [OpenSound, hState]
        exact ⟨trivial, _, rfl, hHeader, by rw [List.append_assoc, List.take_append_drop, hFull]⟩

theorem writeRequest_state {c : Client} {writes : List WriteResult} (hState : c.connectionState = .writeRequest)
    (hOk : (c.writeRequest writes).1 = true) :
    let next := (c.writeRequest writes).2
    (nbWrite c.request c.bytesWritten writes = (true, c.request.length) ∧ next.connectionState = .readHeader ∧
        next.header = [] ∧ next.request = c.request ∧ next.sendAttempts = c.sendAttempts ∧
        next.keepOpen = c.keepOpen) ∨
      next.connectionState = .writeRequest := by
  simp only [writeRequest] at hOk ⊢
  split at hOk
  · exact absurd hOk (by simp)
  · rename_i hTrue
    split at hOk
    · rename_i hAll
      rw [if_neg hTrue, if_pos hAll]
      exact .inl ⟨Prod.ext (by simpa using hTrue) hAll, rfl, rfl, rfl, rfl, rfl⟩
    · rename_i hPart
      rw [if_neg hTrue, if_neg hPart]
      exact .inr hState

theorem scanResponseHeader_sound {full : Bytes} {c : Client} (h : c.Sound full)
    (hState : c.connectionState = .readHeader) : c.scanResponseHeader.2.Sound full := by
  have hOpened := h.opened
  simp only [OpenSound, hState] at hOpened
  rw [scanResponseHeader]
  split
  · split
    · exact close_sound h.wires
    · exact h
  · split
    · exact close_sound h.wires
    · simp only
      split
      · exact close_sound h.wires
      · exact ⟨h.wires, hOpened⟩

theorem readHeader_sound {full : Bytes} {c : Client} (h : c.Sound full) (hState : c.connectionState = .readHeader)
    {reads : List ReadResult} {connect : ConnectResult}
    (hRetry : c.keepOpen = true → c.sendAttempts = 0 → connect = .connected →
      ((nbRead c.header reads).ok = false ∨ (nbRead c.header reads).eof = true) →
      (nbRead c.header reads).text = [] → c.request = full) :
    (c.readHeader reads connect).2.Sound full := by
  rw [readHeader]
  split
  · rename_i hFailed
    split
    · rename_i hAgain
      obtain ⟨hKeep, hEmpty⟩ := hAgain
      have hText : (nbRead c.header reads).text = [] := List.length_eq_zero_iff.mp hEmpty
      simp only
      split
      · rename_i hFirst
        have hSetUp := reconnect_setUp full (c := { c with
          header := (nbRead c.header reads).text, eof := (nbRead c.header reads).eof,
          sendAttempts := c.sendAttempts + 1 }) h.wires connect
        refine hSetUp.sound fun hOk => ?_
        rcases hSetUp.outcome with ⟨-, -, -, -, hRequest, hConnect⟩ | ⟨hFalse, -, -⟩
        · have hGone : (nbRead c.header reads).ok = false ∨ (nbRead c.header reads).eof = true :=
            hFailed.imp_right And.left
          exact hRequest.trans (hRetry hKeep hFirst (hConnect rfl) hGone hText)
        · exact absurd (hFalse.symm.trans hOk) (by decide)
      · exact close_sound h.wires
    · exact close_sound h.wires
  · exact scanResponseHeader_sound ⟨h.wires, by simpa [OpenSound, hState] using h.opened⟩ hState

theorem readResponse_sound {full : Bytes} {c : Client} (h : c.Sound full)
    (hState : c.connectionState = .readResponse) (reads : List ReadResult) :
    (c.readResponse reads).2.Sound full := by
  have hOpened := h.opened
  simp only [OpenSound, hState] at hOpened
  rw [readResponse]
  split
  · simp only
    split
    · exact close_sound h.wires
    · split
      · split
        · exact close_sound h.wires
        · exact ⟨h.wires, by simpa only [OpenSound, hState] using hOpened⟩
      · exact ⟨h.wires, hOpened⟩
  · exact ⟨h.wires, hOpened⟩

theorem handleEvent_sound {full : Bytes} {c : Client} (h : c.Sound full) {eventType : EventType} {io : ClientIo}
    (hRetry : c.Reconnects eventType io → c.request = full) : (c.handleEvent eventType io).2.Sound full := by
  rw [handleEvent]
  split
  · exact h
  · rename_i hEvent
    refine stage_sound (Sound full) (fun hState => writeRequest_sound h hState io.writes)
      (fun next hNext hFrom => ?_) h
    refine stage_sound (Sound full) (fun hState => ?_) (fun after hAfter _ => ?_) hNext
    · refine readHeader_sound hNext hState fun hKeep hFirst hConnect hGone hText => ?_
      rcases hFrom with ⟨rfl, -⟩ | ⟨hWrite, hOk, rfl⟩
      · exact hRetry ⟨hEvent, hKeep, hFirst, hConnect, next.header, by rw [headerAtRead, hState], hGone, hText⟩
      · rcases writeRequest_state hWrite hOk with ⟨hAll, -, hHeader, hRequest, hAttempts, hOpen⟩ | hWaits
        · rw [hRequest]
          rw [hHeader] at hGone hText
          exact hRetry ⟨hEvent, hOpen ▸ hKeep, hAttempts ▸ hFirst, hConnect, [],
            by rw [headerAtRead, hWrite]; exact if_pos hAll, hGone, hText⟩
        · exact absurd (hWaits.symm.trans hState) (by decide)
    · exact stage_sound (Sound full) (fun hState => readResponse_sound hAfter hState io.responseReads)
        (fun last hLast _ => hLast) hAfter

end Client

namespace ClientSession

variable [DoubleText]

omit [DoubleText] in
theorem startCall_setUp (full : Bytes) {old : Bytes} {c : Client} (h : c.Sound old) (connect : ConnectResult) :
    Client.SetUp full (startCall c) connect ((startCall c).setupConnection connect) := by
  have hOpened := h.opened
  refine Client.setupConnection_setUp full (fun wire hMem => ?_) (fun hState => ?_) (fun hState => ?_) connect
  · rcases Client.mem_wires.mp hMem with hOpen | hOld
    · obtain ⟨_, _, rfl⟩ := Option.map_eq_some_iff.mp hOpen
      exact Client.fresh_intact full
    · cases hOld
  · change c.connectionState = _ at hState
    simp only [Client.OpenSound, hState] at hOpened
    simp [startCall, hOpened]
  · change c.connectionState = _ at hState
    simp only [Client.OpenSound, hState] at hOpened
    obtain ⟨wire, hFd, -⟩ := hOpened
    simp [startCall, hFd]

theorem execute_sound {s : ClientSession} (h : s.client.Sound s.full) (methodName : Bytes) (params : Value)
    (connect : ConnectResult) :
    (s.execute methodName params connect).client.Sound (s.execute methodName params connect).full := by
  rw [execute]
  simp only
  split
  · rename_i hOk
    have hSetUp := startCall_setUp (((startCall s.client).setupConnection connect).2.generateRequest
      methodName params).request h connect
    rcases hSetUp.outcome with ⟨-, hState, hBytes, hFd, -, -⟩ | ⟨hFalse, -, -⟩
    · refine ⟨hSetUp.wires, ?_⟩
      simp only [Client.OpenSound, Client.generateRequest, hState]
      exact ⟨hBytes, .fresh, hFd, rfl, rfl⟩
    · exact absurd (hFalse.symm.trans hOk) (by decide)
  · rename_i hFailed
    have hSound := (startCall_setUp [] h connect).sound fun hOk => absurd hOk hFailed
    exact ⟨hSound.wires, hSound.opened⟩

theorem finish_sound {s : ClientSession} (h : s.client.Sound s.full) : s.finish.client.Sound s.finish.full := by
  have hParsed : s.client.parseResponse.2.Sound s.full := by
    rw [Client.parseResponse]
    split
    · exact h
    · split <;> exact ⟨h.wires, h.opened⟩
  rw [finish]
  simp only
  split
  · exact ⟨hParsed.wires, hParsed.opened⟩
  · exact ⟨h.wires, h.opened⟩

omit [DoubleText] in
theorem updateMask_sound {full : Bytes} {c : Client} (h : c.Sound full) (newMask : Mask) :
    (updateMask c newMask).Sound full := by
  rw [updateMask]
  split
  · exact h
  · split
    · simp only
      split
      · exact ⟨h.wires, h.opened⟩
      · exact Client.close_sound h.wires
    · split <;> exact ⟨h.wires, h.opened⟩

theorem step_sound {s s' : ClientSession} {a : ClientStep} (h : s.client.Sound s.full) (hOk : retriesWhole s a)
    (hStep : s.step a = some s') : s'.client.Sound s'.full := by
  cases a with
  | execute methodName params connect =>
    simp only [step] at hStep
    split at hStep
    · cases hStep
    · cases hStep
      exact execute_sound h methodName params connect
  | poll revents =>
    simp only [step] at hStep
    split at hStep
    · cases hStep
      exact h
    · cases hStep
  | handle io =>
    simp only [step] at hStep
    split at hStep
    · rename_i eventType pending newMask hPass
      cases hStep
      exact Client.handleEvent_sound h fun hAgain => hOk eventType pending newMask hPass hAgain
    · cases hStep
  | endPass =>
    simp only [step] at hStep
    split at hStep
    · cases hStep
      exact updateMask_sound h _
    · cases hStep
  | finish | pollFailed =>
    simp only [step] at hStep
    split at hStep
    · cases hStep
      exact finish_sound h
    · cases hStep

end ClientSession

theorem Client.Sound.intact {s : ClientSession} (h : s.client.Sound s.full) : RequestIntact s := by
  refine ⟨h.wires, fun hState => ?_⟩
  have hOpened := h.opened
  simp only [OpenSound, hState] at hOpened
  obtain ⟨wire, hFd, hWhole⟩ := hOpened
  rw [hFd, Option.map_some, hWhole]

/-- As long as no call reconnects with a request that partial writes have shortened, every
connection carries a part of its request from the front, and the whole before its answer is read. -/
theorem requestIntact_of_retriesWhole [DoubleText] {s : ClientSession}
    (h : clientMachine.ReachableWhen retriesWhole s) : RequestIntact s := by
  refine Client.Sound.intact (h.invariant (fun s => s.client.Sound s.full) ?_ ?_)
  · rintro _ ⟨host, port, uri, rfl⟩
    exact ⟨by simp [Client.wires, Client.new], rfl⟩
  · exact fun s a s' hSound hOk hStep => ClientSession.step_sound hSound hOk hStep

def newSession : ClientSession := ⟨.new (bytes "h") 80 none, none, []⟩

theorem newSession_init [DoubleText] : clientMachine.Init newSession := ⟨_, _, _, rfl⟩

/-- A call to `m` up to the event in which the connection becomes writable. -/
def startedCall : List ClientStep := [.execute (bytes "m") .invalid .connected, .poll .writableEvent]

theorem startedCall_intact :
    ∃ s, (@clientMachine noDoubles).run newSession (startedCall ++ [.handle ⟨[.wrote 999], [], .connected, []⟩]) =
      some s ∧ RequestIntact s := by
  let started := ((@clientMachine noDoubles).run newSession startedCall).get (by decide +kernel)
  have hStarted : (@clientMachine noDoubles).ReachableWhen retriesWhole started :=
    .run (.init (@newSession_init noDoubles)) (by simp [startedCall, retriesWhole]) (Option.some_get _).symm
  have hWhole : retriesWhole started (.handle ⟨[.wrote 999], [], .connected, []⟩) := fun _ _ _ _ _ => rfl
  exact ⟨_, rfl, @requestIntact_of_retriesWhole noDoubles _ (hStarted.step hWhole rfl)⟩

/-- A call to `m` whose request is written in two parts before the server closes the connection; the
connection is set up again and written to. -/
def retriedCall : List ClientStep :=
  startedCall ++ [.handle ⟨[.wrote 9], [], .connected, []⟩, .endPass,
    .poll .writableEvent, .handle ⟨[.wrote 999], [.eof], .connected, []⟩, .endPass,
    .poll .writableEvent, .handle ⟨[.wrote 999], [], .connected, []⟩]

/-- After a partial write the second connection carries only what the first had left over. -/
theorem retriedCall_damaged : ∃ s, (@clientMachine noDoubles).Reachable s ∧ ¬ RequestIntact s := by
  let s := ((@clientMachine noDoubles).run newSession retriedCall).get (by decide +kernel)
  exact ⟨s, .run (.init (@newSession_init noDoubles)) (Option.some_get _).symm, by decide +kernel⟩

end XcRos.Rpc
