import XcRos.Rpc.ClientIntegrity

/-! # Asynchronous calls

A client whose call was started by `executeNonBlock` and whose socket the server's dispatcher
watches. The caller learns of the end through `executeCheckDone`, which asks for the state alone.
-/

namespace XcRos.Rpc

open XcRos.Foundation

namespace Client

/-- `executeNonBlock`; the flag `_executing` is cleared on every return. -/
def executeNonBlock [DoubleText] (c : Client) (methodName : Bytes) (params : Value) (connect : ConnectResult) :
    Bool × Client :=
  if c.executing then (false, c)
  else
    let r := (ClientSession.startCall c).setupConnection connect
    if r.1 then (true, { r.2.generateRequest methodName params with executing := false })
    else (false, { r.2 with executing := false })

/-- `executeCheckDone`: whether the call is over, its result if it has one, and the client. -/
def executeCheckDone [DoubleText] (c : Client) : Bool × Option Value × Client :=
  if c.connectionState = .noConnection then (true, none, c)
  else if c.connectionState ≠ .idle then (false, none, c)
  else
    let r := c.parseResponse
    (true, r.1, { r.2 with response := [] })

def awaited (c : Client) : Option EventType :=
  match c.connectionState with
  | .writeRequest => some .writableEvent
  | .readHeader | .readResponse => some .readableEvent
  | .noConnection | .connecting | .idle => none

end Client

def Mask.contains (m : Mask) : EventType → Bool
  | .readableEvent => m.readable
  | .writableEvent => m.writable
  | .exception => m.exception

/-- The flags that `poll` returns for one descriptor. -/
structure PollFlags where
  pollin : Bool
  pollout : Bool
  pollerr : Bool
  pollhup : Bool
  pollpri : Bool
  pollnval : Bool
deriving DecidableEq, Repr

/-- `POLLIN_CHK`, `POLLOUT_CHK` and `POLLEX_CHK` -/
def PollFlags.checked (revents : PollFlags) : Mask where
  readable := revents.pollin || revents.pollhup || revents.pollerr
  writable := revents.pollout || revents.pollerr
  exception := revents.pollpri || revents.pollnval

structure AsyncCall where
  client : Client
  /-- the mask under which the server's dispatcher watches the client, if it does -/
  registered : Option Mask
  pass : Option Pass
deriving DecidableEq, Repr

/-- One step of the server's thread; each carries what the kernel and the peer decide. -/
inductive AsyncStep where
  | poll (revents : PollFlags)
  | handle (io : ClientIo)
  | endPass
  | pollFailed
  | check
deriving DecidableEq, Repr

namespace AsyncCall

/-- The end of a pass of `work` for the client, with the conjunction of the masks returned. -/
def endPass (s : AsyncCall) (newMask : Mask) : AsyncCall :=
  match s.registered with
  | none => { s with pass := none }
  | some _ =>
    if newMask = .none then ⟨if s.client.keepOpen then s.client else s.client.close, none, none⟩
    else if newMask = .all then { s with pass := none }
    else ⟨s.client, some newMask, none⟩

def step [DoubleText] (s : AsyncCall) : AsyncStep → Option AsyncCall
  | .poll revents =>
    match s.pass, s.registered with
    | none, some mask => some { s with pass := some ⟨Mask.answered mask revents.checked, .all⟩ }
    | _, _ => none
  | .handle io =>
    match s.pass with
    | some ⟨eventType :: pending, newMask⟩ =>
      let r := s.client.handleEvent eventType io
      some { s with client := r.2, pass := some ⟨pending, newMask.inter r.1⟩ }
    | _ => none
  | .endPass =>
    match s.pass with
    | some ⟨[], newMask⟩ => some (s.endPass newMask)
    | _ => none
  | .pollFailed =>
    match s.pass with
    | none => some s
    | some _ => none
  | .check =>
    match s.pass with
    | none => some { s with client := s.client.executeCheckDone.2.2 }
    | some _ => none

end AsyncCall

/-- All asynchronous calls, by whatever client, from the call of `addToDispatch` on. -/
def asyncMachine [DoubleText] : Machine AsyncCall AsyncStep where
  Init s := ∃ c methodName params connect, (Client.executeNonBlock c methodName params connect).1 = true ∧
    s = ⟨(c.executeNonBlock methodName params connect).2, some .writableOrException, none⟩
  step := AsyncCall.step

/-- The dispatcher watches for the event that the call waits for, or the call counts as done. -/
def NotStuck [DoubleText] (s : AsyncCall) : Prop :=
  (∃ mask eventType, s.registered = some mask ∧ s.client.awaited = some eventType ∧
      mask.contains eventType = true) ∨
    s.client.executeCheckDone.1 = true

def AsyncCall.exceptionNext (s : AsyncCall) : Bool :=
  match s.pass with
  | some ⟨.exception :: _, _⟩ => true
  | _ => false

def exceptionEndsCall (s : AsyncCall) : AsyncStep → Prop
  | .handle _ =>
    s.exceptionNext = true →
      s.client.keepOpen = false ∨ s.client.connectionState = .noConnection ∨ s.client.connectionState = .idle
  | .poll _ | .endPass | .pollFailed | .check => True

instance (s : AsyncCall) : (a : AsyncStep) → Decidable (exceptionEndsCall s a)
  | .handle _ => inferInstanceAs (Decidable (_ → _))
  | .poll _ | .endPass | .pollFailed | .check => inferInstanceAs (Decidable True)

/-! ## What one event does -/

namespace Client

def Waiting (c : Client) : Prop :=
  c.connectionState = .writeRequest ∨ c.connectionState = .readHeader ∨ c.connectionState = .readResponse

def Ended (c : Client) : Prop := c.connectionState = .noConnection ∨ c.connectionState = .idle

theorem executeCheckDone_iff [DoubleText] (c : Client) : c.executeCheckDone.1 = true ↔ c.Ended := by
  rw [executeCheckDone, Ended]
  split
  · rename_i hNone
    simp [hNone]
  · split <;> simp_all

theorem parseResponse_connectionState [DoubleText] (c : Client) :
    c.parseResponse.2.connectionState = c.connectionState := by
  rw [parseResponse]
  split
  · rfl
  · split <;> rfl

theorem executeCheckDone_connectionState [DoubleText] (c : Client) :
    c.executeCheckDone.2.2.connectionState = c.connectionState := by
  rw [executeCheckDone]
  split
  · rfl
  · split
    · rfl
    · exact parseResponse_connectionState c

theorem doConnect_failed {c : Client} {connect : ConnectResult} (hState : c.connectionState = .noConnection)
    (h : ¬ (c.doConnect connect).1 = true) : (c.doConnect connect).2.connectionState = .noConnection := by
  cases connect with
  | noSocket => exact hState
  | blocking | refused => exact close_connectionState _
  | connected => exact absurd rfl h

theorem openConnection_state (c : Client) (connect : ConnectResult) :
    (c.openConnection connect).2.connectionState =
      if (c.openConnection connect).1 then .writeRequest else .noConnection := by
  rw [openConnection]
  split
  · rename_i hNone
    simp only
    split
    · rfl
    · rename_i hFailed
      exact doConnect_failed hNone hFailed
  · rfl

theorem setupConnection_state (c : Client) (connect : ConnectResult) :
    (c.setupConnection connect).2.connectionState =
      if (c.setupConnection connect).1 then .writeRequest else .noConnection := by
  rw [setupConnection]
  exact openConnection_state _ connect

/-- A helper of `handleEvent` goes on waiting when it returns true and has ended the call otherwise. -/
def Decided (r : Bool × Client) : Prop := (r.1 = true → r.2.Waiting) ∧ (r.1 = false → r.2.Ended)

theorem decided_close (c : Client) : Decided (false, c.close) :=
  ⟨fun h => (by cases h), fun _ => .inl (close_connectionState c)⟩

theorem decided_waiting {c : Client} (h : c.Waiting) : Decided (true, c) :=
  ⟨fun _ => h, fun h => (by cases h)⟩

theorem decided_idle {c : Client} (h : c.connectionState = .idle) : Decided (false, c) :=
  ⟨fun h => (by cases h), fun _ => .inr h⟩

theorem writeRequest_decided {c : Client} (h : c.Waiting) (writes : List WriteResult) :
    Decided (c.writeRequest writes) := by
  rw [writeRequest]
  simp only
  split
  · exact decided_close _
  · split
    · exact decided_waiting (.inr (.inl rfl))
    · exact decided_waiting h

theorem reconnect_decided (c : Client) (connect : ConnectResult) : Decided (c.reconnect connect) where
  left hOk := .inl ((setupConnection_state _ connect).trans (if_pos hOk))
  right hFailed := .inl ((setupConnection_state _ connect).trans (if_neg (Bool.not_eq_true _ ▸ hFailed)))

theorem scanResponseHeader_decided {c : Client} (h : c.Waiting) : Decided c.scanResponseHeader := by
  rw [scanResponseHeader]
  simp only
  split
  · split
    · exact decided_close c
    · exact decided_waiting h
  · split
    · exact decided_close c
    · split
      · exact decided_close _
      · exact decided_waiting (.inr (.inr rfl))

theorem readHeader_decided {c : Client} (h : c.Waiting) (reads : List ReadResult) (connect : ConnectResult) :
    Decided (c.readHeader reads connect) := by
  rw [readHeader]
  simp only
  split
  · split
    · split
      · exact reconnect_decided _ connect
      · exact decided_close _
    · exact decided_close _
  · exact scanResponseHeader_decided h

theorem readResponse_decided {c : Client} (h : c.Waiting) (reads : List ReadResult) :
    Decided (c.readResponse reads) := by
  rw [readResponse]
  split
  · simp only
    split
    · exact decided_close _
    · split
      · split
        · exact decided_close _
        · exact decided_waiting h
      · exact decided_idle rfl
  · exact decided_idle rfl

/-- The mask returned stops the watching of an ended call, and names the event a waiting one needs. -/
def InStep (r : Mask × Client) : Prop := r.1 = .none ∧ r.2.Ended ∨ r.1 = r.2.wanted ∧ r.2.Waiting

theorem stage_inStep {inState : Client → Prop} [DecidablePred inState] {helper : Client → Bool × Client}
    {rest : Client → Mask × Client} {c : Client} (hHelper : Decided (helper c))
    (hRest : ∀ next, next.Waiting → InStep (rest next)) (h : c.Waiting) :
    InStep (stage inState helper rest c) := by
  rw [stage]
  split
  · simp only
    split
    · rename_i hOk
      exact hRest _ (hHelper.1 hOk)
    · rename_i hFailed
      exact .inl ⟨rfl, hHelper.2 (Bool.not_eq_true _ ▸ hFailed)⟩
  · exact hRest c h

theorem handleEvent_inStep {c : Client} (h : c.Waiting) {eventType : EventType} (hEvent : eventType ≠ .exception)
    (io : ClientIo) : InStep (c.handleEvent eventType io) := by
  rw [handleEvent, if_neg hEvent]
  refine stage_inStep (writeRequest_decided h _) (fun next hNext => ?_) h
  refine stage_inStep (readHeader_decided hNext _ _) (fun after hAfter => ?_) hNext
  refine stage_inStep (readResponse_decided hAfter _) (fun last hLast => ?_) hAfter
  exact .inr ⟨rfl, hLast⟩

theorem wanted_ne_none (c : Client) : c.wanted ≠ .none := by
  rw [wanted]
  split <;> decide

theorem wanted_ne_all (c : Client) : c.wanted ≠ .all := by
  rw [wanted]
  split <;> decide

/-- The mask asks for what the client waits for, and not for the other kind of transfer. -/
def Watched (c : Client) (mask : Mask) : Prop :=
  c.Waiting ∧ mask.readable = c.wanted.readable ∧ mask.writable = c.wanted.writable

theorem Watched.notStuck {c : Client} {mask : Mask} (h : c.Watched mask) :
    ∃ eventType, c.awaited = some eventType ∧ mask.contains eventType = true := by
  obtain ⟨hState | hState | hState, hReadable, hWritable⟩ := h
  · exact ⟨.writableEvent, by rw [awaited, hState], by simp [Mask.contains, hWritable, wanted, hState,
      Mask.writableEvent]⟩
  · exact ⟨.readableEvent, by rw [awaited, hState], by simp [Mask.contains, hReadable, wanted, hState,
      Mask.readableEvent]⟩
  · exact ⟨.readableEvent, by rw [awaited, hState], by simp [Mask.contains, hReadable, wanted, hState,
      Mask.readableEvent]⟩

theorem Watched.answered {c : Client} {mask : Mask} (h : c.Watched mask) (revents : Mask) :
    ∀ eventType ∈ (Mask.answered mask revents).tail, eventType = .exception := by
  have hOne : (mask.readable && mask.writable) = false := by
    rw [h.2.1, h.2.2, wanted]
    split <;> rfl
  obtain ⟨readable, writable, exception⟩ := mask
  obtain ⟨canRead, canWrite, oob⟩ := revents
  clear h
  revert readable writable exception canRead canWrite oob
  decide

end Client

namespace AsyncCall

open Client

/-- Inside a pass: nothing was handled yet, or the call was given up, or it goes on. Exceptions come last. -/
inductive PassSound (s : AsyncCall) : Pass → Prop
  | untouched {mask : Mask} {pending : List EventType} (hMask : s.registered = some mask)
      (hWatched : s.client.Watched mask) (hTail : ∀ eventType ∈ pending.tail, eventType = .exception) :
      PassSound s ⟨pending, .all⟩
  | givenUp {mask : Mask} {pending : List EventType} (hMask : s.registered = some mask)
      (hEnd : s.client.keepOpen = false ∨ s.client.Ended)
      (hPending : ∀ eventType ∈ pending, eventType = .exception) : PassSound s ⟨pending, .none⟩
  | goesOn {mask : Mask} {pending : List EventType} (hMask : s.registered = some mask)
      (hWaiting : s.client.Waiting) (hPending : ∀ eventType ∈ pending, eventType = .exception) :
      PassSound s ⟨pending, s.client.wanted⟩

def Settled (s : AsyncCall) : Prop :=
  (∃ mask, s.registered = some mask ∧ s.client.Watched mask) ∨ s.registered = none ∧ s.client.Ended

def Sound (s : AsyncCall) : Prop :=
  match s.pass with
  | none => s.Settled
  | some pass => s.PassSound pass

theorem Settled.notStuck [DoubleText] {s : AsyncCall} (h : s.Settled) : NotStuck s := by
  rcases h with ⟨mask, hMask, hWatched⟩ | ⟨-, hEnded⟩
  · obtain ⟨eventType, hAwaited, hContains⟩ := hWatched.notStuck
    exact .inl ⟨mask, eventType, hMask, hAwaited, hContains⟩
  · exact .inr ((executeCheckDone_iff s.client).mpr hEnded)

theorem exception_sound {s : AsyncCall} {mask : Mask} {pending : List EventType} (hMask : s.registered = some mask)
    (hEnd : s.client.keepOpen = false ∨ s.client.Ended) (hPending : ∀ eventType ∈ pending, eventType = .exception)
    (io : ClientIo) (newMask : Mask) :
    let r := s.client.handleEvent .exception io
    PassSound { s with client := r.2, pass := some ⟨pending, newMask.inter r.1⟩ } ⟨pending, newMask.inter r.1⟩ := by
  have hNone : newMask.inter .none = .none := by simp [Mask.inter, Mask.none]
  simp only [handleEvent, if_pos, hNone]
  exact .givenUp hMask hEnd hPending

theorem handle_sound {s : AsyncCall} {eventType : EventType} {pending : List EventType} {newMask : Mask}
    (h : s.PassSound ⟨eventType :: pending, newMask⟩) (io : ClientIo)
    (hOk : eventType = .exception → s.client.keepOpen = false ∨ s.client.Ended) :
    let r := s.client.handleEvent eventType io
    PassSound { s with client := r.2, pass := some ⟨pending, newMask.inter r.1⟩ } ⟨pending, newMask.inter r.1⟩ := by
  cases h with
  | untouched hMask hWatched hTail =>
    by_cases hEvent : eventType = .exception
    · subst hEvent
      exact exception_sound hMask (hOk rfl) hTail io .all
    · have hAll : ∀ m : Mask, Mask.inter .all m = m := fun m => by simp [Mask.inter, Mask.all]
      simp only [hAll]
      have hInStep := handleEvent_inStep hWatched.1 hEvent io
      rcases hInStep with ⟨hReturned, hEnded⟩ | ⟨hReturned, hWaiting⟩
      · rw [hReturned]
        exact .givenUp hMask (.inr hEnded) hTail
      · rw [hReturned]
        exact .goesOn hMask hWaiting hTail
  | givenUp hMask hEnd hPending =>
    obtain rfl := hPending eventType List.mem_cons_self
    exact exception_sound hMask hEnd (fun e he => hPending e (List.mem_cons_of_mem _ he)) io .none
  | goesOn hMask hWaiting hPending =>
    obtain rfl := hPending eventType List.mem_cons_self
    exact exception_sound hMask (hOk rfl) (fun e he => hPending e (List.mem_cons_of_mem _ he)) io _

theorem endPass_settled {s : AsyncCall} {newMask : Mask} (h : s.PassSound ⟨[], newMask⟩) :
    (s.endPass newMask).pass = none ∧ (s.endPass newMask).Settled := by
  cases h with
  | untouched hMask hWatched hTail =>
    have hSame : s.endPass .all = { s with pass := none } := by
      rw [endPass]
      split <;> rfl
    rw [hSame]
    exact ⟨rfl, .inl ⟨_, hMask, hWatched⟩⟩
  | givenUp hMask hEnd hPending =>
    simp only [endPass, hMask, if_pos]
    refine ⟨trivial, .inr ⟨rfl, ?_⟩⟩
    simp only
    split
    · rename_i hKeep
      exact hEnd.resolve_left (by simp [hKeep])
    · exact .inl (close_connectionState _)
  | goesOn hMask hWaiting hPending =>
    simp only [endPass, hMask, if_neg (wanted_ne_none s.client), if_neg (wanted_ne_all s.client)]
    exact ⟨trivial, .inl ⟨_, rfl, hWaiting, rfl, rfl⟩⟩

theorem check_settled [DoubleText] {s : AsyncCall} (h : s.Settled) :
    Settled { s with client := s.client.executeCheckDone.2.2 } := by
  have hState := executeCheckDone_connectionState s.client
  rcases h with ⟨mask, hMask, hWaiting, hReadable, hWritable⟩ | ⟨hMask, hEnded⟩
  · refine .inl ⟨mask, hMask, ?_⟩
    simp only [Watched, Waiting, wanted, hState]
    exact ⟨hWaiting, hReadable, hWritable⟩
  · refine .inr ⟨hMask, ?_⟩
    simp only [Ended, hState]
    exact hEnded

theorem step_sound [DoubleText] {s s' : AsyncCall} {a : AsyncStep} (h : s.Sound) (hOk : exceptionEndsCall s a)
    (hStep : s.step a = some s') : s'.Sound := by
  cases a with
  | poll revents =>
    simp only [step] at hStep
    split at hStep
    · rename_i mask hPass hMask
      cases hStep
      simp only [Sound, hPass] at h
      rcases h with ⟨mask', hMask', hWatched⟩ | ⟨hMask', -⟩
      · obtain rfl : mask = mask' := Option.some.inj (hMask.symm.trans hMask')
        exact .untouched hMask hWatched (hWatched.answered revents.checked)
      · exact absurd (hMask'.symm.trans hMask) (by simp)
    · cases hStep
  | handle io =>
    simp only [step] at hStep
    split at hStep
    · rename_i eventType pending newMask hPass
      cases hStep
      simp only [Sound, hPass] at h
      refine handle_sound h io fun hEvent => ?_
      exact hOk (by rw [exceptionNext, hPass, hEvent])
    · cases hStep
  | endPass =>
    simp only [step] at hStep
    split at hStep
    · rename_i newMask hPass
      cases hStep
      simp only [Sound, hPass] at h
      obtain ⟨hNone, hSettled⟩ := endPass_settled h
      simp only [Sound, hNone]
      exact hSettled
    · cases hStep
  | pollFailed =>
    simp only [step] at hStep
    split at hStep
    · cases hStep
      exact h
    · cases hStep
  | check =>
    simp only [step] at hStep
    split at hStep
    · rename_i hPass
      cases hStep
      simp only [Sound, hPass] at h ⊢
      exact check_settled h
    · cases hStep

theorem init_sound [DoubleText] {s : AsyncCall} (h : asyncMachine.Init s) : s.Sound := by
  obtain ⟨c, methodName, params, connect, hStarted, rfl⟩ := h
  refine .inl ⟨_, rfl, ?_⟩
  simp only [executeNonBlock] at hStarted ⊢
  split at hStarted
  · cases hStarted
  · rename_i hFree
    split at hStarted
    · rename_i hSetUp
      have hState := (setupConnection_state (ClientSession.startCall c) connect).trans (if_pos hSetUp)
      simp only [if_neg hFree, if_pos hSetUp, Watched, Waiting, wanted, generateRequest, hState]
      exact ⟨.inl trivial, rfl, rfl⟩
    · cases hStarted

end AsyncCall

/-- As long as an exception event never meets a call in progress on a client that is kept open, at the
end of every pass the dispatcher watches for what the call waits for, or the call counts as done. -/
theorem async_call_watched [DoubleText] {s : AsyncCall} (h : asyncMachine.ReachableWhen exceptionEndsCall s)
    (hPass : s.pass = none) : NotStuck s := by
  have hSound : s.Sound := h.invariant AsyncCall.Sound (fun _ => AsyncCall.init_sound)
    fun _ _ _ hSound hOk hStep => AsyncCall.step_sound hSound hOk hStep
  simp only [AsyncCall.Sound, hPass] at hSound
  exact hSound.notStuck

/-- A call to `m` on a new client, and the dispatcher that watches it. -/
def startedAsync : AsyncCall :=
  ⟨(@Client.executeNonBlock noDoubles (.new (bytes "h") 80 none) (bytes "m") .invalid .connected).2,
    some .writableOrException, none⟩

theorem startedAsync_init : (@asyncMachine noDoubles).Init startedAsync :=
  ⟨.new (bytes "h") 80 none, bytes "m", .invalid, .connected, by decide, rfl⟩

def writable : PollFlags := ⟨false, true, false, false, false, false⟩

def writtenAsync : List AsyncStep :=
  [.poll writable, .handle ⟨[.wrote 999], [.nonFatalError], .connected, []⟩, .endPass]

theorem async_call_watched_written :
    ∃ s, (@asyncMachine noDoubles).run startedAsync writtenAsync = some s ∧ @NotStuck noDoubles s := by
  let s := ((@asyncMachine noDoubles).run startedAsync writtenAsync).get (by decide +kernel)
  have hRun : (@asyncMachine noDoubles).runWhen exceptionEndsCall startedAsync writtenAsync = some s := by
    decide +kernel
  have hReach : (@asyncMachine noDoubles).ReachableWhen exceptionEndsCall s := .runWhen (.init startedAsync_init) hRun
  exact ⟨s, (Option.some_get _).symm, @async_call_watched noDoubles s hReach (by decide +kernel)⟩

theorem exception_strands [DoubleText] {s : AsyncCall} {mask newMask : Mask}
    (hPass : s.pass = some ⟨[.exception], newMask⟩) (hMask : s.registered = some mask)
    (hKeep : s.client.keepOpen = true) (hWaiting : s.client.Waiting) (io : ClientIo) :
    ∃ s', asyncMachine.run s [.handle io, .endPass] = some s' ∧ s'.pass = none ∧ ¬ NotStuck s' := by
  have hNone : newMask.inter .none = .none := by simp [Mask.inter, Mask.none]
  refine ⟨⟨s.client, none, none⟩, ?_, rfl, ?_⟩
  · simp [Machine.run, asyncMachine, AsyncCall.step, AsyncCall.endPass, Client.handleEvent, hPass, hMask, hNone,
      hKeep]
  · rintro (⟨mask, eventType, hNoMask, -⟩ | hDone)
    · cases hNoMask
    · rw [Client.executeCheckDone_iff] at hDone
      rcases hWaiting with hState | hState | hState <;> rcases hDone with hEnd | hEnd <;>
        exact absurd (hState.symm.trans hEnd) (by decide)

/-- Out-of-band data in the first pass: the dispatcher drops the client, whose state stays as it is. -/
theorem async_call_dropped_by_exception :
    ∃ s, (@asyncMachine noDoubles).Reachable s ∧ s.pass = none ∧ ¬ @NotStuck noDoubles s := by
  let polled : AsyncCall := { startedAsync with pass := some ⟨[.exception], .all⟩ }
  have hPolled : (@asyncMachine noDoubles).Reachable polled :=
    .step (a := AsyncStep.poll ⟨false, false, false, false, true, false⟩) (.init startedAsync_init) trivial rfl
  obtain ⟨s, hRun, hPass, hStuck⟩ := @exception_strands noDoubles polled .writableOrException .all rfl rfl rfl
    (.inl rfl) ⟨[], [], .connected, []⟩
  exact ⟨s, .run hPolled hRun, hPass, hStuck⟩

end XcRos.Rpc
