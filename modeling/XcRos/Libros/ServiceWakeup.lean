import XcRos.Libros.ServiceOrder

/-! # No call is left waiting

Whoever queues a call either starts it or leaves it to somebody who will look at the queue. A caller
that finds `header_written_` unset leaves its call to the reader, which will look at the queue only if
it has not yet received the header.
-/

namespace XcRos.Libros.Service

open XcRos.Foundation

variable {ρ : Type}

/-- The part of `onHeaderReceived` before `header_read_` is set, if a call had been queued. -/
def ReaderPc.ofHeader : ReaderPc ρ → Prop
  | .header | .headerProcess _ | .headerEnd => True
  | _ => False

/-- The reader while `header_read_` is unset. -/
def EarlyReader (s : ServiceServerLink ρ) : Prop :=
  match s.reader with
  | .idle | .header => s.currentCall = none
  | .headerProcess .take => s.callQueue ≠ []
  | .headerProcess .fetch | .headerProcess (.send _) | .headerEnd => s.currentCall ≠ none
  | _ => False

def LookedAfter (s : ServiceServerLink ρ) : Prop :=
  s.currentCall ≠ none ∨ (∃ t, s.processing t = some .take) ∨
    s.headerRead = false ∧ (s.reader = .idle ∨ s.reader = .header)

structure Attended (s : ServiceServerLink ρ) : Prop where
  callers : s.headerRead = false → ∀ i, s.processing (.caller i) = none
  early : s.headerRead = false → EarlyReader s
  late : s.headerRead = true → ¬ s.reader.ofHeader
  duty : s.callQueue ≠ [] → LookedAfter s

/-- A call that is queued now is started neither by its caller nor by anybody else: the reader is done
with the header, which has not been written, and nobody is in `processNextCall`. -/
def Unattended (s : ServiceServerLink ρ) : Prop :=
  s.headerRead = true ∧ s.headerWritten = false ∧ s.callQueue = [] ∧ s.currentCall = none ∧
    s.processing .reader ≠ some .take ∧ ∀ i < s.calls, s.processing (.caller i) ≠ some .take

def attends (s : ServiceServerLink ρ) (a : Label ρ) : Prop :=
  (∃ i < s.calls, a = .act (.caller i) ∧ s.caller i = .push) → ¬ Unattended s

instance [DecidableEq ρ] (s : ServiceServerLink ρ) (a : Label ρ) : Decidable (attends s a) :=
  inferInstanceAs
    (Decidable ((∃ i < s.calls, a = .act (.caller i) ∧ s.caller i = .push) →
      ¬ (s.headerRead = true ∧ s.headerWritten = false ∧ s.callQueue = [] ∧ s.currentCall = none ∧
        s.processing .reader ≠ some .take ∧ ∀ i < s.calls, s.processing (.caller i) ≠ some .take)))

/-! ## Steps -/

theorem Attended.of_processing {s : ServiceServerLink ρ} (h : Attended s) (hRead : s.headerRead = false) {t : Thread}
    {p : Processing ρ} (hAt : s.processing t = some p) : t = .reader ∧ s.reader = .headerProcess p := by
  cases t with
  | caller i =>
    rw [h.callers hRead i] at hAt
    cases hAt
  | reader =>
    refine ⟨rfl, ?_⟩
    have hEarly := h.early hRead
    simp only [ServiceServerLink.processing] at hAt
    split at hAt
    · cases hAt
      assumption
    · rename_i hReader
      rw [EarlyReader, hReader] at hEarly
      exact hEarly.elim
    · cases hAt
  | dropper => cases hAt

theorem ofHeader_proceed {s : ServiceServerLink ρ} {t : Thread} {p : Processing ρ} (hAt : s.processing t = some p)
    (hLate : ¬ s.reader.ofHeader) (next : Option (Processing ρ)) : ¬ (s.proceed t next).reader.ofHeader := by
  cases t with
  | caller i => exact hLate
  | reader =>
    simp only [ServiceServerLink.processing] at hAt
    split at hAt
    · rename_i hReader
      rw [hReader] at hLate
      exact absurd trivial hLate
    · rename_i hReader
      cases next <;> simp [ServiceServerLink.proceed, hReader, ReaderPc.ofHeader]
    · cases hAt
  | dropper => cases hAt

theorem Attended.proceed {s : ServiceServerLink ρ} (h : Attended s) {t : Thread} {p : Processing ρ}
    (hAt : s.processing t = some p) (next : Option (Processing ρ)) {s' : ServiceServerLink ρ}
    (hCaller : s'.caller = (s.proceed t next).caller) (hReader : s'.reader = (s.proceed t next).reader)
    (hRead : s'.headerRead = s.headerRead) (hCurrent : s'.currentCall ≠ none)
    (hNext : next = none ∨ next = some .fetch ∨ ∃ request, next = some (.send request)) : Attended s' where
  callers hUnread i := by
    obtain ⟨rfl, _⟩ := h.of_processing (hRead ▸ hUnread) hAt
    simpa [ServiceServerLink.processing, hCaller, ServiceServerLink.proceed] using h.callers (hRead ▸ hUnread) i
  early hUnread := by
    obtain ⟨rfl, hHeader⟩ := h.of_processing (hRead ▸ hUnread) hAt
    simp only [EarlyReader, hReader, ServiceServerLink.proceed, hHeader]
    obtain rfl | rfl | ⟨request, rfl⟩ := hNext
    · exact hCurrent
    · exact hCurrent
    · exact hCurrent
  late hLate := by
    rw [hReader]
    exact ofHeader_proceed hAt (h.late (hRead ▸ hLate)) next
  duty _ := .inl hCurrent

theorem Attended.processed {s next : ServiceServerLink ρ} {stage : Stage ρ} (h : Attended s) (hLive : Live s stage)
    {t : Thread} {p : Processing ρ} (hAt : s.processing t = some p) (hNext : Processed s t p next)
    (hDropped : next.dropped = false) : Attended next := by
  cases hNext with
  | busy hBusy => exact h.proceed hAt none rfl rfl rfl (Option.isSome_iff_ne_none.mp hBusy) (.inl rfl)
  | taken => exact h.proceed hAt (some .fetch) rfl rfl rfl nofun (.inr (.inl rfl))
  | empty _ hQueue =>
    have hReader : s.headerRead = false → False := by
      intro hUnread
      have hEarly := h.early hUnread
      rw [EarlyReader, (h.of_processing hUnread hAt).2] at hEarly
      exact hEarly hQueue
    exact
      { callers := fun hUnread => (hReader hUnread).elim
        early := fun hUnread => (hReader hUnread).elim
        late := fun hLate => ofHeader_proceed hAt (h.late hLate) _
        duty := fun hSome => absurd hQueue hSome }
  | fetched hCurrent =>
    have hSome : s.currentCall ≠ none := by simp [hCurrent]
    exact h.proceed hAt _ rfl rfl rfl hSome (.inr (.inr ⟨_, rfl⟩))
  | sent request =>
    have hCarried : stage.carrying t = some (some request) :=
      (congrFun hLive.stands.carrying t).symm.trans (carrying_of_processing hAt)
    have hSome : s.currentCall ≠ none := by
      rw [hLive.stands.currentCall]
      obtain ⟨_, _, hHeld⟩ | ⟨held, rfl, _⟩ := carrying_stage hCarried
      · cases hHeld
      · exact nofun
    exact h.proceed hAt none rfl rfl rfl hSome (.inl rfl)
  | late hLater =>
    have hNot : s.dropped = false := hDropped
    rw [hNot] at hLater
    cases hLater
  | dropped => cases hDropped
  | cleared hDone =>
    rw [hLive.whole] at hDone
    cases hDone

theorem Attended.setCaller {s : ServiceServerLink ρ} (h : Attended s) {s' : ServiceServerLink ρ} (i : Nat)
    (pc : CallerPc ρ) (hOld : ∀ p, s.caller i ≠ .process p) (hNew : ∀ p, pc ≠ .process p)
    (hCaller : s'.caller = Function.update s.caller i pc) (hReader : s'.reader = s.reader)
    (hRead : s'.headerRead = s.headerRead) (hCurrent : s'.currentCall = s.currentCall)
    (hQueue : s'.callQueue = s.callQueue) : Attended s' := by
  have hSame : s'.processing = s.processing := by
    funext u
    cases u with
    | caller j =>
      by_cases hj : j = i
      · subst hj
        have hLater : s'.caller j = pc := by rw [hCaller, Function.update_self]
        have hNone : s'.processing (.caller j) = none := by simp only [ServiceServerLink.processing, hLater]
        have hNoneBefore : s.processing (.caller j) = none := by simp only [ServiceServerLink.processing]
        rw [hNone, hNoneBefore]
      · simp [ServiceServerLink.processing, hCaller, Function.update_of_ne hj]
    | reader => simp [ServiceServerLink.processing, hReader]
    | dropper => rfl
  constructor
  · rw [hRead, hSame]
    exact h.callers
  · rw [hRead]
    simp only [EarlyReader, hReader, hCurrent, hQueue]
    exact h.early
  · rw [hRead, hReader]
    exact h.late
  · simp only [LookedAfter, hQueue, hCurrent, hSame, hRead, hReader]
    exact h.duty

theorem Attended.queued {s : ServiceServerLink ρ} (h : Attended s) {i : Nat}
    (hAt : s.caller i = .push) (hAttended : ¬ Unattended s) :
    Attended ({ s with callQueue := s.callQueue ++ [i], queued := s.queued ++ [i] }.setCaller i
      (if s.callQueue.isEmpty && s.headerWritten && s.headerRead then .process .take else .wait)) := by
  have hOther : ∀ pc j, j ≠ i → (s.setCaller i pc).processing (.caller j) = s.processing (.caller j) := by
    intro pc j hj
    simp [ServiceServerLink.processing, ServiceServerLink.setCaller, hj]
  split
  · rename_i hImmediate
    have hRead : s.headerRead = true := (Bool.and_eq_true_iff.mp hImmediate).2
    constructor
    · intro hUnread
      cases hRead.symm.trans hUnread
    · intro hUnread
      cases hRead.symm.trans hUnread
    · exact h.late
    · intro _
      right
      left
      exact ⟨.caller i, by simp [ServiceServerLink.processing, ServiceServerLink.setCaller]⟩
  · rename_i hLater
    have hSelf : s.processing (.caller i) = none := by simp [ServiceServerLink.processing, hAt]
    have hSame : (s.setCaller i .wait).processing = s.processing := by
      funext u
      cases u with
      | caller j =>
        by_cases hj : j = i
        · subst hj
          rw [hSelf]
          simp [ServiceServerLink.processing, ServiceServerLink.setCaller]
        · exact hOther .wait j hj
      | reader => rfl
      | dropper => rfl
    have hAfter : LookedAfter s →
        LookedAfter ({ s with callQueue := s.callQueue ++ [i], queued := s.queued ++ [i] }.setCaller i .wait) := by
      rintro (hCurrent | ⟨t, hTake⟩ | hEarly)
      · exact .inl hCurrent
      · exact .inr (.inl ⟨t, (congrFun hSame t).trans hTake⟩)
      · exact .inr (.inr hEarly)
    constructor
    · intro hUnread j
      exact (congrFun hSame (.caller j)).trans (h.callers hUnread j)
    · intro hUnread
      have hEarly := h.early hUnread
      simp only [EarlyReader, ServiceServerLink.setCaller] at hEarly ⊢
      split at hEarly
      all_goals first | exact hEarly | exact hEarly.elim | simp
    · exact h.late
    · intro _
      apply hAfter
      by_cases hQueue : s.callQueue = []
      · cases hRead : s.headerRead with
        | true =>
          by_contra hNobody
          have hWritten : s.headerWritten = false := by
            by_contra hSet
            rw [Bool.not_eq_false] at hSet
            exact hLater (by simp [hQueue, hSet, hRead])
          apply hAttended
          refine ⟨hRead, hWritten, hQueue, ?_, ?_, ?_⟩
          · by_contra hCurrent
            exact hNobody (.inl hCurrent)
          · intro hTake
            exact hNobody (.inr (.inl ⟨_, hTake⟩))
          · intro j _ hTake
            exact hNobody (.inr (.inl ⟨_, hTake⟩))
        | false =>
          have hEarly := h.early hRead
          rw [EarlyReader] at hEarly
          split at hEarly
          · exact .inr (.inr ⟨hRead, .inl ‹_›⟩)
          · exact .inr (.inr ⟨hRead, .inr ‹_›⟩)
          · exact absurd hQueue hEarly
          · exact .inl hEarly
          · exact .inl hEarly
          · exact .inl hEarly
          · exact hEarly.elim
      · exact h.duty hQueue

theorem Attended.called {s next : ServiceServerLink ρ} (h : Attended s) {i : Nat} (hNext : Called s i next)
    (hAttended : s.caller i = .push → ¬ Unattended s) : Attended next := by
  cases hNext with
  | refused hAt => exact h.setCaller i (.returned false) (by simp [hAt]) nofun rfl rfl rfl rfl rfl
  | queued hAt => exact h.queued hAt (hAttended hAt)
  | checked hAt =>
    refine h.setCaller i _ (by simp [hAt]) ?_ rfl rfl rfl rfl rfl
    split <;> exact nofun
  | left hAt =>
    exact h.setCaller i (.returned (s.info i).success) (by simp [hAt]) nofun rfl rfl rfl rfl rfl

theorem Attended.answering {s : ServiceServerLink ρ} (h : Attended s) (hEarly : ¬ EarlyReader s)
    {s' : ServiceServerLink ρ} (hRead : s'.headerRead = s.headerRead) (hReader : ¬ s'.reader.ofHeader)
    (hAfter : s'.currentCall ≠ none ∨ s'.reader = .process .take) : Attended s' where
  callers hUnread := (hEarly (h.early (hRead ▸ hUnread))).elim
  early hUnread := (hEarly (h.early (hRead ▸ hUnread))).elim
  late _ := hReader
  duty _ := by
    obtain hCurrent | hTake := hAfter
    · exact .inl hCurrent
    · exact .inr (.inl ⟨.reader, by simp [ServiceServerLink.processing, hTake]⟩)

theorem Attended.calledBack {s next : ServiceServerLink ρ} (h : Attended s) (hNext : CalledBack s next)
    (hDropped : next.dropped = false) : Attended next := by
  have hUnread : s.reader.ofHeader → s.headerRead = false := by
    intro hHeader
    by_contra hRead
    rw [Bool.not_eq_false] at hRead
    exact h.late hRead hHeader
  cases hNext with
  | headerEmpty _ hQueue => exact ⟨(by simp), (by simp), fun _ => id, fun hSome => absurd hQueue hSome⟩
  | headerQueued hAt hQueue =>
    have hFalse := hUnread (by simp [hAt, ReaderPc.ofHeader])
    exact
      { callers := fun _ => h.callers hFalse
        early := fun _ => hQueue
        late := fun hRead => by
          cases hFalse.symm.trans hRead
        duty := fun _ => .inr (.inl ⟨.reader, rfl⟩) }
  | headerEnd hAt =>
    have hEarly := h.early (hUnread (by simp [hAt, ReaderPc.ofHeader]))
    rw [EarlyReader, hAt] at hEarly
    exact ⟨(by simp), (by simp), fun _ => id, fun _ => .inl hEarly⟩
  | length hAt hCurrent =>
    refine h.answering (by simp [EarlyReader, hAt]) rfl id (.inl ?_)
    simp [ServiceServerLink.read, ServiceServerLink.setInfo, hCurrent]
  | noPayload hAt hCurrent =>
    refine h.answering (by simp [EarlyReader, hAt]) rfl id (.inl ?_)
    simp [ServiceServerLink.setInfo, hCurrent]
  | tooLongLate _ hLater =>
    have hNot : s.dropped = false := hDropped
    rw [hNot] at hLater
    cases hLater
  | tooLong => cases hDropped
  | response hAt hCurrent =>
    refine h.answering (by simp [EarlyReader, hAt]) rfl id (.inl ?_)
    simp [ServiceServerLink.setInfo, hCurrent]
  | finished hAt => exact h.answering (by simp [EarlyReader, hAt]) rfl id (.inr rfl)

theorem Attended.same {s s' : ServiceServerLink ρ} (h : Attended s) (hCaller : s'.caller = s.caller)
    (hReader : s'.reader = s.reader) (hRead : s'.headerRead = s.headerRead)
    (hCurrent : s'.currentCall = s.currentCall) (hQueue : s'.callQueue = s.callQueue) : Attended s' := by
  have hSame : s'.processing = s.processing := by
    funext u
    cases u <;> simp [ServiceServerLink.processing, hCaller, hReader]
  constructor
  · rw [hRead, hSame]
    exact h.callers
  · rw [hRead]
    simp only [EarlyReader, hReader, hCurrent, hQueue]
    exact h.early
  · rw [hRead, hReader]
    exact h.late
  · simp only [LookedAfter, hQueue, hCurrent, hSame, hRead, hReader]
    exact h.duty

theorem Attended.happened {s next : ServiceServerLink ρ} {stage : Stage ρ} {a : Label ρ} (h : Attended s)
    (hLive : Live s stage) (hNext : Happened s a next) (hDropped : next.dropped = false) : Attended next := by
  cases hNext with
  | call req =>
    have hAbsent := hLive.books.fresh s.calls (Nat.le_refl _)
    exact h.setCaller s.calls .push (by simp [hAbsent]) (by simp) rfl rfl rfl rfl rfl
  | @wakeUp i hAt => exact h.setCaller i .wait (by simp [hAt]) (by simp) rfl rfl rfl rfl rfl
  | onHeaderWritten => exact h.same rfl rfl rfl rfl rfl
  | receiveHeader hasMd5sum _ hIdle hRead =>
    cases hLive.stands.header_of_read hRead
    have hUnread : s.headerRead = false := (hLive.stands.waiting rfl).1
    have hCurrent : s.currentCall = none := hLive.stands.currentCall
    exact
      { callers := fun _ => h.callers hUnread
        early := fun _ => by
          cases hasMd5sum
          · exact hCurrent
          · exact hCurrent
        late := fun hLate => by
          cases hUnread.symm.trans hLate
        duty := fun _ => by
          cases hasMd5sum
          · exact .inr (.inr ⟨hUnread, .inl rfl⟩)
          · exact .inr (.inr ⟨hUnread, .inr rfl⟩) }
  | receiveLength _ hIdle hRead =>
    have hSome := hLive.stands.current_of_read hRead (by simp)
    refine h.answering (by simpa [EarlyReader, hIdle] using hSome) rfl ?_ (.inl hSome)
    simp only [ServiceServerLink.onResponseOkAndLength]
    split <;> exact id
  | receivePayload _ hIdle hRead =>
    have hSome := hLive.stands.current_of_read hRead (by simp)
    exact h.answering (by simpa [EarlyReader, hIdle] using hSome) rfl id (.inl hSome)
  | transmit => exact h.same rfl rfl rfl rfl rfl
  | onRequestWritten => exact h.same rfl rfl rfl rfl rfl
  | answer => exact h.same rfl rfl rfl rfl rfl
  | drop => cases hDropped

/-! ## Whole runs -/

theorem attended_start (persistent : Bool) (req : ρ) : Attended (start persistent req) where
  callers _ _ := rfl
  early _ := rfl
  late := nofun
  duty hSome := absurd rfl hSome

theorem attended_of_reachable {s : ServiceServerLink ρ} (hReach : (system ρ).ReachableWhen attends s)
    (hLive : s.dropped = false) : Attended s := by
  induction hReach with
  | init hInit =>
    obtain ⟨persistent, req, rfl⟩ := hInit
    exact attended_start persistent req
  | @step s s' a hReach hOk hStep ih =>
    have hMoved := moved_of_step hStep
    have hBefore : s.dropped = false := by
      by_contra hDropped
      rw [Bool.not_eq_false] at hDropped
      rw [dropped_mono hMoved hDropped] at hLive
      cases hLive
    obtain ⟨stage, hStage⟩ := exists_live hReach hBefore
    have h := ih hBefore
    cases hMoved with
    | lock => exact h.same rfl rfl rfl rfl rfl
    | lockFinished => exact h.same rfl rfl rfl rfl rfl
    | process _ hAt hNext => exact (h.processed hStage hAt hNext hLive).same rfl rfl rfl rfl rfl
    | @call i next _ hNext =>
      have hAttended : s.caller i = .push → ¬ Unattended s := by
        intro hPush
        refine hOk ⟨i, hStage.books.begun ?_, rfl, hPush⟩
        rw [hPush]
        exact nofun
      exact (h.called hNext hAttended).same rfl rfl rfl rfl rfl
    | callBack _ hNext => exact (h.calledBack hNext hLive).same rfl rfl rfl rfl rfl
    | clear _ hNext =>
      rw [ServiceServerLink.dropStep, hStage.whole] at hNext
      cases hNext
    | happen hNext => exact h.happened hStage hNext hLive

/-- The headers have been exchanged and nobody is in the middle of anything. -/
def Quiet (s : ServiceServerLink ρ) : Prop :=
  s.headerWritten = true ∧ s.headerRead = true ∧ s.reader = .idle ∧ s.requestWritten = false ∧
    s.writeBuffer = none ∧ ∀ i, s.processing (.caller i) = none

def InFlight (s : ServiceServerLink ρ) : Prop :=
  ∃ request ∈ s.sent, s.currentCall = some request.call ∧
    ∃ callback size, s.readCallback = some (callback, size) ∧ callback ≠ .onHeader

theorem Live.inFlight {s : ServiceServerLink ρ} {stage : Stage ρ} (h : Live s stage) (hQuiet : Quiet s)
    (hCurrent : s.currentCall ≠ none) : InFlight s := by
  obtain ⟨_, _, hReader, hWritten, hWrite, hCallers⟩ := hQuiet
  have hNobody : ∀ t, stage.carrying t = none := by
    intro t
    rw [← h.stands.carrying]
    cases t with
    | caller i => simp [ServiceServerLink.carrying, hCallers]
    | reader => simp [ServiceServerLink.carrying, ServiceServerLink.processing, hReader]
    | dropper => rfl
  have hIdle : stage.reader = none := h.stands.of_answering hReader
  have hPending : stage.requestWritten = false := h.stands.requestWritten.symm.trans hWritten
  have hBuffer : stage.writeBuffer = none := h.stands.writeBuffer.symm.trans hWrite
  rw [h.stands.currentCall] at hCurrent
  cases stage with
  | header => exact absurd rfl hCurrent
  | idle => exact absurd rfl hCurrent
  | fetching i t =>
    have := hNobody t
    simp [Stage.carrying] at this
  | sending request t =>
    have := hNobody t
    simp [Stage.carrying] at this
  | writing => cases hBuffer
  | asked request written =>
    cases hPending
    refine ⟨request, ?_, h.stands.currentCall, _, _, h.stands.readCallback, (by simp)⟩
    rw [h.books.sent, h.stands.unanswered]
    exact List.mem_append_right _ List.mem_cons_self
  | answered request response written =>
    cases hPending
    refine ⟨request, ?_, h.stands.currentCall, _, _, h.stands.readCallback, (by simp)⟩
    rw [h.books.sent]
    exact List.mem_append_left _ (List.mem_map.mpr ⟨_, h.books.sound.2, rfl⟩)
  | payload request response =>
    refine ⟨request, ?_, h.stands.currentCall, _, _, h.stands.readCallback, (by simp)⟩
    rw [h.books.sent]
    exact List.mem_append_left _ (List.mem_map.mpr ⟨_, h.books.sound.2.1, rfl⟩)
  | length => cases hIdle
  | tooLong => cases hIdle
  | store => cases hIdle
  | finish => cases hIdle

/-- If no call is queued while it is unattended, then a call that waits while the link is quiet waits
for a response that is being read. -/
theorem inFlight_of_attended {s : ServiceServerLink ρ} (hReach : (system ρ).ReachableWhen attends s)
    (hLive : s.dropped = false) (hQuiet : Quiet s) (hCall : s.callQueue ≠ [] ∨ s.currentCall ≠ none) :
    InFlight s := by
  obtain ⟨stage, h⟩ := exists_live hReach hLive
  apply h.inFlight hQuiet
  obtain hQueue | hCurrent := hCall
  · obtain ⟨_, hRead, hReader, _, _, hCallers⟩ := hQuiet
    obtain hCurrent | ⟨t, hTake⟩ | ⟨hUnread, _⟩ := (attended_of_reachable hReach hLive).duty hQueue
    · exact hCurrent
    · cases t with
      | caller i =>
        rw [hCallers i] at hTake
        cases hTake
      | reader =>
        simp only [ServiceServerLink.processing, hReader] at hTake
        cases hTake
      | dropper => cases hTake
    · rw [hRead] at hUnread
      cases hUnread
  · exact hCurrent

def oneCall : List (Label Nat) :=
  [.onHeaderWritten, .call 7, .lock (.caller 0), .act (.caller 0), .receiveHeader true,
    .lock .reader, .act .reader, .lock .reader, .act .reader, .lock .reader, .act .reader, .act .reader,
    .act .reader, .transmit, .onRequestWritten, .lockFinished (.caller 0), .act (.caller 0)]

def duringOneCall : ServiceServerLink Nat :=
  ((system Nat).runWhen attends (start true 0) oneCall).getD (start true 0)

theorem inFlight_of_attended_sample : duringOneCall.caller 0 = .blocked ∧ InFlight duringOneCall := by
  have hRun : (system Nat).runWhen attends (start true 0) oneCall = some duringOneCall := rfl
  have hReach : (system Nat).ReachableWhen attends duringOneCall := .runWhen (.init ⟨true, 0, rfl⟩) hRun
  refine ⟨rfl, inFlight_of_attended hReach rfl ⟨rfl, rfl, rfl, rfl, rfl, fun i => ?_⟩ (.inr nofun)⟩
  cases i <;> rfl

def betweenHeaders : List (Label Nat) :=
  [.receiveHeader true, .lock .reader, .act .reader, .call 7, .lock (.caller 0), .act (.caller 0),
    .lockFinished (.caller 0), .act (.caller 0), .onHeaderWritten]

def lostCall : ServiceServerLink Nat := ((system Nat).run (start true 0) betweenHeaders).getD (start true 0)

/-- The caller is blocked, the headers have been exchanged, and there is nothing left to happen. -/
theorem call_lost :
    (system Nat).Reachable lostCall ∧ lostCall.dropped = false ∧ Quiet lostCall ∧ lostCall.callQueue = [0] ∧
      lostCall.caller 0 = .blocked ∧ ¬ InFlight lostCall := by
  have hRun : (system Nat).run (start true 0) betweenHeaders = some lostCall := rfl
  refine ⟨Machine.Reachable.run (.init ⟨true, 0, rfl⟩) hRun, rfl, ?_, rfl, rfl, ?_⟩
  · refine ⟨rfl, rfl, rfl, rfl, rfl, fun i => ?_⟩
    cases i <;> rfl
  · rintro ⟨request, hSent, _⟩
    cases hSent

end XcRos.Libros.Service
