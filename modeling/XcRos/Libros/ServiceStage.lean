import XcRos.Libros.ServiceServerLink

/-! # The stages of a call

Seen from outside the link is at one `Stage` of one call, and every field of the code that has to do
with a request on its way is a function of the stage. The books of what was queued, sent and answered
then say whose response is being stored.
-/

namespace XcRos.Libros.Service

open XcRos.Foundation

variable {ρ : Type}

/-- How far the link is with a call. A `Bool` says that `onRequestWritten` is still to come. -/
inductive Stage (ρ : Type) where
  | header
  | idle
  | fetching (i : Nat) (t : Thread)
  | sending (request : Request ρ) (t : Thread)
  | writing (request : Request ρ)
  | asked (request : Request ρ) (written : Bool)
  | answered (request : Request ρ) (response : Response) (written : Bool)
  | length (request : Request ρ) (response : Response)
  | tooLong (request : Request ρ) (response : Response)
  | payload (request : Request ρ) (response : Response)
  | store (request : Request ρ) (response : Response)
  | finish (request : Request ρ) (response : Response)

/-- What a thread in `processNextCall` holds of the current call. -/
def Processing.carried : Processing ρ → Option (Option (Request ρ))
  | .fetch => some none
  | .send request => some (some request)
  | _ => none

def ServiceServerLink.carrying (s : ServiceServerLink ρ) (t : Thread) : Option (Option (Request ρ)) :=
  (s.processing t).bind Processing.carried

def ReaderPc.answering : ReaderPc ρ → Option (ReaderPc ρ)
  | .okAndLength ok len => some (.okAndLength ok len)
  | .tooLong => some .tooLong
  | .response buffer => some (.response buffer)
  | .finish => some .finish
  | _ => none

namespace Stage

def call : Stage ρ → Option Nat
  | header | idle => none
  | fetching i _ => some i
  | sending request _ | writing request | asked request _ | answered request _ _ | length request _
  | tooLong request _ | payload request _ | store request _ | finish request _ => some request.call

def carrying : Stage ρ → Thread → Option (Option (Request ρ))
  | fetching _ t => Function.update (fun _ => none) t (some none)
  | sending request t => Function.update (fun _ => none) t (some (some request))
  | _ => fun _ => none

def writeBuffer : Stage ρ → Option (Request ρ)
  | writing request => some request
  | _ => none

def requestWritten : Stage ρ → Bool
  | asked _ written | answered _ _ written => written
  | _ => false

def readCallback : Stage ρ → Option (ReadCallback × Nat)
  | header => some (.onHeader, 4)
  | asked _ false | answered _ _ false => some (.onResponseOkAndLength, 5)
  | payload _ response => some (.onResponse, response.payload.length)
  | _ => none

def unanswered : Stage ρ → List (Request ρ)
  | asked request _ => [request]
  | _ => []

def incoming : Stage ρ → List UInt8
  | answered _ response _ => response.bytes
  | length _ response | tooLong _ response | payload _ response => response.payload
  | _ => []

def reader : Stage ρ → Option (ReaderPc ρ)
  | length _ response => some (.okAndLength response.ok response.payload.length)
  | tooLong _ _ => some .tooLong
  | store _ response => some (.response response.payload)
  | finish _ _ => some .finish
  | _ => none

def unsent : Stage ρ → List Nat
  | fetching i _ => [i]
  | sending request _ | writing request => [request.call]
  | _ => []

end Stage

def Records (info : CallInfo ρ) (response : Response) : Prop :=
  info.success = (response.ok != 0) ∧
    if response.ok != 0 then info.resp = some response.payload else info.exceptionString = response.payload

def Stage.Sound (s : ServiceServerLink ρ) : Stage ρ → Prop
  | header | idle | fetching _ _ => True
  | sending request _ | writing request | asked request _ => (s.info request.call).req = request.data
  | answered request response _ | length request response | tooLong request response =>
    (s.info request.call).req = request.data ∧ (request, response) ∈ s.answered
  | payload request response | store request response =>
    (s.info request.call).req = request.data ∧ (request, response) ∈ s.answered ∧
      (s.info request.call).success = (response.ok != 0)
  | finish request response =>
    (s.info request.call).req = request.data ∧ (request, response) ∈ s.answered ∧
      Records (s.info request.call) response

structure At (s : ServiceServerLink ρ) (stage : Stage ρ) : Prop where
  currentCall : s.currentCall = stage.call
  carrying : s.carrying = stage.carrying
  writeBuffer : s.writeBuffer = stage.writeBuffer
  requestWritten : s.requestWritten = stage.requestWritten
  readCallback : s.readCallback = stage.readCallback
  unanswered : s.unanswered = stage.unanswered
  incoming : s.incoming = stage.incoming
  reader : s.reader.answering = stage.reader
  waiting : stage = .header → s.headerRead = false ∧ s.reader = .idle ∧ ∀ i, s.processing (.caller i) = none

def Settled (s : ServiceServerLink ρ) (i : Nat) : Prop :=
  ∃ response, (⟨i, (s.info i).req⟩, response) ∈ s.answered ∧ Records (s.info i) response

structure Ledger (s : ServiceServerLink ρ) (stage : Stage ρ) : Prop where
  sent : s.sent = s.answered.map Prod.fst ++ s.unanswered
  queued : s.queued = s.sent.map Request.call ++ stage.unsent ++ s.callQueue
  nodup : s.queued.Nodup
  known : ∀ i ∈ s.queued, i < s.calls ∧ s.caller i ≠ .push
  fresh : ∀ i, s.calls ≤ i → s.caller i = .absent
  data : ∀ request ∈ s.sent, (s.info request.call).req = request.data
  sound : stage.Sound s
  settled : ∀ i, (s.info i).finished = true → Settled s i
  unsettled : ∀ i, i ∈ s.callQueue ∨ s.currentCall = some i → (s.info i).finished = false
  current : ∀ request ∈ s.sent, (s.info request.call).finished = true ∨ s.currentCall = some request.call
  left : ∀ i, s.caller i = .leave → (s.info i).finished = true
  returned : ∀ i result, s.caller i = .returned result →
    (s.info i).finished = true ∧ result = (s.info i).success

/-! ## Moving within `processNextCall` -/

theorem processing_proceed {s : ServiceServerLink ρ} {t : Thread} {p : Processing ρ} (h : s.processing t = some p)
    (next : Option (Processing ρ)) :
    (s.proceed t next).processing = Function.update s.processing t next := by
  funext u
  cases t with
  | caller i =>
    cases u with
    | caller j =>
      by_cases hSame : j = i
      · subst hSame
        rw [Function.update_self]
        cases next <;> simp [ServiceServerLink.processing, ServiceServerLink.proceed]
      · rw [Function.update_of_ne (by simpa using hSame)]
        simp [ServiceServerLink.processing, ServiceServerLink.proceed, Function.update_of_ne hSame]
    | reader => rfl
    | dropper => rfl
  | reader =>
    cases u with
    | caller j => rfl
    | reader =>
      rw [Function.update_self]
      simp only [ServiceServerLink.processing] at h
      split at h
      · rename_i q hReader
        cases next <;> simp [ServiceServerLink.processing, ServiceServerLink.proceed, hReader]
      · rename_i q hReader
        cases next <;> simp [ServiceServerLink.processing, ServiceServerLink.proceed, hReader]
      · cases h
    | dropper => rfl
  | dropper => cases h

theorem carrying_proceed {s : ServiceServerLink ρ} {t : Thread} {p : Processing ρ} (h : s.processing t = some p)
    (next : Option (Processing ρ)) :
    (s.proceed t next).carrying = Function.update s.carrying t (next.bind Processing.carried) := by
  funext u
  rw [ServiceServerLink.carrying, processing_proceed h]
  by_cases hSame : u = t
  · rw [hSame, Function.update_self, Function.update_self]
  · rw [Function.update_of_ne hSame, Function.update_of_ne hSame, ServiceServerLink.carrying]

theorem answering_proceed {s : ServiceServerLink ρ} {t : Thread} {p : Processing ρ} (h : s.processing t = some p)
    (next : Option (Processing ρ)) : (s.proceed t next).reader.answering = s.reader.answering := by
  cases t with
  | caller i => rfl
  | reader =>
    simp only [ServiceServerLink.processing] at h
    split at h
    · rename_i q hReader
      cases next <;> simp [ServiceServerLink.proceed, hReader, ReaderPc.answering]
    · rename_i q hReader
      cases next <;> simp [ServiceServerLink.proceed, hReader, ReaderPc.answering]
    · cases h
  | dropper => cases h

def CallerPc.pending : CallerPc ρ → Prop
  | .process _ | .wait | .blocked => True
  | _ => False

def Kept (s s' : ServiceServerLink ρ) : Prop :=
  ∀ i, s'.caller i = s.caller i ∨ s.caller i ≠ .absent ∧ (s'.caller i).pending

theorem kept_refl (s : ServiceServerLink ρ) : Kept s s := fun _ => .inl rfl

theorem kept_update {s s' : ServiceServerLink ρ} (i : Nat) (pc : CallerPc ρ)
    (hCaller : s'.caller = Function.update s.caller i pc) (hBegun : s.caller i ≠ .absent) (hPending : pc.pending) :
    Kept s s' := by
  intro j
  rw [hCaller]
  by_cases hSame : j = i
  · subst hSame
    rw [Function.update_self]
    exact .inr ⟨hBegun, hPending⟩
  · rw [Function.update_of_ne hSame]
    exact .inl rfl

theorem kept_proceed {s : ServiceServerLink ρ} {t : Thread} {p : Processing ρ} (h : s.processing t = some p)
    (next : Option (Processing ρ)) : Kept s (s.proceed t next) := by
  cases t with
  | caller i =>
    apply kept_update i ((next.map .process).getD .wait) rfl
    · intro hAbsent
      simp only [ServiceServerLink.processing, hAbsent] at h
      cases h
    · cases next <;> trivial
  | reader => exact kept_refl s
  | dropper => cases h

namespace Ledger

variable {s s' : ServiceServerLink ρ} {stage stage' : Stage ρ}

theorem begun (h : Ledger s stage) {i : Nat} (hBegun : s.caller i ≠ .absent) : i < s.calls := by
  by_contra hFresh
  exact hBegun (h.fresh i (Nat.le_of_not_lt hFresh))

theorem kept (h : Ledger s stage) (hKept : Kept s s') (hInfo : s'.info = s.info) (hCalls : s'.calls = s.calls)
    (hCurrent : s'.currentCall = s.currentCall) (hCallQueue : s'.callQueue = s.callQueue)
    (hQueued : s'.queued = s.queued) (hSent : s'.sent = s.sent) (hAnswered : s'.answered = s.answered)
    (hUnanswered : s'.unanswered = s.unanswered) (hUnsent : stage'.unsent = stage.unsent)
    (hSound : stage'.Sound s') : Ledger s' stage' where
  sent := by rw [hSent, hAnswered, hUnanswered, h.sent]
  queued := by rw [hQueued, hSent, hUnsent, hCallQueue, h.queued]
  nodup := hQueued ▸ h.nodup
  known i hi := by
    obtain ⟨hLess, hPast⟩ := h.known i (hQueued ▸ hi)
    refine ⟨hCalls ▸ hLess, fun hPush => ?_⟩
    obtain hSame | ⟨_, hPending⟩ := hKept i
    · exact hPast (hSame ▸ hPush)
    · rw [hPush] at hPending
      exact hPending
  fresh i hi := by
    have hAbsent := h.fresh i (hCalls ▸ hi)
    obtain hSame | ⟨hBegun, _⟩ := hKept i
    · rw [hSame, hAbsent]
    · exact absurd hAbsent hBegun
  data := by
    rw [hSent, hInfo]
    exact h.data
  sound := hSound
  settled i hFinished := by
    rw [hInfo] at hFinished
    obtain ⟨response, hAnswer, hRecords⟩ := h.settled i hFinished
    refine ⟨response, ?_, ?_⟩
    · rwa [hInfo, hAnswered]
    · rwa [hInfo]
  unsettled := by
    rw [hCallQueue, hCurrent, hInfo]
    exact h.unsettled
  current := by
    rw [hSent, hInfo, hCurrent]
    exact h.current
  left i hLeave := by
    obtain hSame | ⟨_, hPending⟩ := hKept i
    · rw [hInfo]
      exact h.left i (hSame ▸ hLeave)
    · rw [hLeave] at hPending
      exact hPending.elim
  returned i result hReturned := by
    obtain hSame | ⟨_, hPending⟩ := hKept i
    · rw [hInfo]
      exact h.returned i result (hSame ▸ hReturned)
    · rw [hReturned] at hPending
      exact hPending.elim

theorem current_mem (h : Ledger s stage) (hAt : At s stage) {i : Nat} (hCurrent : s.currentCall = some i) :
    i ∈ s.queued := by
  have hStage := hAt.currentCall.symm.trans hCurrent
  have hOut : ∀ request ∈ s.sent, request.call ∈ s.queued := by
    intro request hRequest
    rw [h.queued, List.append_assoc]
    exact List.mem_append_left _ (List.mem_map_of_mem hRequest)
  have hIn : ∀ j ∈ stage.unsent, j ∈ s.queued := by
    intro j hj
    rw [h.queued]
    exact List.mem_append_left _ (List.mem_append_right _ hj)
  have hAnswered : ∀ request response, (request, response) ∈ s.answered → request.call ∈ s.queued := by
    intro request response hAnswer
    apply hOut
    rw [h.sent]
    exact List.mem_append_left _ (List.mem_map.mpr ⟨_, hAnswer, rfl⟩)
  have hSound := h.sound
  cases stage with
  | header => cases hStage
  | idle => cases hStage
  | fetching j t =>
    cases hStage
    exact hIn _ List.mem_cons_self
  | sending request t =>
    cases hStage
    exact hIn _ List.mem_cons_self
  | writing request =>
    cases hStage
    exact hIn _ List.mem_cons_self
  | asked request written =>
    cases hStage
    apply hOut
    rw [h.sent, hAt.unanswered]
    exact List.mem_append_right _ List.mem_cons_self
  | answered request response written =>
    cases hStage
    exact hAnswered _ _ hSound.2
  | length request response =>
    cases hStage
    exact hAnswered _ _ hSound.2
  | tooLong request response =>
    cases hStage
    exact hAnswered _ _ hSound.2
  | payload request response =>
    cases hStage
    exact hAnswered _ _ hSound.2.1
  | store request response =>
    cases hStage
    exact hAnswered _ _ hSound.2.1
  | finish request response =>
    cases hStage
    exact hAnswered _ _ hSound.2.1

end Ledger

structure Live (s : ServiceServerLink ρ) (stage : Stage ρ) : Prop where
  stands : At s stage
  books : Ledger s stage
  whole : s.dropper = .absent

theorem Live.unlock {s : ServiceServerLink ρ} {stage : Stage ρ} (h : Live s stage) (t : Thread) :
    Live (s.unlock t) stage where
  stands := { h.stands with }
  books := { h.books with sound := by cases stage <;> exact h.books.sound }
  whole := h.whole

theorem carrying_stage {stage : Stage ρ} {t : Thread} {held : Option (Request ρ)}
    (h : stage.carrying t = some held) :
    (∃ i, stage = .fetching i t ∧ held = none) ∨ ∃ request, stage = .sending request t ∧ held = some request := by
  cases stage with
  | fetching i u =>
    by_cases hSame : t = u
    · subst hSame
      left
      refine ⟨i, rfl, ?_⟩
      simpa [Stage.carrying] using h.symm
    · simp [Stage.carrying, Function.update_of_ne hSame] at h
  | sending request u =>
    by_cases hSame : t = u
    · subst hSame
      right
      refine ⟨request, rfl, ?_⟩
      simpa [Stage.carrying] using h.symm
    · simp [Stage.carrying, Function.update_of_ne hSame] at h
  | _ => cases h

theorem carrying_of_processing {s : ServiceServerLink ρ} {t : Thread} {p : Processing ρ}
    (h : s.processing t = some p) : s.carrying t = p.carried := by
  rw [ServiceServerLink.carrying, h, Option.bind_some]

theorem At.proceed {s : ServiceServerLink ρ} {stage : Stage ρ} (h : At s stage) {t : Thread} {p : Processing ρ}
    (hAt : s.processing t = some p) (hEmpty : p.carried = none) {next : Option (Processing ρ)}
    (hNext : next.bind Processing.carried = none) : At (s.proceed t next) stage where
  currentCall := h.currentCall
  carrying := by
    rw [carrying_proceed hAt, hNext, ← hEmpty, ← carrying_of_processing hAt, Function.update_eq_self]
    exact h.carrying
  writeBuffer := h.writeBuffer
  requestWritten := h.requestWritten
  readCallback := h.readCallback
  unanswered := h.unanswered
  incoming := h.incoming
  reader := (answering_proceed hAt next).trans h.reader
  waiting hHeader := by
    obtain ⟨_, hReader, hCallers⟩ := h.waiting hHeader
    cases t with
    | caller i =>
      rw [hCallers i] at hAt
      cases hAt
    | reader =>
      simp only [ServiceServerLink.processing, hReader] at hAt
      cases hAt
    | dropper => cases hAt

theorem At.idle_of_processing {s : ServiceServerLink ρ} {stage : Stage ρ} (h : At s stage) {t : Thread}
    {p : Processing ρ} (hAt : s.processing t = some p) (hIdle : s.currentCall = none) : stage = .idle := by
  have hStage := h.currentCall.symm.trans hIdle
  cases stage with
  | header =>
    obtain ⟨_, hReader, hCallers⟩ := h.waiting rfl
    cases t with
    | caller i =>
      rw [hCallers i] at hAt
      cases hAt
    | reader =>
      simp only [ServiceServerLink.processing, hReader] at hAt
      cases hAt
    | dropper => cases hAt
  | idle => rfl
  | _ => cases hStage

theorem update_const {α β : Type} [DecidableEq α] {f : α → β} {b : β} (hf : ∀ x, f x = b) (a : α) :
    Function.update f a b = fun _ => b := by
  funext x
  by_cases hSame : x = a
  · rw [hSame, Function.update_self]
  · rw [Function.update_of_ne hSame, hf]

theorem Live.processed {s next : ServiceServerLink ρ} {stage : Stage ρ} (h : Live s stage) {t : Thread}
    {p : Processing ρ} (hAt : s.processing t = some p) (hNext : Processed s t p next)
    (hLive : next.dropped = false) : ∃ stage', Live next stage' := by
  have hKept := kept_proceed hAt
  cases hNext with
  | busy =>
    refine ⟨stage, h.stands.proceed hAt rfl rfl, ?_, h.whole⟩
    exact h.books.kept (hKept none) rfl rfl rfl rfl rfl rfl rfl rfl rfl (by cases stage <;> exact h.books.sound)
  | taken hIdle hQueue =>
    rename_i i rest
    cases h.stands.idle_of_processing hAt hIdle
    refine ⟨.fetching i t, ?_, ?_, h.whole⟩
    · exact
        { h.stands with
          currentCall := rfl
          carrying := by
            refine (carrying_proceed hAt (some .fetch)).trans ?_
            rw [h.stands.carrying]
            rfl
          reader := (answering_proceed hAt (some .fetch)).trans h.stands.reader
          waiting := nofun }
    · have hBooks : Ledger s (.idle : Stage ρ) := h.books
      have hQueued : s.queued = s.sent.map Request.call ++ [i] ++ rest := by
        rw [hBooks.queued, hQueue]
        simp [Stage.unsent]
      have hNotSoon : i ∉ rest := by
        have hNodup := hBooks.nodup
        rw [hQueued, List.append_assoc] at hNodup
        exact (List.nodup_cons.mp (List.nodup_append.mp hNodup).2.1).1
      have hKeptNow : Ledger (s.proceed t (some .fetch)) (.idle : Stage ρ) :=
        hBooks.kept (hKept (some .fetch)) rfl rfl rfl rfl rfl rfl rfl rfl rfl trivial
      exact
        { hKeptNow with
          queued := hQueued
          sound := trivial
          unsettled := by
            rintro j (hj | hj)
            · exact hBooks.unsettled j (.inl (hQueue ▸ List.mem_cons_of_mem i hj))
            · cases hj
              exact hBooks.unsettled i (.inl (hQueue ▸ List.mem_cons_self))
          current := by
            intro request hRequest
            obtain hFinished | hCurrent := hBooks.current request hRequest
            · exact .inl hFinished
            · rw [hIdle] at hCurrent
              cases hCurrent }
  | empty hIdle hQueue =>
    refine ⟨stage, h.stands.proceed hAt rfl ?_, ?_, h.whole⟩
    · split <;> rfl
    · exact h.books.kept (hKept _) rfl rfl rfl rfl rfl rfl rfl rfl rfl (by cases stage <;> exact h.books.sound)
  | fetched hCurrent =>
    rename_i i
    have hCarried : stage.carrying t = some none :=
      (congrFun h.stands.carrying t).symm.trans (carrying_of_processing hAt)
    obtain ⟨j, rfl, _⟩ | ⟨_, _, hHeld⟩ := carrying_stage hCarried
    · cases hCurrent.symm.trans h.stands.currentCall
      refine ⟨.sending ⟨i, (s.info i).req⟩ t, ?_, ?_, h.whole⟩
      · exact
          { h.stands with
            carrying := by
              rw [carrying_proceed hAt, h.stands.carrying]
              exact Function.update_idem ..
            reader := (answering_proceed hAt _).trans h.stands.reader
            waiting := nofun }
      · exact h.books.kept (hKept _) rfl rfl rfl rfl rfl rfl rfl rfl rfl rfl
    · cases hHeld
  | sent request =>
    have hCarried : stage.carrying t = some (some request) :=
      (congrFun h.stands.carrying t).symm.trans (carrying_of_processing hAt)
    obtain ⟨_, _, hHeld⟩ | ⟨held, rfl, hHeld⟩ := carrying_stage hCarried
    · cases hHeld
    · cases hHeld
      have hDropped : s.dropped = false := hLive
      refine ⟨.writing request, ?_, ?_, h.whole⟩
      · exact
          { h.stands with
            carrying := by
              refine (carrying_proceed (s := s.write request) hAt none).trans ?_
              show Function.update s.carrying t none = _
              rw [h.stands.carrying]
              refine (Function.update_idem ..).trans (update_const (fun _ => rfl) t)
            writeBuffer := if_neg (by simp [hDropped])
            reader := (answering_proceed (s := s.write request) hAt none).trans h.stands.reader
            waiting := nofun }
      · exact h.books.kept (kept_proceed (s := s.write request) hAt none) rfl rfl rfl rfl rfl rfl rfl rfl rfl
          h.books.sound
  | late hDropped =>
    have hNot : s.dropped = false := hLive
    rw [hNot] at hDropped
    cases hDropped
  | dropped => cases hLive
  | cleared hDone =>
    rw [h.whole] at hDone
    cases hDone

end XcRos.Libros.Service
