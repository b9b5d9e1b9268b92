import XcRos.Libros.ServiceStage

/-! # How the stages follow one another

What the sections of the callers, the callbacks of the connection and the server do to the stage and
to the books.
-/

namespace XcRos.Libros.Service

open XcRos.Foundation

variable {ρ : Type}

/-! ## The sections outside of `processNextCall` -/

theorem carrying_setCaller {s s' : ServiceServerLink ρ} (i : Nat) (pc : CallerPc ρ)
    (hCaller : s'.caller = Function.update s.caller i pc) (hReader : s'.reader = s.reader)
    (hOld : ∀ p, s.caller i = .process p → p.carried = none) (hNew : ∀ p, pc = .process p → p.carried = none) :
    s'.carrying = s.carrying := by
  funext u
  cases u with
  | caller j =>
    by_cases hSame : j = i
    · subst hSame
      have hLater : s'.caller j = pc := by rw [hCaller, Function.update_self]
      have hNone : s'.carrying (.caller j) = none := by
        simp only [ServiceServerLink.carrying, ServiceServerLink.processing, hLater]
        cases pc with
        | process p => exact hNew p rfl
        | _ => rfl
      have hNoneBefore : s.carrying (.caller j) = none := by
        simp only [ServiceServerLink.carrying, ServiceServerLink.processing]
        cases hBefore : s.caller j with
        | process p => exact hOld p hBefore
        | _ => rfl
      rw [hNone, hNoneBefore]
    · simp [ServiceServerLink.carrying, ServiceServerLink.processing, hCaller, Function.update_of_ne hSame]
  | reader => simp [ServiceServerLink.carrying, ServiceServerLink.processing, hReader]
  | dropper => rfl

theorem carrying_setReader {s s' : ServiceServerLink ρ} (hCaller : s'.caller = s.caller)
    (hOld : s.carrying .reader = none) (hNew : s'.carrying .reader = none) : s'.carrying = s.carrying := by
  funext u
  cases u with
  | caller j => simp [ServiceServerLink.carrying, ServiceServerLink.processing, hCaller]
  | reader => rw [hOld, hNew]
  | dropper => rfl

namespace Ledger

variable {s : ServiceServerLink ρ} {stage : Stage ρ}

theorem mem_of_answered (h : Ledger s stage) {request : Request ρ} {response : Response}
    (hAnswer : (request, response) ∈ s.answered) : request.call ∈ s.queued := by
  rw [h.queued, List.append_assoc, h.sent]
  apply List.mem_append_left
  exact List.mem_map_of_mem (List.mem_append_left _ (List.mem_map.mpr ⟨_, hAnswer, rfl⟩))

theorem mem_of_finished (h : Ledger s stage) {i : Nat} (hFinished : (s.info i).finished = true) : i ∈ s.queued := by
  obtain ⟨response, hAnswer, _⟩ := h.settled i hFinished
  exact h.mem_of_answered hAnswer

theorem setInfo (h : Ledger s stage) (i : Nat) {f : CallInfo ρ → CallInfo ρ} {stage' : Stage ρ}
    (hReq : (f (s.info i)).req = (s.info i).req) (hFinished : (f (s.info i)).finished = (s.info i).finished)
    (hRecords : (s.info i).finished = true → (f (s.info i)).success = (s.info i).success ∧
      ∀ response, Records (s.info i) response → Records (f (s.info i)) response)
    (hUnsent : stage'.unsent = stage.unsent) (hSound : stage'.Sound (s.setInfo i f)) :
    Ledger (s.setInfo i f) stage' := by
  have hSameReq : ∀ j, ((s.setInfo i f).info j).req = (s.info j).req := by
    intro j
    by_cases hSame : j = i
    · subst hSame
      simp [ServiceServerLink.setInfo, hReq]
    · simp [ServiceServerLink.setInfo, hSame]
  have hSameFinished : ∀ j, ((s.setInfo i f).info j).finished = (s.info j).finished := by
    intro j
    by_cases hSame : j = i
    · subst hSame
      simp [ServiceServerLink.setInfo, hFinished]
    · simp [ServiceServerLink.setInfo, hSame]
  exact
    { h with
      queued := by
        rw [hUnsent]
        exact h.queued
      data := fun request hRequest => (hSameReq request.call).trans (h.data request hRequest)
      sound := hSound
      settled := by
        intro j hj
        rw [hSameFinished] at hj
        obtain ⟨response, hAnswer, hRecorded⟩ := h.settled j hj
        refine ⟨response, ?_, ?_⟩
        · rw [hSameReq]
          exact hAnswer
        · by_cases hSame : j = i
          · subst hSame
            simpa [ServiceServerLink.setInfo] using (hRecords hj).2 response hRecorded
          · simpa [ServiceServerLink.setInfo, hSame] using hRecorded
      unsettled := fun j hj => (hSameFinished j).trans (h.unsettled j hj)
      current := fun request hRequest =>
        (h.current request hRequest).imp_left (hSameFinished request.call).trans
      left := fun j hj => (hSameFinished j).trans (h.left j hj)
      returned := by
        intro j result hj
        obtain ⟨hDone, hResult⟩ := h.returned j result hj
        refine ⟨(hSameFinished j).trans hDone, ?_⟩
        by_cases hSame : j = i
        · subst hSame
          simpa [ServiceServerLink.setInfo, (hRecords hDone).1] using hResult
        · simpa [ServiceServerLink.setInfo, hSame] using hResult }

theorem setCaller (h : Ledger s stage) {i : Nat} {pc : CallerPc ρ} (hBegun : s.caller i ≠ .absent)
    (hNot : pc ≠ .push) (hLeft : pc = .leave → (s.info i).finished = true)
    (hReturned : ∀ result, pc = .returned result → (s.info i).finished = true ∧ result = (s.info i).success) :
    Ledger (s.setCaller i pc) stage :=
  { h with
    known := by
      intro j hj
      obtain ⟨hLess, hPast⟩ := h.known j hj
      refine ⟨hLess, ?_⟩
      by_cases hSame : j = i
      · subst hSame
        simpa [ServiceServerLink.setCaller] using hNot
      · simpa [ServiceServerLink.setCaller, hSame] using hPast
    fresh := by
      intro j hj
      have hNe : j ≠ i := by
        rintro rfl
        exact hBegun (h.fresh j hj)
      simpa [ServiceServerLink.setCaller, hNe] using h.fresh j hj
    left := by
      intro j hj
      by_cases hSame : j = i
      · subst hSame
        exact hLeft (by simpa [ServiceServerLink.setCaller] using hj)
      · exact h.left j (by simpa [ServiceServerLink.setCaller, hSame] using hj)
    returned := by
      intro j result hj
      by_cases hSame : j = i
      · subst hSame
        exact hReturned result (by simpa [ServiceServerLink.setCaller] using hj)
      · exact h.returned j result (by simpa [ServiceServerLink.setCaller, hSame] using hj)
    sound := by cases stage <;> exact h.sound }

end Ledger

theorem At.setCaller {s : ServiceServerLink ρ} {stage : Stage ρ} (h : At s stage) (i : Nat) (pc : CallerPc ρ)
    (hOld : ∀ p, s.caller i ≠ .process p) (hNew : ∀ p, pc = .process p → p.carried = none ∧ stage ≠ .header) :
    At (s.setCaller i pc) stage :=
  { h with
    carrying := by
      have hSame : (s.setCaller i pc).carrying = s.carrying :=
        carrying_setCaller i pc rfl rfl (fun p hp => absurd hp (hOld p)) fun p hp => (hNew p hp).1
      exact hSame.trans h.carrying
    waiting := by
      intro hHeader
      obtain ⟨hRead, hReader, hCallers⟩ := h.waiting hHeader
      refine ⟨hRead, hReader, fun j => ?_⟩
      by_cases hSame : j = i
      · subst hSame
        simp only [ServiceServerLink.processing, ServiceServerLink.setCaller, Function.update_self]
        cases pc with
        | process p => exact absurd hHeader (hNew p rfl).2
        | _ => rfl
      · simpa [ServiceServerLink.processing, ServiceServerLink.setCaller, hSame] using hCallers j }

theorem Live.called {s next : ServiceServerLink ρ} {stage : Stage ρ} (h : Live s stage) {i : Nat}
    (hNext : Called s i next) (hLive : next.dropped = false) : ∃ stage', Live next stage' := by
  refine ⟨stage, ?_, ?_, ?_⟩
  · cases hNext with
    | refused hAt =>
      have hSet := h.stands.setCaller i (.returned false) (by simp [hAt]) (by simp)
      exact { hSet with }
    | queued hAt =>
      refine { h.stands.setCaller i
        (if s.callQueue.isEmpty && s.headerWritten && s.headerRead then .process .take else .wait) ?_ ?_ with }
      · simp [hAt]
      · intro p hp
        split at hp
        · rename_i hImmediate
          cases hp
          refine ⟨rfl, ?_⟩
          rintro rfl
          rw [(h.stands.waiting rfl).1] at hImmediate
          simp at hImmediate
        · cases hp
    | checked hAt =>
      apply h.stands.setCaller
      · simp [hAt]
      · intro p hp
        split at hp <;> cases hp
    | left hAt =>
      have hSet := h.stands.setCaller i (.returned (s.info i).success) (by simp [hAt]) (by simp)
      exact { hSet with }
  · cases hNext with
    | refused _ hDropped =>
      have hNot : s.dropped = false := hLive
      rw [hNot] at hDropped
      cases hDropped
    | queued hAt =>
      have hBegun : s.caller i ≠ .absent := by simp [hAt]
      have hNew : i ∉ s.queued := fun hMem => (h.books.known i hMem).2 hAt
      have hSet : Ledger (s.setCaller i
          (if s.callQueue.isEmpty && s.headerWritten && s.headerRead then .process .take else .wait)) stage :=
        h.books.kept (kept_update i _ rfl hBegun (by split <;> trivial)) rfl rfl rfl rfl rfl rfl rfl rfl rfl
          (by cases stage <;> exact h.books.sound)
      exact
        { hSet with
          queued := by
            show s.queued ++ [i] = s.sent.map Request.call ++ stage.unsent ++ (s.callQueue ++ [i])
            rw [h.books.queued, List.append_assoc _ s.callQueue]
          nodup := List.nodup_append.mpr ⟨h.books.nodup, List.nodup_singleton i, by
            rintro j hj k hk rfl
            exact hNew (List.mem_singleton.mp hk ▸ hj)⟩
          known := by
            intro j hj
            obtain hMem | hLast := List.mem_append.mp hj
            · exact hSet.known j hMem
            · cases List.mem_singleton.mp hLast
              refine ⟨h.books.begun hBegun, ?_⟩
              simp only [ServiceServerLink.setCaller, Function.update_self]
              split <;> simp
          sound := by cases stage <;> exact h.books.sound
          unsettled := by
            rintro j (hj | hj)
            · obtain hMem | hLast := List.mem_append.mp hj
              · exact h.books.unsettled j (.inl hMem)
              · cases List.mem_singleton.mp hLast
                exact Bool.eq_false_iff.mpr fun hFinished => hNew (h.books.mem_of_finished hFinished)
            · exact h.books.unsettled j (.inr hj) }
    | checked hAt =>
      apply h.books.setCaller
      · simp [hAt]
      · split <;> simp
      · intro hLeave
        split at hLeave
        · assumption
        · cases hLeave
      · intro result hResult
        split at hResult <;> cases hResult
    | left hAt =>
      have hDone := h.books.left i hAt
      have hInfo : Ledger (s.setInfo i fun info => { info with callFinished := true }) stage := by
        refine h.books.setInfo i rfl rfl (fun _ => ⟨rfl, fun _ hRecords => hRecords⟩) rfl ?_
        have hSame : ∀ j, ((s.setInfo i fun info => { info with callFinished := true }).info j).req = (s.info j).req ∧
            ((s.setInfo i fun info => { info with callFinished := true }).info j).success = (s.info j).success ∧
            ∀ response, Records (s.info j) response →
              Records ((s.setInfo i fun info => { info with callFinished := true }).info j) response := by
          intro j
          by_cases hj : j = i
          · subst hj
            simp only [ServiceServerLink.setInfo, Function.update_self]
            exact ⟨trivial, trivial, fun _ hRecords => hRecords⟩
          · simp only [ServiceServerLink.setInfo, Function.update_of_ne hj]
            exact ⟨trivial, trivial, fun _ hRecords => hRecords⟩
        have hSound := h.books.sound
        cases stage with
        | header => trivial
        | idle => trivial
        | fetching => trivial
        | sending | writing | asked => exact (hSame _).1.trans hSound
        | answered | length | tooLong => exact ⟨(hSame _).1.trans hSound.1, hSound.2⟩
        | payload | store =>
          exact ⟨(hSame _).1.trans hSound.1, hSound.2.1, (hSame _).2.1.trans hSound.2.2⟩
        | finish => exact ⟨(hSame _).1.trans hSound.1, hSound.2.1, (hSame _).2.2 _ hSound.2.2⟩
      apply hInfo.setCaller
      · simp [ServiceServerLink.setInfo, hAt]
      · simp
      · intro hLeave
        cases hLeave
      · intro result hResult
        cases hResult
        simpa [ServiceServerLink.setInfo] using hDone
  · cases hNext <;> exact h.whole

theorem At.carrying_reader {s s' : ServiceServerLink ρ} {stage : Stage ρ} (h : At s stage)
    (hCaller : s'.caller = s.caller) (hOld : s.carrying .reader = none) (hNew : s'.carrying .reader = none) :
    s'.carrying = stage.carrying :=
  (carrying_setReader hCaller hOld hNew).trans h.carrying

theorem Stage.Sound.of_same {s s' : ServiceServerLink ρ} {stage : Stage ρ} (h : stage.Sound s)
    (hInfo : s'.info = s.info) (hAnswered : ∀ entry ∈ s.answered, entry ∈ s'.answered) : stage.Sound s' := by
  cases stage with
  | header => trivial
  | idle => trivial
  | fetching => trivial
  | sending | writing | asked =>
    simp only [Stage.Sound, hInfo] at h ⊢
    exact h
  | answered | length | tooLong =>
    simp only [Stage.Sound, hInfo] at h ⊢
    exact ⟨h.1, hAnswered _ h.2⟩
  | payload | store | finish =>
    simp only [Stage.Sound, hInfo] at h ⊢
    exact ⟨h.1, hAnswered _ h.2.1, h.2.2⟩

theorem At.of_answering {s : ServiceServerLink ρ} {stage : Stage ρ} (h : At s stage) {reader : ReaderPc ρ}
    (hReader : s.reader = reader) : stage.reader = reader.answering := by
  rw [← hReader, h.reader]

theorem carrying_of_answering {s : ServiceServerLink ρ} {reader : ReaderPc ρ} (hReader : s.reader = reader)
    (hAnswering : reader.answering = some reader) : s.carrying .reader = none := by
  subst hReader
  simp only [ServiceServerLink.carrying, ServiceServerLink.processing]
  split
  · rename_i hReader
    rw [hReader] at hAnswering
    cases hAnswering
  · rename_i hReader
    rw [hReader] at hAnswering
    cases hAnswering
  · rfl

theorem Live.setReader {s : ServiceServerLink ρ} {stage : Stage ρ} (h : Live s stage) {old : ReaderPc ρ}
    (hAt : s.reader = old) (headerRead : Bool) (reader : ReaderPc ρ) (hIdle : old ≠ .idle)
    (hOld : s.carrying .reader = none)
    (hNew : ({ s with reader := reader } : ServiceServerLink ρ).carrying .reader = none)
    (hSame : reader.answering = old.answering) :
    Live { s with headerRead := headerRead, reader := reader } stage where
  stands :=
    { h.stands with
      carrying := h.stands.carrying_reader rfl hOld hNew
      reader := by rw [hSame, ← h.stands.of_answering hAt]
      waiting := fun hHeader => absurd (hAt.symm.trans (h.stands.waiting hHeader).2.1) hIdle }
  books := h.books.kept (kept_refl s) rfl rfl rfl rfl rfl rfl rfl rfl rfl
    (h.books.sound.of_same rfl fun _ he => he)
  whole := h.whole

namespace Ledger

variable {s : ServiceServerLink ρ} {request : Request ρ} {response : Response}

theorem setSuccess (h : Ledger s (.length request response)) (hOpen : (s.info request.call).finished = false) :
    Ledger (s.setInfo request.call fun info => { info with success := response.ok != 0 })
      (.payload request response) := by
  refine h.setInfo request.call rfl rfl (fun hFinished => ?_) rfl ?_
  · rw [hOpen] at hFinished
    cases hFinished
  · obtain ⟨hReq, hAnswer⟩ := h.sound
    exact ⟨by simpa [ServiceServerLink.setInfo] using hReq, hAnswer, by simp [ServiceServerLink.setInfo]⟩

theorem setPayload (h : Ledger s (.store request response)) (hOpen : (s.info request.call).finished = false) :
    Ledger
      (s.setInfo request.call fun info =>
        if info.success then { info with resp := some response.payload }
        else { info with exceptionString := response.payload })
      (.finish request response) := by
  refine h.setInfo request.call ?_ ?_ (fun hFinished => ?_) rfl ?_
  · split <;> rfl
  · split <;> rfl
  · rw [hOpen] at hFinished
    cases hFinished
  · obtain ⟨hReq, hAnswer, hSuccess⟩ := h.sound
    refine ⟨?_, hAnswer, ?_⟩
    · simp only [ServiceServerLink.setInfo, Function.update_self]
      split <;> exact hReq
    · simp only [ServiceServerLink.setInfo, Function.update_self, Records]
      cases hOk : response.ok != 0 with
      | true =>
        rw [hOk] at hSuccess
        simp [hSuccess]
      | false =>
        rw [hOk] at hSuccess
        simp [hSuccess]

theorem finishCall (h : Ledger s (.finish request response)) (hCurrent : s.currentCall = some request.call)
    (reader : ReaderPc ρ) :
    Ledger { s.finishCall request.call with currentCall := none, reader := reader } .idle := by
  obtain ⟨hReq, hAnswer, hRecords⟩ := h.sound
  have hOnly : request.call ∉ s.callQueue := by
    have hNodup := h.nodup
    rw [h.queued, h.sent] at hNodup
    have hSent : request.call ∈ (s.answered.map Prod.fst ++ s.unanswered).map Request.call :=
      List.mem_map_of_mem (List.mem_append_left _ (List.mem_map.mpr ⟨_, hAnswer, rfl⟩))
    intro hMem
    exact (List.nodup_append.mp hNodup).2.2 _ (List.mem_append_left _ hSent) _ hMem rfl
  have hKept : Kept s (s.finishCall request.call) := by
    cases hPc : s.caller request.call with
    | blocked =>
      refine kept_update request.call .wait ?_ (by simp [hPc]) trivial
      simp [ServiceServerLink.finishCall, hPc]
    | _ =>
      intro j
      left
      simp [ServiceServerLink.finishCall, hPc]
  have hCallers : Ledger { s with caller := (s.finishCall request.call).caller } (.finish request response) :=
    h.kept (fun j => hKept j) rfl rfl rfl rfl rfl rfl rfl rfl rfl ⟨hReq, hAnswer, hRecords⟩
  have hInfo : ∀ j, j ≠ request.call → (s.finishCall request.call).info j = s.info j := by
    intro j hj
    simp [ServiceServerLink.finishCall, hj]
  have hSelf : (s.finishCall request.call).info request.call = { s.info request.call with finished := true } := by
    simp [ServiceServerLink.finishCall]
  exact
    { hCallers with
      data := by
        intro sent hSent
        show ((s.finishCall request.call).info sent.call).req = sent.data
        by_cases hSame : sent.call = request.call
        · rw [hSame, hSelf]
          exact hSame ▸ h.data sent hSent
        · rw [hInfo _ hSame]
          exact h.data sent hSent
      sound := trivial
      settled := by
        intro j hj
        show Settled { s.finishCall request.call with currentCall := none, reader := reader } j
        by_cases hSame : j = request.call
        · subst hSame
          refine ⟨response, ?_, ?_⟩
          · show (⟨_, ((s.finishCall request.call).info request.call).req⟩, response) ∈ s.answered
            rw [hSelf, hReq]
            exact hAnswer
          · show Records ((s.finishCall request.call).info request.call) response
            rw [hSelf]
            exact hRecords
        · have hDone : ((s.finishCall request.call).info j).finished = true := hj
          rw [hInfo j hSame] at hDone
          obtain ⟨given, hGiven, hRecorded⟩ := h.settled j hDone
          refine ⟨given, ?_, ?_⟩
          · show (⟨j, ((s.finishCall request.call).info j).req⟩, given) ∈ s.answered
            rw [hInfo j hSame]
            exact hGiven
          · show Records ((s.finishCall request.call).info j) given
            rw [hInfo j hSame]
            exact hRecorded
      unsettled := by
        rintro j (hj | hj)
        · show ((s.finishCall request.call).info j).finished = false
          rw [hInfo j (fun hSame => hOnly (hSame ▸ hj))]
          exact h.unsettled j (.inl hj)
        · cases hj
      current := by
        intro sent hSent
        left
        show ((s.finishCall request.call).info sent.call).finished = true
        by_cases hSame : sent.call = request.call
        · rw [hSame, hSelf]
        · rw [hInfo _ hSame]
          refine (h.current sent hSent).resolve_right fun hOther => hSame ?_
          exact Option.some.inj (hOther.symm.trans hCurrent)
      left := by
        intro j hj
        show ((s.finishCall request.call).info j).finished = true
        by_cases hSame : j = request.call
        · rw [hSame, hSelf]
        · rw [hInfo j hSame]
          exact hCallers.left j hj
      returned := by
        intro j result hj
        show ((s.finishCall request.call).info j).finished = true ∧
          result = ((s.finishCall request.call).info j).success
        obtain ⟨hDone, hResult⟩ := hCallers.returned j result hj
        by_cases hSame : j = request.call
        · subst hSame
          rw [hSelf]
          exact ⟨rfl, hResult⟩
        · rw [hInfo j hSame]
          exact ⟨hDone, hResult⟩ }

end Ledger

theorem carrying_finishCall (s : ServiceServerLink ρ) (i : Nat) : (s.finishCall i).carrying = s.carrying := by
  cases hPc : s.caller i with
  | blocked =>
    apply carrying_setCaller i .wait
    · simp [ServiceServerLink.finishCall, hPc]
    · rfl
    · simp [hPc]
    · simp
  | _ =>
    funext u
    simp only [ServiceServerLink.carrying, ServiceServerLink.processing, ServiceServerLink.finishCall, hPc]
    rfl

theorem Live.calledBack {s next : ServiceServerLink ρ} {stage : Stage ρ} (h : Live s stage)
    (hNext : CalledBack s next) (hLive : next.dropped = false) : ∃ stage', Live next stage' := by
  cases hNext with
  | headerEmpty hAt =>
    refine ⟨stage, h.setReader hAt true .idle (by simp) ?_ rfl rfl⟩
    simp [ServiceServerLink.carrying, ServiceServerLink.processing, hAt]
  | headerQueued hAt =>
    refine ⟨stage, h.setReader hAt s.headerRead (.headerProcess .take) (by simp) ?_ rfl rfl⟩
    simp [ServiceServerLink.carrying, ServiceServerLink.processing, hAt]
  | headerEnd hAt =>
    refine ⟨stage, h.setReader hAt true .idle (by simp) ?_ rfl rfl⟩
    simp [ServiceServerLink.carrying, ServiceServerLink.processing, hAt]
  | length hAt hCurrent hLen =>
    rename_i ok len i
    have hStage := h.stands.of_answering hAt
    cases stage with
    | length request response =>
      cases hStage
      cases hCurrent.symm.trans h.stands.currentCall
      have hDropped : s.dropped = false := hLive
      refine ⟨.payload request response, ?_, ?_, h.whole⟩
      · exact
          { h.stands with
            carrying := h.stands.carrying_reader rfl (carrying_of_answering hAt rfl) rfl
            readCallback := if_neg (by simp [ServiceServerLink.setInfo, hDropped])
            reader := rfl
            waiting := by simp }
      · have hSet := h.books.setSuccess (h.books.unsettled request.call (.inr hCurrent))
        exact hSet.kept (kept_refl _) rfl rfl rfl rfl rfl rfl rfl rfl rfl (hSet.sound.of_same rfl fun _ he => he)
    | _ => cases hStage
  | noPayload hAt hCurrent =>
    rename_i ok i
    have hStage := h.stands.of_answering hAt
    cases stage with
    | length request response =>
      injection hStage with hPc
      injection hPc with hOk hLen
      cases hOk
      cases hCurrent.symm.trans h.stands.currentCall
      have hNil : response.payload = [] := List.length_eq_zero_iff.mp hLen
      refine ⟨.store request response, ?_, ?_, h.whole⟩
      · exact
          { h.stands with
            carrying := h.stands.carrying_reader rfl (carrying_of_answering hAt rfl) rfl
            incoming := h.stands.incoming.trans hNil
            reader := by
              rw [Stage.reader, hNil]
              rfl
            waiting := by simp }
      · have hSet := h.books.setSuccess (h.books.unsettled request.call (.inr hCurrent))
        exact hSet.kept (kept_refl _) rfl rfl rfl rfl rfl rfl rfl rfl rfl (hSet.sound.of_same rfl fun _ he => he)
    | _ => cases hStage
  | tooLongLate hAt hDropped =>
    have hNot : s.dropped = false := hLive
    rw [hNot] at hDropped
    cases hDropped
  | tooLong => cases hLive
  | response hAt hCurrent =>
    rename_i buffer i
    have hStage := h.stands.of_answering hAt
    cases stage with
    | store request response =>
      cases hStage
      cases hCurrent.symm.trans h.stands.currentCall
      refine ⟨.finish request response, ?_, ?_, h.whole⟩
      · exact
          { h.stands with
            carrying := h.stands.carrying_reader rfl (carrying_of_answering hAt rfl) rfl
            reader := rfl
            waiting := by simp }
      · have hSet := h.books.setPayload (h.books.unsettled request.call (.inr hCurrent))
        exact hSet.kept (kept_refl _) rfl rfl rfl rfl rfl rfl rfl rfl rfl (hSet.sound.of_same rfl fun _ he => he)
    | _ => cases hStage
  | finished hAt hCurrent =>
    rename_i i
    have hStage := h.stands.of_answering hAt
    cases stage with
    | finish request response =>
      cases hCurrent.symm.trans h.stands.currentCall
      refine ⟨.idle, ?_, h.books.finishCall hCurrent _, h.whole⟩
      exact
        { h.stands with
          currentCall := rfl
          carrying := by
            have hNotified := (carrying_finishCall s request.call).trans h.stands.carrying
            have hMoved :
                ({ s.finishCall request.call with currentCall := none, reader := .process .take } :
                  ServiceServerLink ρ).carrying = (s.finishCall request.call).carrying :=
              carrying_setReader rfl (carrying_of_answering (s := s.finishCall request.call) hAt rfl) rfl
            exact hMoved.trans hNotified
          reader := rfl
          waiting := by simp }
    | _ => cases hStage

/-! ## The rest of the program -/

theorem Live.begin {s : ServiceServerLink ρ} {stage : Stage ρ} (h : Live s stage) (req : ρ) :
    Live (s.begin req) stage := by
  have hAbsent := h.books.fresh s.calls (Nat.le_refl _)
  have hInfo : ∀ i ∈ s.queued, (s.begin req).info i = s.info i := by
    intro i hi
    simp [ServiceServerLink.begin, (h.books.known i hi).1.ne]
  have hCaller : ∀ i, i ≠ s.calls → (s.begin req).caller i = s.caller i := by
    intro i hi
    simp [ServiceServerLink.begin, hi]
  have hCurrent : ∀ i, stage.call = some i → (s.begin req).info i = s.info i := fun i hi =>
    hInfo i (h.books.current_mem h.stands (h.stands.currentCall.trans hi))
  have hFinished : ∀ i, ((s.begin req).info i).finished = true → i ≠ s.calls := by
    rintro i hi rfl
    simp [ServiceServerLink.begin] at hi
  have hSame : ∀ i, i ≠ s.calls → (s.begin req).info i = s.info i := by
    intro i hi
    simp [ServiceServerLink.begin, hi]
  refine ⟨?_, ?_, h.whole⟩
  · exact
      { h.stands with
        carrying := by
          have hKept : (s.begin req).carrying = s.carrying :=
            carrying_setCaller s.calls .push rfl rfl (by simp [hAbsent]) (by simp)
          exact hKept.trans h.stands.carrying
        waiting := by
          intro hHeader
          obtain ⟨hRead, hReader, hCallers⟩ := h.stands.waiting hHeader
          refine ⟨hRead, hReader, fun j => ?_⟩
          by_cases hNew : j = s.calls
          · simp [ServiceServerLink.processing, ServiceServerLink.begin, hNew]
          · simpa [ServiceServerLink.processing, ServiceServerLink.begin, hNew] using hCallers j }
  · exact
      { h.books with
        known := by
          intro i hi
          obtain ⟨hLess, hPast⟩ := h.books.known i hi
          refine ⟨Nat.lt_succ_of_lt hLess, ?_⟩
          rw [hCaller i hLess.ne]
          exact hPast
        fresh := by
          intro i hi
          have hMore : s.calls < i := hi
          rw [hCaller i hMore.ne']
          exact h.books.fresh i hMore.le
        data := by
          intro request hRequest
          have hMem : request.call ∈ s.queued := by
            rw [h.books.queued, List.append_assoc]
            exact List.mem_append_left _ (List.mem_map_of_mem hRequest)
          rw [hInfo _ hMem]
          exact h.books.data request hRequest
        sound := by
          have hSound := h.books.sound
          cases stage with
          | header => trivial
          | idle => trivial
          | fetching => trivial
          | sending | writing | asked | answered | length | tooLong | payload | store | finish =>
            simp only [Stage.Sound, hCurrent _ rfl] at hSound ⊢
            exact hSound
        settled := by
          intro i hi
          have hNe := hFinished i hi
          rw [hSame i hNe] at hi
          obtain ⟨response, hAnswer, hRecords⟩ := h.books.settled i hi
          refine ⟨response, ?_, ?_⟩
          · rw [hSame i hNe]
            exact hAnswer
          · rw [hSame i hNe]
            exact hRecords
        unsettled := by
          intro i hi
          by_cases hNew : i = s.calls
          · simp [ServiceServerLink.begin, hNew]
          · rw [hSame i hNew]
            exact h.books.unsettled i hi
        current := by
          intro request hRequest
          have hMem : request.call ∈ s.queued := by
            rw [h.books.queued, List.append_assoc]
            exact List.mem_append_left _ (List.mem_map_of_mem hRequest)
          rw [hInfo _ hMem]
          exact h.books.current request hRequest
        left := by
          intro i hi
          by_cases hNew : i = s.calls
          · simp [ServiceServerLink.begin, hNew] at hi
          · rw [hSame i hNew]
            exact h.books.left i (hCaller i hNew ▸ hi)
        returned := by
          intro i result hi
          by_cases hNew : i = s.calls
          · simp [ServiceServerLink.begin, hNew] at hi
          · rw [hSame i hNew]
            exact h.books.returned i result (hCaller i hNew ▸ hi) }

theorem tail_bytes (response : Response) :
    ofLe (response.bytes.take 5).tail = response.payload.length ∧ (response.bytes.take 5).headD 0 = response.ok ∧
      response.bytes.drop 5 = response.payload := by
  have hLe : (le 4 response.payload.length).length = 4 := length_le 4 _
  refine ⟨?_, rfl, ?_⟩
  · simp only [Response.bytes, List.cons_append, List.take_succ_cons, List.tail_cons]
    rw [List.take_left' hLe, ofLe_le response.short]
  · simp only [Response.bytes, List.cons_append, List.drop_succ_cons]
    exact List.drop_left' hLe

theorem At.header_of_read {s : ServiceServerLink ρ} {stage : Stage ρ} (h : At s stage) {size : Nat}
    (hRead : s.readCallback = some (.onHeader, size)) : stage = .header := by
  have hStage := h.readCallback.symm.trans hRead
  cases stage with
  | header => rfl
  | asked _ written => cases written <;> cases hStage
  | answered _ _ written => cases written <;> cases hStage
  | _ => cases hStage

theorem At.current_of_read {s : ServiceServerLink ρ} {stage : Stage ρ} (h : At s stage) {callback : ReadCallback}
    {size : Nat} (hRead : s.readCallback = some (callback, size)) (hResponse : callback ≠ .onHeader) :
    s.currentCall ≠ none := by
  have hStage := h.readCallback.symm.trans hRead
  rw [h.currentCall]
  cases stage with
  | header =>
    cases hStage
    exact absurd rfl hResponse
  | idle => cases hStage
  | _ => exact nofun

theorem Live.happened {s next : ServiceServerLink ρ} {stage : Stage ρ} {a : Label ρ} (h : Live s stage)
    (hNext : Happened s a next) (hLive : next.dropped = false) : ∃ stage', Live next stage' := by
  have hSound : ∀ {next' : ServiceServerLink ρ}, next'.info = s.info → next'.answered = s.answered →
      stage.Sound next' := fun hInfo hAnswered =>
    h.books.sound.of_same hInfo fun entry he => hAnswered ▸ he
  cases hNext with
  | call req => exact ⟨stage, h.begin req⟩
  | wakeUp hAt =>
    rename_i i
    refine ⟨stage, h.stands.setCaller i .wait (by simp [hAt]) (by simp), ?_, h.whole⟩
    exact h.books.setCaller (by simp [hAt]) (by simp) (by simp) (by simp)
  | onHeaderWritten =>
    refine ⟨stage, { h.stands with }, ?_, h.whole⟩
    exact h.books.kept (kept_refl s) rfl rfl rfl rfl rfl rfl rfl rfl rfl (hSound rfl rfl)
  | receiveHeader hasMd5sum _ hIdle hRead =>
    cases h.stands.header_of_read hRead
    refine ⟨.idle, ?_, ?_, h.whole⟩
    · exact
        { h.stands with
          carrying := by
            have hOld : s.carrying .reader = none := by
              simp [ServiceServerLink.carrying, ServiceServerLink.processing, hIdle]
            refine h.stands.carrying_reader rfl hOld ?_
            cases hasMd5sum <;> rfl
          readCallback := rfl
          reader := by cases hasMd5sum <;> rfl
          waiting := by simp }
    · exact h.books.kept (kept_refl s) rfl rfl rfl rfl rfl rfl rfl rfl rfl trivial
  | receiveLength _ hIdle hRead hSize =>
    have hStage := h.stands.readCallback.symm.trans hRead
    have hAnswered : ∃ request response, stage = .answered request response false := by
      cases stage with
      | header => cases hStage
      | asked request written =>
        cases written with
        | false =>
          cases hStage
          rw [h.stands.incoming] at hSize
          simp [Stage.incoming] at hSize
        | true => cases hStage
      | answered request response written =>
        cases written with
        | false => exact ⟨request, response, rfl⟩
        | true => cases hStage
      | payload => cases hStage
      | _ => cases hStage
    obtain ⟨request, response, rfl⟩ := hAnswered
    cases hStage
    have hIncoming : s.incoming = response.bytes := h.stands.incoming
    obtain ⟨hLen, hOk, hRest⟩ := tail_bytes response
    have hOld : s.carrying .reader = none := by
      simp [ServiceServerLink.carrying, ServiceServerLink.processing, hIdle]
    simp only [ServiceServerLink.onResponseOkAndLength, hIncoming, hLen, hOk, hRest] at hLive ⊢
    split
    · refine ⟨.tooLong request response, ?_, ?_, h.whole⟩
      · exact
          { h.stands with
            carrying := h.stands.carrying_reader rfl hOld rfl
            readCallback := rfl
            incoming := rfl
            reader := rfl
            waiting := by simp }
      · exact h.books.kept (kept_refl s) rfl rfl rfl rfl rfl rfl rfl rfl rfl h.books.sound
    · refine ⟨.length request response, ?_, ?_, h.whole⟩
      · exact
          { h.stands with
            carrying := h.stands.carrying_reader rfl hOld rfl
            readCallback := rfl
            incoming := rfl
            reader := rfl
            waiting := by simp }
      · exact h.books.kept (kept_refl s) rfl rfl rfl rfl rfl rfl rfl rfl rfl h.books.sound
  | receivePayload _ hIdle hRead hSize =>
    have hStage := h.stands.readCallback.symm.trans hRead
    have hPayload : ∃ request response, stage = .payload request response := by
      cases stage with
      | header => cases hStage
      | asked _ written => cases written <;> cases hStage
      | answered _ _ written => cases written <;> cases hStage
      | payload request response => exact ⟨request, response, rfl⟩
      | _ => cases hStage
    obtain ⟨request, response, rfl⟩ := hPayload
    cases hStage
    have hIncoming : s.incoming = response.payload := h.stands.incoming
    have hOld : s.carrying .reader = none := by
      simp [ServiceServerLink.carrying, ServiceServerLink.processing, hIdle]
    refine ⟨.store request response, ?_, ?_, h.whole⟩
    · exact
        { h.stands with
          carrying := h.stands.carrying_reader rfl hOld rfl
          readCallback := rfl
          incoming := by
            rw [hIncoming, List.drop_length]
            rfl
          reader := by
            rw [hIncoming, List.take_length]
            rfl
          waiting := by simp }
    · exact h.books.kept (kept_refl s) rfl rfl rfl rfl rfl rfl rfl rfl rfl h.books.sound
  | @transmit request _ _ hWrite =>
    have hStage := h.stands.writeBuffer.symm.trans hWrite
    cases stage with
    | writing held =>
      cases hStage
      have hNone : s.unanswered = [] := h.stands.unanswered
      have hReq : (s.info request.call).req = request.data := h.books.sound
      refine ⟨.asked request true, ?_, ?_, h.whole⟩
      · exact
          { h.stands with
            writeBuffer := rfl
            requestWritten := rfl
            unanswered := by
              rw [hNone]
              rfl
            waiting := by simp }
      · exact
          { h.books with
            sent := by
              show s.sent ++ [request] = s.answered.map Prod.fst ++ (s.unanswered ++ [request])
              rw [h.books.sent, List.append_assoc]
            queued := by
              show s.queued = (s.sent ++ [request]).map Request.call ++ [] ++ s.callQueue
              rw [h.books.queued, List.map_append, List.append_nil]
              rfl
            data := by
              intro sent hSent
              obtain hMem | hLast := List.mem_append.mp hSent
              · exact h.books.data sent hMem
              · cases List.mem_singleton.mp hLast
                exact hReq
            sound := hReq
            current := by
              intro sent hSent
              obtain hMem | hLast := List.mem_append.mp hSent
              · exact h.books.current sent hMem
              · cases List.mem_singleton.mp hLast
                exact .inr h.stands.currentCall }
    | _ => cases hStage
  | onRequestWritten hWritten =>
    have hDropped : s.dropped = false := hLive
    have hStage := h.stands.requestWritten.symm.trans hWritten
    cases stage with
    | asked request written =>
      cases hStage
      refine ⟨.asked request false, ?_, ?_, h.whole⟩
      · exact
          { h.stands with
            requestWritten := rfl
            readCallback := if_neg (by simp [hDropped])
            waiting := by simp }
      · exact h.books.kept (kept_refl s) rfl rfl rfl rfl rfl rfl rfl rfl rfl h.books.sound
    | answered request response written =>
      cases hStage
      refine ⟨.answered request response false, ?_, ?_, h.whole⟩
      · exact
          { h.stands with
            requestWritten := rfl
            readCallback := if_neg (by simp [hDropped])
            waiting := by simp }
      · exact h.books.kept (kept_refl s) rfl rfl rfl rfl rfl rfl rfl rfl rfl h.books.sound
    | _ => cases hStage
  | answer response hRequest =>
    rename_i request rest
    have hStage := h.stands.unanswered.symm.trans hRequest
    cases stage with
    | asked held written =>
      cases hStage
      have hNone : s.incoming = [] := h.stands.incoming
      refine ⟨.answered request response written, ?_, ?_, h.whole⟩
      · exact
          { h.stands with
            readCallback := h.stands.readCallback.trans (by cases written <;> rfl)
            unanswered := rfl
            incoming := by
              rw [hNone]
              rfl
            waiting := by simp }
      · exact
          { h.books with
            sent := by
              show s.sent = (s.answered ++ [(request, response)]).map Prod.fst ++ []
              rw [h.books.sent, hRequest]
              simp
            sound := ⟨h.books.sound, List.mem_append_right _ (List.mem_singleton.mpr rfl)⟩
            settled := by
              intro i hi
              obtain ⟨given, hGiven, hRecords⟩ := h.books.settled i hi
              exact ⟨given, List.mem_append_left _ hGiven, hRecords⟩ }
    | _ => cases hStage
  | drop => cases hLive

end XcRos.Libros.Service
