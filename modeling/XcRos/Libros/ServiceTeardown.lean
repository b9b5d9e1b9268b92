import XcRos.Libros.ServiceStage

/-! # Tearing a link down

`clearCalls` cancels the current call, and then, with `call_queue_mutex_` locked, every call in the
queue. Two kinds of steps defeat it: a caller that still has to lock the mutex for its call in the
queue, and a call that is taken from the queue after the current one has been looked up.
-/

namespace XcRos.Libros.Service

open XcRos.Foundation

variable {ρ : Type}

/-- `clearCalls` has looked up the current call and not yet come to the queue. -/
def DropperPc.between : DropperPc → Bool
  | .cancelCurrent _ | .spinCurrent _ | .loop => true
  | _ => false

/-- `clearCalls` is going through the queue. -/
def DropperPc.clearing : DropperPc → Bool
  | .loop | .cancel _ | .spin _ => true
  | _ => false

/-- `clearCalls` does not lock the queue for good as long as it has a call whose own caller is about to
lock it for `processNextCall`, and no call is taken from the queue behind its back. -/
def spares (s : ServiceServerLink ρ) : Label ρ → Prop
  | .lock .dropper => s.dropper = .loop → ∀ i ∈ s.callQueue, s.caller i ≠ .process .take
  | .act t => s.processing t = some .take → s.currentCall = none → s.callQueue ≠ [] → s.dropper.between = false
  | _ => True

instance [DecidableEq ρ] (s : ServiceServerLink ρ) : ∀ a, Decidable (spares s a)
  | .lock .dropper =>
    inferInstanceAs (Decidable (s.dropper = .loop → ∀ i ∈ s.callQueue, s.caller i ≠ .process .take))
  | .act t =>
    inferInstanceAs
      (Decidable (s.processing t = some .take → s.currentCall = none → s.callQueue ≠ [] → s.dropper.between = false))
  | .lock (.caller _) | .lock .reader | .call _ | .lockFinished _ | .wakeUp _ | .onHeaderWritten | .receiveHeader _
  | .receive | .transmit | .onRequestWritten | .answer _ | .drop => .isTrue trivial

/-- What holds of the queue, its callers and the thread in `clearCalls`. -/
structure Teardown (s : ServiceServerLink ρ) : Prop where
  fresh : ∀ i, s.calls ≤ i → s.caller i = .absent
  known : ∀ i, i ∈ s.callQueue ∨ s.currentCall = some i → s.caller i ≠ .absent ∧ s.caller i ≠ .push
  nodup : s.callQueue.Nodup
  head : ∀ i ∈ s.callQueue, s.caller i = .process .take → s.callQueue.head? = some i
  past : ∀ i ∈ s.callQueue, ∀ p, s.caller i = .process p → p = .take
  waited : ∀ i, (s.caller i).pending → (s.info i).finished = true ∨ i ∈ s.callQueue ∨ s.currentCall = some i
  blocked : ∀ i, s.caller i = .blocked → (s.info i).finished = false
  dropped : s.dropped = false ↔ s.dropper = .absent
  cancelled : s.dropper ≠ .absent → s.dropper ≠ .first → ∀ i, s.currentCall = some i →
    (s.info i).finished = true ∨ s.dropper = .cancelCurrent i
  holds : ∀ i, s.dropper = .cancel i ∨ s.dropper = .spin i →
    s.callQueueMutex = some .dropper ∧ s.callQueue.head? = some i
  unheld : ∀ i, s.dropper = .cancelCurrent i ∨ s.dropper = .spinCurrent i → s.callQueueMutex ≠ some .dropper
  spun : ∀ i, s.dropper = .spin i → (s.info i).finished = true
  spared : s.dropper.clearing = true → s.callQueueMutex = some .dropper →
    ∀ i ∈ s.callQueue, s.caller i ≠ .process .take
  done : s.dropper = .done → s.callQueue = []

theorem Teardown.locksQueue {s : ServiceServerLink ρ} (h : Teardown s) {i : Nat} (hSpin : s.dropper = .spin i) :
    (s.caller i).locksQueue = false := by
  obtain ⟨hMutex, hHead⟩ := h.holds i (.inr hSpin)
  have hMem : i ∈ s.callQueue := List.mem_of_mem_head? hHead
  cases hPc : s.caller i with
  | push => exact absurd hPc (h.known i (.inl hMem)).2
  | process p =>
    have hTake := h.past i hMem p hPc
    subst hTake
    exact absurd hPc (h.spared (by rw [hSpin]; rfl) hMutex i hMem)
  | _ => rfl

theorem Teardown.finished {s : ServiceServerLink ρ} (h : Teardown s) (hDone : s.dropper = .done) {i : Nat}
    (hPending : (s.caller i).pending) : (s.info i).finished = true := by
  obtain hFinished | hMem | hCurrent := h.waited i hPending
  · exact hFinished
  · rw [h.done hDone] at hMem
    cases hMem
  · obtain hFinished | hCancel := h.cancelled (by simp [hDone]) (by simp [hDone]) i hCurrent
    · exact hFinished
    · rw [hDone] at hCancel
      cases hCancel

/-! ## Steps -/

theorem Teardown.unlock {s : ServiceServerLink ρ} (h : Teardown s) {t : Thread} (ht : t ≠ .dropper) :
    Teardown (s.unlock t) := by
  have hMutex : (s.unlock t).callQueueMutex = some .dropper ↔ s.callQueueMutex = some .dropper := by
    show (if s.callQueueMutex = some t then none else s.callQueueMutex) = some .dropper ↔ _
    split
    · rename_i hOwner
      simp [hOwner, ht]
    · rfl
  exact
    { h with
      holds := fun i hi => ⟨hMutex.mpr (h.holds i hi).1, (h.holds i hi).2⟩
      unheld := fun i hi hOwner => h.unheld i hi (hMutex.mp hOwner)
      spared := fun hClearing hOwner => h.spared hClearing (hMutex.mp hOwner) }

theorem Teardown.setCaller {s : ServiceServerLink ρ} (h : Teardown s) (i : Nat) (pc : CallerPc ρ)
    (hBegun : s.caller i ≠ .absent) (hAfter : pc ≠ .absent ∧ pc ≠ .push)
    (hTake : pc ≠ .process .take) (hProcess : ∀ p, pc = .process p → i ∉ s.callQueue)
    (hWaited : pc.pending → (s.caller i).pending) (hBlocked : pc = .blocked → (s.info i).finished = false) :
    Teardown (s.setCaller i pc) := by
  have hSelf : (s.setCaller i pc).caller i = pc := by simp [ServiceServerLink.setCaller]
  have hOther : ∀ j, j ≠ i → (s.setCaller i pc).caller j = s.caller j := by
    intro j hj
    simp [ServiceServerLink.setCaller, hj]
  exact
    { h with
      fresh := by
        intro j hj
        rw [hOther j]
        · exact h.fresh j hj
        · rintro rfl
          exact hBegun (h.fresh j hj)
      known := by
        intro j hj
        by_cases hSame : j = i
        · rw [hSame, hSelf]
          exact hAfter
        · rw [hOther j hSame]
          exact h.known j hj
      head := by
        intro j hj hPc
        by_cases hSame : j = i
        · rw [hSame, hSelf] at hPc
          exact absurd hPc hTake
        · exact h.head j hj (hOther j hSame ▸ hPc)
      past := by
        intro j hj p hPc
        by_cases hSame : j = i
        · subst hSame
          exact absurd hj (hProcess p (hSelf.symm.trans hPc))
        · exact h.past j hj p (hOther j hSame ▸ hPc)
      waited := by
        intro j hj
        by_cases hSame : j = i
        · subst hSame
          rw [hSelf] at hj
          exact h.waited j (hWaited hj)
        · exact h.waited j (hOther j hSame ▸ hj)
      blocked := by
        intro j hj
        by_cases hSame : j = i
        · subst hSame
          exact hBlocked (hSelf.symm.trans hj)
        · exact h.blocked j (hOther j hSame ▸ hj)
      spared := by
        intro hClearing hMutex j hj
        by_cases hSame : j = i
        · rw [hSame, hSelf]
          exact hTake
        · rw [hOther j hSame]
          exact h.spared hClearing hMutex j hj }

theorem Teardown.setInfo {s : ServiceServerLink ρ} (h : Teardown s) {i : Nat} {f : CallInfo ρ → CallInfo ρ}
    (hFinished : (f (s.info i)).finished = (s.info i).finished) : Teardown (s.setInfo i f) := by
  have hSame : ∀ j, ((s.setInfo i f).info j).finished = (s.info j).finished := by
    intro j
    by_cases hj : j = i
    · subst hj
      simp [ServiceServerLink.setInfo, hFinished]
    · simp [ServiceServerLink.setInfo, hj]
  exact
    { h with
      waited := by
        intro j hj
        rw [hSame]
        exact h.waited j hj
      blocked := by
        intro j hj
        rw [hSame]
        exact h.blocked j hj
      cancelled := by
        intro hAbsent hFirst j hj
        rw [hSame]
        exact h.cancelled hAbsent hFirst j hj
      spun := by
        intro j hj
        rw [hSame]
        exact h.spun j hj }

theorem Teardown.beginDrop {s : ServiceServerLink ρ} (h : Teardown s) (thread : Option Nat) :
    Teardown (s.beginDrop thread) :=
  { h with
    dropped := by simp [ServiceServerLink.beginDrop]
    cancelled := fun _ hFirst => absurd rfl hFirst
    holds := by simp [ServiceServerLink.beginDrop]
    unheld := by simp [ServiceServerLink.beginDrop]
    spun := by simp [ServiceServerLink.beginDrop]
    spared := nofun
    done := by simp [ServiceServerLink.beginDrop] }

theorem caller_of_processing {s : ServiceServerLink ρ} {i : Nat} {p : Processing ρ}
    (hAt : s.processing (.caller i) = some p) : s.caller i = .process p := by
  simp only [ServiceServerLink.processing] at hAt
  split at hAt
  · cases hAt
    assumption
  · cases hAt

theorem Teardown.proceed {s : ServiceServerLink ρ} (h : Teardown s) {t : Thread} {p : Processing ρ}
    (hAt : s.processing t = some p) {next : Option (Processing ρ)} (hNext : next ≠ some .take)
    (hQueued : ∀ i, t = .caller i → i ∈ s.callQueue → next = none) : Teardown (s.proceed t next) := by
  cases t with
  | caller i =>
    have hPc := caller_of_processing hAt
    apply h.setCaller i ((next.map .process).getD .wait)
    · simp [hPc]
    · cases next <;> simp
    · cases next with
      | none => simp
      | some q => simpa using hNext
    · intro q hq hMem
      rw [hQueued i rfl hMem] at hq
      cases hq
    · intro _
      rw [hPc]
      trivial
    · cases next <;> simp
  | reader => exact { h with }
  | dropper => cases hAt

theorem locksQueue_of_take {s : ServiceServerLink ρ} {t : Thread} (hAt : s.processing t = some .take) :
    s.locksQueue t = true := by
  cases t with
  | caller i => simp [ServiceServerLink.locksQueue, caller_of_processing hAt, CallerPc.locksQueue, Processing.locksQueue]
  | reader =>
    simp only [ServiceServerLink.processing] at hAt
    split at hAt
    · rename_i hReader
      cases hAt
      simp [ServiceServerLink.locksQueue, hReader, ReaderPc.locksQueue, Processing.locksQueue]
    · rename_i hReader
      cases hAt
      simp [ServiceServerLink.locksQueue, hReader, ReaderPc.locksQueue, Processing.locksQueue]
    · cases hAt
  | dropper => cases hAt

theorem Teardown.early {s : ServiceServerLink ρ} (h : Teardown s) {t : Thread} (hAt : s.processing t = some .take)
    (hReady : s.ready t) (hQueue : s.callQueue ≠ []) (hSpares : s.dropper.between = false) :
    s.dropper = .absent ∨ s.dropper = .first := by
  have hMutex : s.callQueueMutex = some t := hReady.1 (locksQueue_of_take hAt)
  have hOther : s.callQueueMutex ≠ some .dropper := by
    rw [hMutex]
    rintro hSame
    cases hSame
    cases hAt
  cases hPc : s.dropper with
  | absent => exact .inl rfl
  | first => exact .inr rfl
  | cancelCurrent i =>
    rw [hPc] at hSpares
    cases hSpares
  | spinCurrent i =>
    rw [hPc] at hSpares
    cases hSpares
  | loop =>
    rw [hPc] at hSpares
    cases hSpares
  | cancel i => exact absurd (h.holds i (.inl hPc)).1 hOther
  | spin i => exact absurd (h.holds i (.inr hPc)).1 hOther
  | done => exact absurd (h.done hPc) hQueue

theorem Teardown.taken {s : ServiceServerLink ρ} (h : Teardown s) {t : Thread} {i : Nat} {rest : List Nat}
    (hAt : s.processing t = some .take) (hIdle : s.currentCall = none) (hQueue : s.callQueue = i :: rest)
    (hEarly : s.dropper = .absent ∨ s.dropper = .first) :
    Teardown ({ s with currentCall := some i, callQueue := rest }.proceed t (some .fetch)) := by
  have hRest : ∀ j ∈ rest, j ∈ s.callQueue := fun j hj => hQueue ▸ List.mem_cons_of_mem i hj
  have hFirst : i ∈ s.callQueue := hQueue ▸ List.mem_cons_self
  have hNodup : i ∉ rest ∧ rest.Nodup := List.nodup_cons.mp (hQueue ▸ h.nodup)
  have hTaker : ∀ j ∈ rest, s.caller j ≠ .process .take := by
    intro j hj hPc
    have hHead := h.head j (hRest j hj) hPc
    rw [hQueue, List.head?_cons] at hHead
    cases hHead
    exact hNodup.1 hj
  have hMoved : Teardown { s with currentCall := some i, callQueue := rest } :=
    { h with
      known := by
        rintro j (hj | hj)
        · exact h.known j (.inl (hRest j hj))
        · cases hj
          exact h.known i (.inl hFirst)
      nodup := hNodup.2
      head := fun j hj hPc => absurd hPc (hTaker j hj)
      past := fun j hj => h.past j (hRest j hj)
      waited := by
        intro j hj
        obtain hFinished | hMem | hCurrent := h.waited j hj
        · exact .inl hFinished
        · rw [hQueue] at hMem
          obtain rfl | hMem := List.mem_cons.mp hMem
          · exact .inr (.inr rfl)
          · exact .inr (.inl hMem)
        · rw [hIdle] at hCurrent
          cases hCurrent
      cancelled := by
        intro hAbsent hNotFirst
        exact (hEarly.elim hAbsent hNotFirst).elim
      holds := by
        intro j hj
        obtain hPc | hPc := hEarly <;> simp [hPc] at hj
      spun := h.spun
      spared := fun _ _ j hj => hTaker j hj
      done := by
        intro hDone
        obtain hPc | hPc := hEarly <;> simp [hPc] at hDone }
  apply Teardown.proceed hMoved hAt
  · exact nofun
  · rintro j rfl hj
    exact absurd (caller_of_processing hAt) (hTaker j hj)

theorem Teardown.processed {s next : ServiceServerLink ρ} (h : Teardown s) {t : Thread} {p : Processing ρ}
    (hReady : s.ready t) (hAt : s.processing t = some p) (hNext : Processed s t p next)
    (hSpares : s.processing t = some .take → s.currentCall = none → s.callQueue ≠ [] → s.dropper.between = false) :
    Teardown next := by
  cases hNext with
  | busy => exact h.proceed hAt nofun fun _ _ _ => rfl
  | taken hIdle hQueue =>
    have hSome : s.callQueue ≠ [] := by simp [hQueue]
    exact h.taken hAt hIdle hQueue (h.early hAt hReady hSome (hSpares hAt hIdle hSome))
  | empty _ hQueue =>
    apply h.proceed hAt
    · split <;> exact nofun
    · intro i _ hMem
      rw [hQueue] at hMem
      cases hMem
  | fetched =>
    apply h.proceed hAt
    · exact nofun
    · rintro i rfl hMem
      cases h.past i hMem _ (caller_of_processing hAt)
  | sent request =>
    have hWrite : Teardown (s.write request) := { h with }
    exact hWrite.proceed hAt nofun fun _ _ _ => rfl
  | late => exact h.proceed hAt nofun fun _ _ _ => rfl
  | dropped =>
    have hBegun := h.beginDrop t.call
    apply Teardown.proceed hBegun hAt
    · exact nofun
    · rintro i rfl hMem
      cases h.past i hMem _ (caller_of_processing hAt)
  | cleared => exact h.proceed hAt nofun fun _ _ _ => rfl

theorem Teardown.queued {s : ServiceServerLink ρ} (h : Teardown s) {i : Nat} (hAt : s.caller i = .push)
    (hLive : s.dropped = false) :
    Teardown ({ s with callQueue := s.callQueue ++ [i], queued := s.queued ++ [i] }.setCaller i
      (if s.callQueue.isEmpty && s.headerWritten && s.headerRead then .process .take else .wait)) := by
  have hAbsent : s.dropper = .absent := h.dropped.mp hLive
  have hNew : i ∉ s.callQueue := fun hMem => (h.known i (.inl hMem)).2 hAt
  have hSelf : Function.update s.caller i
      (if s.callQueue.isEmpty && s.headerWritten && s.headerRead then .process .take else .wait) i =
        if s.callQueue.isEmpty && s.headerWritten && s.headerRead then .process .take else .wait :=
    Function.update_self ..
  have hOther : ∀ pc j, j ≠ i → Function.update s.caller i pc j = s.caller j := fun pc j hj =>
    Function.update_of_ne hj pc s.caller
  exact
    { h with
      fresh := by
        intro j hj
        have hNe : j ≠ i := by
          rintro rfl
          cases hAt.symm.trans (h.fresh j hj)
        exact (hOther _ j hNe).trans (h.fresh j hj)
      known := by
        intro j hj
        by_cases hSame : j = i
        · subst hSame
          simp only [ServiceServerLink.setCaller, hSelf]
          split <;> simp
        · simp only [ServiceServerLink.setCaller, hOther _ j hSame]
          apply h.known
          simpa [ServiceServerLink.setCaller, hSame] using hj
      nodup := List.nodup_append.mpr ⟨h.nodup, List.nodup_singleton i, by
        rintro j hj k hk rfl
        exact hNew (List.mem_singleton.mp hk ▸ hj)⟩
      head := by
        intro j hj hPc
        simp only [ServiceServerLink.setCaller] at hj hPc ⊢
        by_cases hSame : j = i
        · subst hSame
          rw [hSelf] at hPc
          split at hPc
          · rename_i hImmediate
            have hQueue : s.callQueue = [] := by
              simp only [Bool.and_eq_true, List.isEmpty_iff] at hImmediate
              exact hImmediate.1.1
            rw [hQueue]
            rfl
          · cases hPc
        · rw [hOther _ j hSame] at hPc
          have hMem : j ∈ s.callQueue := by simpa [hSame] using hj
          exact (List.head?_append_of_ne_nil _ (List.ne_nil_of_mem hMem)).trans (h.head j hMem hPc)
      past := by
        intro j hj p hPc
        simp only [ServiceServerLink.setCaller] at hj hPc
        by_cases hSame : j = i
        · subst hSame
          rw [hSelf] at hPc
          split at hPc
          · cases hPc
            rfl
          · cases hPc
        · rw [hOther _ j hSame] at hPc
          exact h.past j (by simpa [hSame] using hj) p hPc
      waited := by
        intro j hj
        simp only [ServiceServerLink.setCaller] at hj ⊢
        by_cases hSame : j = i
        · exact .inr (.inl (by simp [hSame]))
        · rw [hOther _ j hSame] at hj
          exact (h.waited j hj).imp_right (Or.imp_left (List.mem_append_left _))
      blocked := by
        intro j hj
        simp only [ServiceServerLink.setCaller] at hj ⊢
        by_cases hSame : j = i
        · subst hSame
          rw [hSelf] at hj
          split at hj <;> cases hj
        · rw [hOther _ j hSame] at hj
          exact h.blocked j hj
      cancelled := fun hPresent => absurd hAbsent hPresent
      holds := by simp [ServiceServerLink.setCaller, hAbsent]
      spared := by simp [ServiceServerLink.setCaller, hAbsent, DropperPc.clearing]
      done := by simp [ServiceServerLink.setCaller, hAbsent] }

theorem Teardown.called {s next : ServiceServerLink ρ} (h : Teardown s) {i : Nat} (hNext : Called s i next) :
    Teardown next := by
  cases hNext with
  | refused hAt =>
    have hInfo : Teardown (s.setInfo i fun info => { info with callFinished := true }) := h.setInfo rfl
    apply hInfo.setCaller
    · simp [ServiceServerLink.setInfo, hAt]
    · simp
    · simp
    · simp
    · simp [CallerPc.pending]
    · simp
  | queued hAt hLive => exact h.queued hAt hLive
  | checked hAt =>
    apply h.setCaller
    · simp [hAt]
    · split <;> simp
    · split <;> simp
    · intro p hp
      split at hp <;> cases hp
    · intro _
      rw [hAt]
      trivial
    · intro hBlocked
      split at hBlocked
      · cases hBlocked
      · simpa using ‹¬ (s.info i).finished = true›
  | left hAt =>
    have hInfo : Teardown (s.setInfo i fun info => { info with callFinished := true }) := h.setInfo rfl
    apply hInfo.setCaller
    · simp [ServiceServerLink.setInfo, hAt]
    · simp
    · simp
    · simp
    · simp [CallerPc.pending]
    · simp

theorem Teardown.finishCall {s : ServiceServerLink ρ} (h : Teardown s) (i : Nat) : Teardown (s.finishCall i) := by
  have hFinished : ∀ j, (s.info j).finished = true → ((s.finishCall i).info j).finished = true := by
    intro j hj
    by_cases hSame : j = i
    · simp [ServiceServerLink.finishCall, hSame]
    · simpa [ServiceServerLink.finishCall, hSame] using hj
  have hCaller : ∀ j, (s.finishCall i).caller j = s.caller j ∨
      s.caller j = .blocked ∧ (s.finishCall i).caller j = .wait := by
    intro j
    cases hPc : s.caller i with
    | blocked =>
      by_cases hSame : j = i
      · subst hSame
        right
        exact ⟨hPc, by simp [ServiceServerLink.finishCall, hPc]⟩
      · left
        simp [ServiceServerLink.finishCall, hPc, hSame]
    | _ =>
      left
      simp [ServiceServerLink.finishCall, hPc]
  have hBlocked : ∀ j, (s.finishCall i).caller j = .blocked → j ≠ i ∧ s.caller j = .blocked := by
    intro j hj
    obtain hSame | ⟨_, hWait⟩ := hCaller j
    · refine ⟨?_, hSame ▸ hj⟩
      rintro rfl
      rw [hSame] at hj
      simp [ServiceServerLink.finishCall, hj] at hSame
    · rw [hWait] at hj
      cases hj
  exact
    { h with
      fresh := by
        intro j hj
        have hAbsent := h.fresh j hj
        obtain hSame | ⟨hWas, _⟩ := hCaller j
        · exact hSame.trans hAbsent
        · cases hAbsent.symm.trans hWas
      known := by
        intro j hj
        obtain hSame | ⟨_, hWait⟩ := hCaller j
        · rw [hSame]
          exact h.known j hj
        · rw [hWait]
          exact ⟨nofun, nofun⟩
      head := by
        intro j hj hPc
        obtain hSame | ⟨_, hWait⟩ := hCaller j
        · exact h.head j hj (hSame ▸ hPc)
        · cases hWait.symm.trans hPc
      past := by
        intro j hj p hPc
        obtain hSame | ⟨_, hWait⟩ := hCaller j
        · exact h.past j hj p (hSame ▸ hPc)
        · cases hWait.symm.trans hPc
      waited := by
        intro j hj
        have hPending : (s.caller j).pending := by
          obtain hSame | ⟨hWas, _⟩ := hCaller j
          · exact hSame ▸ hj
          · rw [hWas]
            trivial
        exact (h.waited j hPending).imp_left (hFinished j)
      blocked := by
        intro j hj
        obtain ⟨hNe, hWas⟩ := hBlocked j hj
        simpa [ServiceServerLink.finishCall, hNe] using h.blocked j hWas
      cancelled := fun hPresent hNotFirst j hj => (h.cancelled hPresent hNotFirst j hj).imp_left (hFinished j)
      spun := fun j hj => hFinished j (h.spun j hj)
      spared := by
        intro hClearing hMutex j hj
        obtain hSame | ⟨_, hWait⟩ := hCaller j
        · rw [hSame]
          exact h.spared hClearing hMutex j hj
        · rw [hWait]
          exact nofun }

theorem finished_finishCall (s : ServiceServerLink ρ) (i : Nat) : ((s.finishCall i).info i).finished = true := by
  simp [ServiceServerLink.finishCall]

theorem Teardown.calledBack {s next : ServiceServerLink ρ} (h : Teardown s) (hNext : CalledBack s next) :
    Teardown next := by
  cases hNext with
  | headerEmpty => exact { h with }
  | headerQueued => exact { h with }
  | headerEnd => exact { h with }
  | @length ok len i =>
    have hInfo : Teardown (s.setInfo i fun info => { info with success := ok != 0 }) := h.setInfo rfl
    exact { hInfo with }
  | @noPayload ok i =>
    have hInfo : Teardown (s.setInfo i fun info => { info with success := ok != 0 }) := h.setInfo rfl
    exact { hInfo with }
  | tooLongLate => exact { h with }
  | tooLong =>
    have hBegun := h.beginDrop none
    exact { hBegun with }
  | @response buffer i =>
    have hInfo : Teardown (s.setInfo i fun info =>
        if info.success then { info with resp := some buffer } else { info with exceptionString := buffer }) := by
      apply h.setInfo
      split <;> rfl
    exact { hInfo with }
  | @finished i hAt hCurrent =>
    have hDone := h.finishCall i
    exact
      { hDone with
        known := by
          rintro j (hj | hj)
          · exact hDone.known j (.inl hj)
          · cases hj
        waited := by
          intro j hj
          obtain hFinished | hMem | hSame := hDone.waited j hj
          · exact .inl hFinished
          · exact .inr (.inl hMem)
          · cases hCurrent.symm.trans hSame
            exact .inl (finished_finishCall s i)
        cancelled := nofun }

theorem Teardown.begin {s : ServiceServerLink ρ} (h : Teardown s) (req : ρ) : Teardown (s.begin req) := by
  have hAbsent := h.fresh s.calls (Nat.le_refl _)
  have hCaller : ∀ j, j ≠ s.calls → (s.begin req).caller j = s.caller j := by
    intro j hj
    simp [ServiceServerLink.begin, hj]
  have hInfo : ∀ j, j ≠ s.calls → (s.begin req).info j = s.info j := by
    intro j hj
    simp [ServiceServerLink.begin, hj]
  have hSelf : (s.begin req).caller s.calls = .push := by simp [ServiceServerLink.begin]
  have hKnown : ∀ j, j ∈ s.callQueue ∨ s.currentCall = some j → j ≠ s.calls := by
    rintro j hj rfl
    exact (h.known _ hj).1 hAbsent
  exact
    { h with
      fresh := by
        intro j hj
        have hMore : s.calls < j := hj
        rw [hCaller j hMore.ne']
        exact h.fresh j hMore.le
      known := by
        intro j hj
        rw [hCaller j (hKnown j hj)]
        exact h.known j hj
      head := by
        intro j hj hPc
        exact h.head j hj (hCaller j (hKnown j (.inl hj)) ▸ hPc)
      past := by
        intro j hj p hPc
        exact h.past j hj p (hCaller j (hKnown j (.inl hj)) ▸ hPc)
      waited := by
        intro j hj
        by_cases hNew : j = s.calls
        · rw [hNew, hSelf] at hj
          exact hj.elim
        · rw [hInfo j hNew]
          exact h.waited j (hCaller j hNew ▸ hj)
      blocked := by
        intro j hj
        by_cases hNew : j = s.calls
        · cases hSelf.symm.trans (hNew ▸ hj)
        · rw [hInfo j hNew]
          exact h.blocked j (hCaller j hNew ▸ hj)
      cancelled := by
        intro hPresent hNotFirst j hj
        rw [hInfo j (hKnown j (.inr hj))]
        exact h.cancelled hPresent hNotFirst j hj
      spun := by
        intro j hj
        rw [hInfo j (hKnown j (.inl (List.mem_of_mem_head? (h.holds j (.inr hj)).2)))]
        exact h.spun j hj
      spared := by
        intro hClearing hMutex j hj
        rw [hCaller j (hKnown j (.inl hj))]
        exact h.spared hClearing hMutex j hj }

theorem Teardown.happened {s next : ServiceServerLink ρ} {a : Label ρ} (h : Teardown s) (hNext : Happened s a next) :
    Teardown next := by
  cases hNext with
  | call req => exact h.begin req
  | wakeUp hAt =>
    apply h.setCaller
    · simp [hAt]
    · simp
    · simp
    · simp
    · intro _
      rw [hAt]
      trivial
    · simp
  | onHeaderWritten => exact { h with }
  | receiveHeader => exact { h with }
  | receiveLength => exact { h with }
  | receivePayload => exact { h with }
  | transmit => exact { h with }
  | onRequestWritten => exact { h with }
  | answer => exact { h with }
  | drop => exact h.beginDrop none

/-! ## `clearCalls` -/

theorem Teardown.popCall {s : ServiceServerLink ρ} (h : Teardown s) {i : Nat}
    (hHead : s.callQueue.head? = some i)
    (hFinished : (s.info i).finished = true) (hPresent : s.dropper ≠ .absent)
    (hCancelled : ∀ j, s.currentCall = some j → (s.info j).finished = true)
    (hSpared : ∀ j ∈ s.callQueue, s.caller j ≠ .process .take) : Teardown s.popCall := by
  obtain ⟨rest, hQueue⟩ : ∃ rest, s.callQueue = i :: rest := by
    cases hList : s.callQueue with
    | nil => simp [hList] at hHead
    | cons j rest =>
      rw [hList] at hHead
      cases hHead
      exact ⟨rest, rfl⟩
  have hTail : s.popCall.callQueue = rest := by simp [ServiceServerLink.popCall, hQueue]
  have hRest : ∀ j ∈ s.popCall.callQueue, j ∈ s.callQueue := by
    intro j hj
    rw [hTail] at hj
    rw [hQueue]
    exact List.mem_cons_of_mem i hj
  exact
    { h with
      known := by
        rintro j (hj | hj)
        · exact h.known j (.inl (hRest j hj))
        · exact h.known j (.inr hj)
      nodup := by
        rw [hTail]
        exact (List.nodup_cons.mp (hQueue ▸ h.nodup)).2
      head := fun j hj hPc => absurd hPc (hSpared j (hRest j hj))
      past := fun j hj => h.past j (hRest j hj)
      waited := by
        intro j hj
        obtain hDone | hMem | hCurrent := h.waited j hj
        · exact .inl hDone
        · rw [hQueue] at hMem
          obtain rfl | hMem := List.mem_cons.mp hMem
          · exact .inl hFinished
          · rw [hTail]
            exact .inr (.inl hMem)
        · exact .inr (.inr hCurrent)
      dropped := by
        constructor
        · intro hLive
          exact absurd (h.dropped.mp hLive) hPresent
        · exact nofun
      cancelled := fun _ _ j hj => .inl (hCancelled j hj)
      holds := by simp [ServiceServerLink.popCall]
      unheld := by simp [ServiceServerLink.popCall]
      spun := by simp [ServiceServerLink.popCall]
      spared := fun _ _ j hj => hSpared j (hRest j hj)
      done := by simp [ServiceServerLink.popCall] }

theorem Teardown.setDropper {s : ServiceServerLink ρ} (h : Teardown s) (dropper : DropperPc) (mutex : Option Thread)
    (hPresent : s.dropper ≠ .absent) (hAfter : dropper ≠ .absent)
    (hCancelled : ∀ j, s.currentCall = some j → (s.info j).finished = true ∨ dropper = .cancelCurrent j)
    (hHolds : ∀ i, dropper = .cancel i ∨ dropper = .spin i →
      mutex = some .dropper ∧ s.callQueue.head? = some i)
    (hUnheld : ∀ i, dropper = .cancelCurrent i ∨ dropper = .spinCurrent i → mutex ≠ some .dropper)
    (hSpun : ∀ i, dropper = .spin i → (s.info i).finished = true)
    (hSpared : dropper.clearing = true → mutex = some .dropper → ∀ i ∈ s.callQueue, s.caller i ≠ .process .take)
    (hDone : dropper = .done → s.callQueue = []) :
    Teardown { s with dropper := dropper, callQueueMutex := mutex } :=
  { h with
    dropped := by
      constructor
      · intro hLive
        exact absurd (h.dropped.mp hLive) hPresent
      · intro hAbsent
        exact absurd hAbsent hAfter
    cancelled := fun _ _ => hCancelled
    holds := hHolds
    unheld := hUnheld
    spun := hSpun
    spared := hSpared
    done := hDone }

theorem Teardown.cleared {s next : ServiceServerLink ρ} (h : Teardown s) (hReady : s.ready .dropper)
    (hNext : s.dropStep = some next) : Teardown next := by
  have hMutex : s.dropper.locksQueue = true → s.callQueueMutex = some .dropper := hReady.1
  -- a current call is finished once `clearCalls` has cancelled the one that it looked up
  have hCurrent : s.dropper ≠ .absent → s.dropper ≠ .first → (∀ i, s.dropper ≠ .cancelCurrent i) →
      ∀ j, s.currentCall = some j → (s.info j).finished = true := fun hPresent hNotFirst hNot j hj =>
    (h.cancelled hPresent hNotFirst j hj).resolve_right (hNot j)
  unfold ServiceServerLink.dropStep at hNext
  split at hNext
  · rename_i hAt
    cases hNext
    have hFree : (if s.callQueueMutex = some .dropper then none else s.callQueueMutex) ≠ some Thread.dropper := by
      split <;> simp_all
    have hSet := h.setDropper ((s.currentCall.map DropperPc.cancelCurrent).getD .loop)
      (if s.callQueueMutex = some .dropper then none else s.callQueueMutex) (by simp [hAt])
      (by cases s.currentCall <;> simp) (fun j hj => by simp [hj]) (by cases s.currentCall <;> simp)
      (fun _ _ => hFree) (by cases s.currentCall <;> simp) (fun _ hHeld => absurd hHeld hFree)
      (by cases s.currentCall <;> simp)
    exact { hSet with }
  · rename_i i hAt
    cases hNext
    have hDone := h.finishCall i
    have hUnheld := h.unheld i (.inl hAt)
    have hSet := hDone.setDropper (if s.dropThread = some i then .loop else .spinCurrent i) s.callQueueMutex (by simp [ServiceServerLink.finishCall, hAt]) (by split <;> simp)
      (fun j hj => by
        obtain hFinished | hSame := hDone.cancelled (by simp [ServiceServerLink.finishCall, hAt])
          (by simp [ServiceServerLink.finishCall, hAt]) j hj
        · exact .inl hFinished
        · cases hAt.symm.trans hSame
          exact .inl (finished_finishCall s i))
      (by split <;> simp) (fun _ _ => hUnheld) (by split <;> simp) (fun _ hHeld => absurd hHeld hUnheld)
      (by split <;> simp)
    exact { hSet with }
  · rename_i i hAt
    split at hNext
    · cases hNext
      have hUnheld := h.unheld i (.inr hAt)
      exact h.setDropper _ _ (by simp [hAt]) nofun
        (fun j hj => .inl (hCurrent (by simp [hAt]) (by simp [hAt]) (by simp [hAt]) j hj)) (by simp)
        (by simp) nofun (fun _ hHeld => absurd hHeld hUnheld) nofun
    · cases hNext
  · rename_i hAt
    have hHeld := hMutex (by rw [hAt]; rfl)
    have hFinished := hCurrent (by simp [hAt]) (by simp [hAt]) (by simp [hAt])
    split at hNext
    · rename_i hQueue
      cases hNext
      have hSet := h.setDropper .done (if s.callQueueMutex = some .dropper then none else s.callQueueMutex) (by simp [hAt]) nofun
        (fun j hj => .inl (hFinished j hj)) (by simp) (by simp) nofun nofun (fun _ => hQueue)
      exact { hSet with }
    · rename_i i rest hQueue
      cases hNext
      exact h.setDropper _ _ (by simp [hAt]) nofun (fun j hj => .inl (hFinished j hj))
        (fun j hj => by
          obtain hSame | hSpin := hj
          · cases hSame
            exact ⟨hHeld, by rw [hQueue, List.head?_cons]⟩
          · cases hSpin)
        (by simp) nofun (fun _ hOwner => h.spared (by rw [hAt]; rfl) hOwner) nofun
  · rename_i i hAt
    cases hNext
    obtain ⟨hHeld, hHead⟩ := h.holds i (.inl hAt)
    have hDone := h.finishCall i
    have hUnlocked : Teardown ((s.finishCall i).unlockFinished .dropper) := { hDone with }
    have hFinished : ∀ j, s.currentCall = some j → ((s.finishCall i).info j).finished = true := by
      intro j hj
      refine (hDone.cancelled ?_ ?_ j hj).resolve_right ?_
      · simp [ServiceServerLink.finishCall, hAt]
      · simp [ServiceServerLink.finishCall, hAt]
      · simp [ServiceServerLink.finishCall, hAt]
    have hSpared : ∀ j ∈ s.callQueue, (s.finishCall i).caller j ≠ .process .take :=
      hDone.spared (by simp [ServiceServerLink.finishCall, hAt, DropperPc.clearing]) hHeld
    split
    · exact hUnlocked.popCall hHead (finished_finishCall s i)
        (by simp [ServiceServerLink.unlockFinished, ServiceServerLink.finishCall, hAt]) hFinished hSpared
    · exact hUnlocked.setDropper _ _ (by simp [ServiceServerLink.unlockFinished, ServiceServerLink.finishCall, hAt]) nofun
        (fun j hj => .inl (hFinished j hj))
        (fun j hj => by
          obtain hCancel | hSame := hj
          · cases hCancel
          · cases hSame
            exact ⟨hHeld, hHead⟩)
        (by simp)
        (fun j hj => by
          cases hj
          exact finished_finishCall s i)
        (fun _ _ => hSpared) nofun
  · rename_i i hAt
    obtain ⟨hHeld, hHead⟩ := h.holds i (.inr hAt)
    split at hNext
    · cases hNext
      exact h.popCall hHead (h.spun i hAt) (by simp [hAt])
        (hCurrent (by simp [hAt]) (by simp [hAt]) (by simp [hAt])) (h.spared (by rw [hAt]; rfl) hHeld)
    · cases hNext
  · cases hNext
  · cases hNext

/-! ## Whole runs -/

theorem teardown_start (persistent : Bool) (req : ρ) : Teardown (start persistent req) where
  fresh _ _ := rfl
  known := by simp [start]
  nodup := List.nodup_nil
  head := by simp [start]
  past := by simp [start]
  waited _ hPending := hPending.elim
  blocked := by simp [start]
  dropped := by simp [start]
  cancelled hPresent := absurd rfl hPresent
  holds := by simp [start]
  unheld := by simp [start]
  spun := by simp [start]
  spared := nofun
  done := by simp [start]

theorem Teardown.moved {s s' : ServiceServerLink ρ} {a : Label ρ} (h : Teardown s) (hOk : spares s a)
    (hMoved : Moved s a s') : Teardown s' := by
  cases hMoved with
  | @lock t hLocks hFree =>
    exact
      { h with
        holds := by
          intro i hi
          rw [(h.holds i hi).1] at hFree
          cases hFree
        unheld := by
          intro i hi hOwner
          cases hOwner
          obtain hPc | hPc := hi <;> simp [ServiceServerLink.locksQueue, show s.dropper = _ from hPc, DropperPc.locksQueue] at hLocks
        spared := by
          intro hClearing hOwner
          cases hOwner
          have hLoop : s.dropper = .loop := by
            cases hPc : s.dropper <;> simp [ServiceServerLink.locksQueue, DropperPc.locksQueue, hPc] at hLocks <;>
              simp [DropperPc.clearing, hPc] at hClearing
            rfl
          exact hOk hLoop }
  | lockFinished => exact { h with }
  | @process t p next hReady hAt hNext =>
    refine (h.processed hReady hAt hNext hOk).unlock ?_
    rintro rfl
    cases hAt
  | call _ hNext => exact (h.called hNext).unlock nofun
  | callBack _ hNext => exact (h.calledBack hNext).unlock nofun
  | clear hReady hNext => exact h.cleared hReady hNext
  | happen hNext => exact h.happened hNext

theorem teardown_of_reachable {s : ServiceServerLink ρ} (hReach : (system ρ).ReachableWhen spares s) : Teardown s := by
  induction hReach with
  | init hInit =>
    obtain ⟨persistent, req, rfl⟩ := hInit
    exact teardown_start persistent req
  | step _ hOk hStep ih => exact ih.moved hOk (moved_of_step hStep)

/-- In the runs in which `clearCalls` is spared it spins on no caller that needs the mutex which it
holds, and leaves no caller waiting. -/
theorem clearCalls_spared {s : ServiceServerLink ρ} (hReach : (system ρ).ReachableWhen spares s) :
    (∀ i, s.dropper = .spin i → (s.caller i).locksQueue = false) ∧
      (s.dropper = .done → ∀ i, (s.caller i).pending → (s.info i).finished = true ∧ s.caller i ≠ .blocked) := by
  have h := teardown_of_reachable hReach
  constructor
  · intro i hSpin
    exact h.locksQueue hSpin
  · intro hDone i hPending
    have hFinished := h.finished hDone hPending
    refine ⟨hFinished, fun hBlocked => ?_⟩
    rw [h.blocked i hBlocked] at hFinished
    cases hFinished

/-! ## Runs -/

def connected : List (Label Nat) := [.onHeaderWritten, .receiveHeader true, .lock .reader, .act .reader]

def calmRun : List (Label Nat) :=
  [.call 7, .lock (.caller 0), .act (.caller 0), .lockFinished (.caller 0), .act (.caller 0), .drop,
    .lock .dropper, .act .dropper, .lock .dropper, .act .dropper, .lockFinished .dropper, .act .dropper,
    .lockFinished (.caller 0), .act (.caller 0), .act (.caller 0), .act .dropper, .act .dropper]

def calmEnd : ServiceServerLink Nat := ((system Nat).runWhen spares (start true 0) calmRun).getD (start true 0)

theorem clearCalls_spared_sample :
    (calmEnd.dropper = .done ∧ calmEnd.caller 0 = .returned false) ∧
      (∀ i, calmEnd.dropper = .spin i → (calmEnd.caller i).locksQueue = false) ∧
      (calmEnd.dropper = .done → ∀ i, (calmEnd.caller i).pending →
        (calmEnd.info i).finished = true ∧ calmEnd.caller i ≠ .blocked) := by
  have hRun : (system Nat).runWhen spares (start true 0) calmRun = some calmEnd := rfl
  have hReach : (system Nat).ReachableWhen spares calmEnd := .runWhen (.init ⟨true, 0, rfl⟩) hRun
  exact ⟨⟨rfl, rfl⟩, clearCalls_spared hReach⟩

/-- `clearCalls` locks the queue while the caller of its only call is about to lock it. -/
def deadlockRun : List (Label Nat) :=
  connected ++ [.call 7, .lock (.caller 0), .act (.caller 0), .drop, .lock .dropper, .act .dropper,
    .lock .dropper, .act .dropper, .lockFinished .dropper, .act .dropper]

def deadlock : ServiceServerLink Nat := ((system Nat).run (start true 0) deadlockRun).getD (start true 0)

/-- The caller takes its call after `clearCalls` has seen that none is current. -/
def missedRun : List (Label Nat) :=
  connected ++ [.call 7, .lock (.caller 0), .act (.caller 0), .drop, .lock .dropper, .act .dropper,
    .lock (.caller 0), .act (.caller 0), .lock .dropper, .act .dropper,
    .lock (.caller 0), .act (.caller 0), .act (.caller 0), .lockFinished (.caller 0), .act (.caller 0)]

def missed : ServiceServerLink Nat := ((system Nat).run (start true 0) missedRun).getD (start true 0)

/-- In the one run neither thread can go on, in the other nobody will wake the caller. -/
theorem clearCalls_fails :
    ((system Nat).Reachable deadlock ∧ deadlock.dropper = .spin 0 ∧ (deadlock.caller 0).locksQueue = true ∧
      deadlock.callQueueMutex = some .dropper ∧ step deadlock (.act .dropper) = none ∧
      step deadlock (.lock (.caller 0)) = none ∧ step deadlock (.act (.caller 0)) = none) ∧
    ((system Nat).Reachable missed ∧ missed.dropper = .done ∧ missed.caller 0 = .blocked ∧
      (missed.info 0).finished = false ∧ missed.queued = [0]) := by
  have hDeadlock : (system Nat).run (start true 0) deadlockRun = some deadlock := rfl
  have hMissed : (system Nat).run (start true 0) missedRun = some missed := rfl
  exact ⟨⟨Machine.Reachable.run (.init ⟨true, 0, rfl⟩) hDeadlock, rfl, rfl, rfl, rfl, rfl, rfl⟩,
    Machine.Reachable.run (.init ⟨true, 0, rfl⟩) hMissed, rfl, rfl, rfl, rfl⟩

end XcRos.Libros.Service
