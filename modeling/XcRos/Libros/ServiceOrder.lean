import XcRos.Libros.ServiceProgress

/-! # Every call gets the response to its own request -/

namespace XcRos.Libros.Service

open XcRos.Foundation

variable {ρ : Type}

theorem dropped_dropStep {s next : ServiceServerLink ρ} (h : s.dropStep = some next) : next.dropped = s.dropped := by
  unfold ServiceServerLink.dropStep at h
  split at h
  · cases h
    rfl
  · cases h
    rfl
  · split at h <;> cases h
    rfl
  · split at h <;> cases h <;> rfl
  · cases h
    split <;> rfl
  · split at h <;> cases h
    rfl
  · cases h
  · cases h

theorem dropped_mono {s s' : ServiceServerLink ρ} {a : Label ρ} (h : Moved s a s') (hDropped : s.dropped = true) :
    s'.dropped = true := by
  cases h with
  | lock => exact hDropped
  | lockFinished => exact hDropped
  | process _ _ hNext => cases hNext <;> first | exact hDropped | rfl
  | call _ hNext => cases hNext <;> exact hDropped
  | callBack _ hNext => cases hNext <;> first | exact hDropped | rfl
  | clear _ hNext => exact (dropped_dropStep hNext).trans hDropped
  | happen hNext => cases hNext <;> first | exact hDropped | rfl

theorem live_start (persistent : Bool) (req : ρ) : Live (start persistent req) (.header : Stage ρ) where
  stands := ⟨rfl, funext fun t => by cases t <;> rfl, rfl, rfl, rfl, rfl, rfl, rfl, fun _ => ⟨rfl, rfl, fun _ => rfl⟩⟩
  books := ⟨rfl, rfl, List.nodup_nil, by simp [start], fun _ _ => rfl, by simp [start], trivial, by simp [start],
    by simp [start], by simp [start], by simp [start], by simp [start]⟩
  whole := rfl

theorem exists_live {s : ServiceServerLink ρ} {ok : ServiceServerLink ρ → Label ρ → Prop}
    (hReach : (system ρ).ReachableWhen ok s) (hLive : s.dropped = false) : ∃ stage, Live s stage := by
  induction hReach with
  | init hInit =>
    obtain ⟨persistent, req, rfl⟩ := hInit
    exact ⟨.header, live_start persistent req⟩
  | @step s s' a _ _ hStep ih =>
    have hMoved := moved_of_step hStep
    have hBefore : s.dropped = false := by
      by_contra hDropped
      rw [Bool.not_eq_false] at hDropped
      rw [dropped_mono hMoved hDropped] at hLive
      cases hLive
    obtain ⟨stage, h⟩ := ih hBefore
    cases hMoved with
    | lock => exact ⟨stage, { h.stands with }, { h.books with sound := h.books.sound.of_same rfl fun _ he => he }, h.whole⟩
    | lockFinished =>
      exact ⟨stage, { h.stands with }, { h.books with sound := h.books.sound.of_same rfl fun _ he => he }, h.whole⟩
    | process _ hAt hNext =>
      obtain ⟨stage', hAfter⟩ := h.processed hAt hNext hLive
      exact ⟨stage', hAfter.unlock _⟩
    | call _ hNext =>
      obtain ⟨stage', hAfter⟩ := h.called hNext hLive
      exact ⟨stage', hAfter.unlock _⟩
    | callBack _ hNext =>
      obtain ⟨stage', hAfter⟩ := h.calledBack hNext hLive
      exact ⟨stage', hAfter.unlock _⟩
    | clear _ hNext =>
      rw [ServiceServerLink.dropStep, h.whole] at hNext
      cases hNext
    | happen hNext => exact h.happened hNext hLive

/-- The requests that have been given to the connection and whose call is not over. -/
def ServiceServerLink.outstanding (s : ServiceServerLink ρ) : List (Request ρ) :=
  s.writeBuffer.toList ++ s.sent.filter fun request => !(s.info request.call).finished

/-- What `call` returned is the server's answer to the call's own request, and its only one. -/
def Answered (s : ServiceServerLink ρ) (i : Nat) (result : Bool) : Prop :=
  ∃ response, (∀ entry, entry ∈ s.answered ∧ entry.1.call = i ↔ entry = (⟨i, (s.info i).req⟩, response)) ∧
    result = (response.ok != 0) ∧
    if result then (s.info i).resp = some response.payload else (s.info i).exceptionString = response.payload

theorem Live.answered {s : ServiceServerLink ρ} {stage : Stage ρ} (h : Live s stage) {i : Nat} {result : Bool}
    (hReturned : s.caller i = .returned result) : Answered s i result := by
  obtain ⟨hFinished, rfl⟩ := h.books.returned i result hReturned
  obtain ⟨response, hAnswer, hSuccess, hRecords⟩ := h.books.settled i hFinished
  refine ⟨response, fun entry => ?_, hSuccess, by rwa [hSuccess]⟩
  constructor
  · rintro ⟨hEntry, rfl⟩
    have hNodup : (s.answered.map fun e => e.1.call).Nodup := by
      have hQueued := h.books.nodup
      rw [h.books.queued, h.books.sent, List.append_assoc, List.map_append, List.map_map] at hQueued
      exact (List.nodup_append.mp (List.nodup_append.mp hQueued).1).1
    exact List.inj_on_of_nodup_map hNodup hEntry hAnswer rfl
  · rintro rfl
    exact ⟨hAnswer, rfl⟩

theorem Live.outstanding_le {s : ServiceServerLink ρ} {stage : Stage ρ} (h : Live s stage) :
    s.outstanding.length ≤ 1 := by
  have hNodup := h.books.nodup
  rw [h.books.queued] at hNodup
  obtain ⟨hOut, _, _⟩ := List.nodup_append.mp hNodup
  obtain ⟨hSent, _, hApart⟩ := List.nodup_append.mp hOut
  have hOpen : ∀ request ∈ s.sent.filter fun request => !(s.info request.call).finished,
      request ∈ s.sent ∧ s.currentCall = some request.call := by
    intro request hRequest
    obtain ⟨hMem, hUnfinished⟩ := List.mem_filter.mp hRequest
    refine ⟨hMem, (h.books.current request hMem).resolve_left ?_⟩
    simpa using hUnfinished
  rw [ServiceServerLink.outstanding, List.length_append]
  cases hWrite : s.writeBuffer with
  | some writing =>
    have hStage := h.stands.writeBuffer.symm.trans hWrite
    cases stage with
    | writing request =>
      cases hStage
      have hNone : (s.sent.filter fun request => !(s.info request.call).finished) = [] := by
        rw [List.eq_nil_iff_forall_not_mem]
        intro other hOther
        obtain ⟨hMem, hCurrent⟩ := hOpen other hOther
        have hSame : writing.call = other.call := Option.some.inj (h.stands.currentCall.symm.trans hCurrent)
        exact hApart other.call (List.mem_map_of_mem hMem) writing.call List.mem_cons_self hSame.symm
      simp [hNone]
    | _ => cases hStage
  | none =>
    have hDistinct : ((s.sent.filter fun request => !(s.info request.call).finished).map Request.call).Nodup :=
      hSent.sublist ((List.filter_sublist).map Request.call)
    match hList : s.sent.filter fun request => !(s.info request.call).finished with
    | [] => simp [hList]
    | [_] => simp [hList]
    | first :: second :: rest =>
      rw [hList] at hOpen hDistinct
      have hFirst := (hOpen first List.mem_cons_self).2
      have hSecond := (hOpen second (List.mem_cons_of_mem _ List.mem_cons_self)).2
      have hSame : first.call = second.call := Option.some.inj (hFirst.symm.trans hSecond)
      simp [hSame] at hDistinct

/-- On a live link one request at a time is on its way, in the order of the queue, and calls return
the answers to their own requests. -/
theorem service_calls_matched {s : ServiceServerLink ρ} (hReach : (system ρ).Reachable s)
    (hLive : s.dropped = false) :
    s.outstanding.length ≤ 1 ∧ s.sent.map Request.call <+: s.queued ∧
      ∀ i result, s.caller i = .returned result → Answered s i result := by
  obtain ⟨stage, h⟩ := exists_live hReach hLive
  refine ⟨h.outstanding_le, ?_, fun i result => h.answered⟩
  rw [h.books.queued, List.append_assoc]
  exact List.prefix_append _ _

/-! ## Two calls at once -/

def twoCalls : List (Label Nat) :=
  [.onHeaderWritten, .receiveHeader true, .lock .reader, .act .reader, .call 7, .call 8,
    .lock (.caller 0), .act (.caller 0), .lock (.caller 1), .act (.caller 1),
    .lock (.caller 0), .act (.caller 0), .lock (.caller 0), .act (.caller 0), .act (.caller 0),
    .transmit, .onRequestWritten, .answer ⟨1, [5], by decide⟩,
    .receive, .lock .reader, .act .reader, .receive, .lock .reader, .act .reader,
    .lock .reader, .lockFinished .reader, .act .reader,
    .lock .reader, .act .reader, .lock .reader, .act .reader, .act .reader,
    .transmit, .onRequestWritten, .answer ⟨0, [6], by decide⟩,
    .receive, .lock .reader, .act .reader, .receive, .lock .reader, .act .reader,
    .lock .reader, .lockFinished .reader, .act .reader, .lock .reader, .act .reader,
    .lockFinished (.caller 0), .act (.caller 0), .act (.caller 0),
    .lockFinished (.caller 1), .act (.caller 1), .act (.caller 1)]

def afterTwoCalls : ServiceServerLink Nat := ((system Nat).run (start true 0) twoCalls).getD (start true 0)

theorem twoCalls_reachable : (system Nat).Reachable afterTwoCalls := by
  have hRun : (system Nat).run (start true 0) twoCalls = some afterTwoCalls := rfl
  exact Machine.Reachable.run (.init ⟨true, 0, rfl⟩) hRun

theorem service_calls_matched_sample :
    (afterTwoCalls.caller 0 = .returned true ∧ afterTwoCalls.caller 1 = .returned false) ∧
      afterTwoCalls.outstanding.length ≤ 1 ∧ afterTwoCalls.sent.map Request.call <+: afterTwoCalls.queued ∧
        ∀ i result, afterTwoCalls.caller i = .returned result → Answered afterTwoCalls i result :=
  ⟨⟨rfl, rfl⟩, service_calls_matched twoCalls_reachable rfl⟩

end XcRos.Libros.Service
