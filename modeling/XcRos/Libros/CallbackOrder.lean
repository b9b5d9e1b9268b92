import Mathlib
import XcRos.Foundation.Machine
import XcRos.Libros.CallbackThread

/-! # The order of the callbacks of one thread

A single thread adds callbacks and calls them, and so does every callback that it runs; all are ready, and none
is removed. A callback is known by the number of its addition. `tls->callbacks` is a deque: an append to it may
invalidate `cb_it`, and what is done with such an iterator is undefined.
-/

namespace XcRos.Libros.CallbackOrder

open XcRos.Foundation CallbackThread

/-- `dangling` is set while `cb_it` is not valid, `undefined` when it has been used all the same. `started` has
every start in its turn, `again` what has returned `TryAgain`, and `outer` what was stored when the last
`callAvailable` that is not inside of another was called, with the number of starts until then. -/
structure State where
  queue : CallbackQueue Nat
  thread : Thread Nat Unit
  dangling : Bool
  undefined : Bool
  added : Nat
  started : List Nat
  again : List Nat
  outer : List Nat
  since : Nat

def State.start : State := ⟨.start, .start, false, false, 0, [], [], [], 0⟩

/-- `moved` is whether the append, if there is one, invalidates the iterators of the deque. -/
inductive Label where
  | add (removalId : Nat)
  | callOne (moved : Bool)
  | callAvailable (moved : Bool)
  | advance
  | finish (result : CallResult)
deriving DecidableEq, Repr

def starts : List (Frame Nat Unit) → List Nat
  | .lookedUp _ info _ :: _ => if info.markedForRemoval then [] else [info.callback]
  | _ => []

def putsBack (result : CallResult) : List (Frame Nat Unit) → List Nat
  | .running _ info _ _ _ :: _ => if result = .tryAgain ∧ info.markedForRemoval = false then [info.callback] else []
  | _ => []

def inCallOneCB : List (Frame Nat Unit) → Bool
  | .callOneCB _ :: _ => true
  | _ => false

namespace State

variable (s : State)

/-- `cb_it` after an append; it is set anew when the list was empty. -/
def afterAppend (moved : Bool) (tls : TLS Nat) : Bool :=
  if s.thread.tls.callbacks.length < tls.callbacks.length then
    if s.thread.tls.callbacks.isEmpty then false else s.dangling || moved
  else s.dangling

def take (c : Call Nat) (moved : Bool) : State :=
  let next := s.thread.call s.queue c
  { s with queue := next.1, thread := next.2, dangling := s.afterAppend moved next.2.tls }

def callAvailable (moved : Bool) : State :=
  if s.thread.frames.any Frame.drains then s.take .callAvailable moved
  else
    { s.take .callAvailable moved with
      outer := s.queue.callbacks.map CallbackInfo.callback, since := s.started.length }

def add (removalId : Nat) : State :=
  let next := s.thread.call s.queue (.addCallback s.added removalId)
  { s with queue := next.1, thread := next.2, added := s.added + 1 }

/-- `callOneCB` sets the iterator to the beginning unless the call is recursive, and uses it. -/
def advance : Option State :=
  if inCallOneCB s.thread.frames && s.dangling && s.thread.tls.callingInThisThread != notCalling then
    some { s with undefined := true }
  else
    (s.thread.advance (fun _ => ()) 0 s.queue).map fun next =>
      { s with
        queue := next.1, thread := next.2
        dangling := if inCallOneCB s.thread.frames then false else s.dangling
        started := s.started ++ starts s.thread.frames }

def finish (result : CallResult) : Option State :=
  (s.thread.finish 0 result s.queue).map fun next =>
    { s with queue := next.1, thread := next.2, again := s.again ++ putsBack result s.thread.frames }

def step (s : State) (a : Label) : Option State :=
  if s.undefined then none
  else
    match a with
    | .add removalId => if s.thread.mayCall then some (s.add removalId) else none
    | .callOne moved => if s.thread.mayCall then some (s.take (.callOne fun _ => true) moved) else none
    | .callAvailable moved => if s.thread.mayCall then some (s.callAvailable moved) else none
    | .advance => s.advance
    | .finish result => s.finish result

end State

def system : Machine State Label where
  Init s := s = .start
  step := State.step

/-! ## First in, first out -/

def tags (infos : List (CallbackInfo Nat)) : List Nat := infos.map CallbackInfo.callback

/-- The callback that `addCallback` is about to store. -/
def adding : List (Frame Nat Unit) → List Nat
  | .addCallback info :: _ => [info.callback]
  | _ => []

/-- All callbacks: those that were started, those that the thread has popped, and those that are stored. -/
def State.line (s : State) : List Nat :=
  s.started ++ tags s.thread.tls.callbacks ++ tags s.queue.callbacks ++ adding s.thread.frames

/-- What has never returned `TryAgain` was started once and in the order in which it was added, or will be so; and
when an outermost `callAvailable` is over, it has started all that it found. -/
structure Fifo (s : State) : Prop where
  defined : s.undefined = false
  order : s.line.filter (· ∉ s.again) = (List.range s.added).filter (· ∉ s.again)
  outermost : s.thread.frames.any Frame.drains = false → ∀ k ∈ s.outer, k ∈ s.started.drop s.since

/-- The callback that returns `TryAgain` goes behind all that are stored. -/
def PutsBehind (s : State) (a : Label) (s' : State) : Prop :=
  match a with
  | .finish result => tags s'.queue.callbacks = tags s.queue.callbacks ++ putsBack result s.thread.frames ∧
      (result = .tryAgain → putsBack result s.thread.frames ≠ [])
  | _ => True

/-- Callbacks that are appended to others in the list of the thread leave `cb_it` valid. -/
def KeepsIterator (s : State) : Label → Prop
  | .callOne moved | .callAvailable moved =>
    s.queue.callbacks ≠ [] → s.thread.tls.callbacks ≠ [] → moved = false
  | .add _ | .advance | .finish _ => True

instance (s : State) : ∀ a, Decidable (KeepsIterator s a)
  | .callOne moved | .callAvailable moved =>
    inferInstanceAs (Decidable (s.queue.callbacks ≠ [] → s.thread.tls.callbacks ≠ [] → moved = false))
  | .add _ | .advance | .finish _ => .isTrue trivial

/-! ## The invariant -/

structure Good (q : CallbackQueue Nat) (info : CallbackInfo Nat) : Prop where
  unmarked : info.markedForRemoval = false
  registered : q.idInfo info.removalId ≠ none

def Clean (q : CallbackQueue Nat) : Frame Nat Unit → Prop
  | .addCallback info | .lookedUp _ info _ | .running _ info _ _ _ => Good q info
  | .callOneCB _ | .returned .. => True
  | .removeByID .. => False

structure Inv (s : State) : Prop where
  defined : s.undefined = false
  valid : s.dangling = false
  enabled : s.queue.enabled = true
  cbIt : s.thread.tls.cbIt = 0
  below : ∀ frame ∈ s.thread.frames.tail, frame.isRunning = true
  drained : (∀ frame ∈ s.thread.frames, frame.drains = false) →
    s.thread.tls.callbacks.length ≤ pending s.thread.frames
  stored : ∀ info ∈ s.thread.tls.callbacks ++ s.queue.callbacks, Good s.queue info
  clean : ∀ frame ∈ s.thread.frames, Clean s.queue frame
  looked : ∀ caller info idInfo rest, s.thread.frames = .lookedUp caller info idInfo :: rest →
    s.thread.tls.callbacks.head? = some info
  order : s.line.filter (· ∉ s.again) = (List.range s.added).filter (· ∉ s.again)
  outer : ∀ k ∈ s.outer, k ∈ tags s.thread.tls.callbacks ∧ s.thread.frames.any Frame.drains = true ∨
    k ∈ s.started.drop s.since
  since : s.since ≤ s.started.length

theorem Inv.start : Inv .start where
  defined := rfl
  valid := rfl
  enabled := rfl
  cbIt := rfl
  below frame hFrame := by cases hFrame
  drained _ := Nat.le_refl _
  stored info hInfo := by cases hInfo
  clean frame hFrame := by cases hFrame
  looked caller info idInfo rest hFrames := by cases hFrames
  order := rfl
  outer k hk := by cases hk
  since := Nat.le_refl _

theorem Inv.fifo {s : State} (h : Inv s) : Fifo s := by
  refine ⟨h.defined, h.order, fun hOver k hk => (h.outer k hk).resolve_left fun hWaits => ?_⟩
  cases hOver.symm.trans hWaits.2

/-! ## Calls -/

theorem Good.mono {q q' : CallbackQueue Nat} {info : CallbackInfo Nat} (h : Good q info)
    (hIds : ∀ id, q.idInfo id ≠ none → q'.idInfo id ≠ none) : Good q' info :=
  ⟨h.unmarked, hIds _ h.registered⟩

theorem Clean.mono {q q' : CallbackQueue Nat} {frame : Frame Nat Unit} (h : Clean q frame)
    (hIds : ∀ id, q.idInfo id ≠ none → q'.idInfo id ≠ none) : Clean q' frame := by
  cases frame with
  | addCallback info => exact Good.mono h hIds
  | removeByID removalId idInfo phase => exact h
  | callOneCB caller => trivial
  | lookedUp caller info idInfo => exact Good.mono h hIds
  | running caller info idInfo lastCalling place => exact Good.mono h hIds
  | returned caller result => trivial

theorem register_registers (q : CallbackQueue Nat) (removalId : Nat) :
    (q.register removalId).idInfo removalId ≠ none ∧
      ∀ id, q.idInfo id ≠ none → (q.register removalId).idInfo id ≠ none := by
  cases hId : q.idInfo removalId with
  | some idInfo =>
    have hSame : q.register removalId = q := by rw [CallbackQueue.register, hId]
    rw [hSame, hId]
    exact ⟨Option.some_ne_none _, fun _ h => h⟩
  | none =>
    simp only [CallbackQueue.register, hId, if_true]
    refine ⟨Option.some_ne_none _, fun id h => ?_⟩
    split
    · exact Option.some_ne_none _
    · exact h

theorem adding_of_running {frames : List (Frame Nat Unit)} (h : ∀ frame ∈ frames, frame.isRunning = true) :
    adding frames = [] := by
  cases frames with
  | nil => rfl
  | cons frame rest =>
    have hFrame := h frame List.mem_cons_self
    cases frame with
    | running => rfl
    | addCallback | removeByID | callOneCB | lookedUp | returned => cases hFrame

namespace Inv

variable {s : State}

theorem running (h : Inv s) (hMay : s.thread.mayCall = true) : ∀ frame ∈ s.thread.frames, frame.isRunning = true :=
  isRunning_of_mayCall hMay h.below

theorem holdsNone (h : Inv s) (hMay : s.thread.mayCall = true)
    (hDrains : ∀ frame ∈ s.thread.frames, frame.drains = false) : s.thread.tls.callbacks = [] := by
  have hLength := h.drained hDrains
  rw [pending_of_running (h.running hMay)] at hLength
  exact List.eq_nil_of_length_eq_zero (Nat.le_zero.mp hLength)

theorem add (h : Inv s) (hMay : s.thread.mayCall = true) (removalId : Nat) : Inv (s.add removalId) := by
  have hRunning := h.running hMay
  obtain ⟨hNew, hOld⟩ := register_registers s.queue removalId
  refine ⟨h.defined, h.valid, ?_, h.cbIt, hRunning, fun hAll => ?_, fun info hInfo => ?_, fun frame hFrame => ?_, ?_, ?_,
    h.outer, h.since⟩
  · have hEnabled : (s.queue.register removalId).enabled = s.queue.enabled := by
      rw [CallbackQueue.register]
      split <;> rfl
    exact hEnabled.trans h.enabled
  · have hNone := h.holdsNone hMay fun frame hFrame => hAll frame (List.mem_cons_of_mem _ hFrame)
    show s.thread.tls.callbacks.length ≤ _
    rw [hNone]
    exact Nat.zero_le _
  · have hStored : info ∈ s.thread.tls.callbacks ++ s.queue.callbacks := by
      have hSame := CallbackQueue.register_callbacks s.queue removalId
      exact hSame ▸ hInfo
    exact (h.stored info hStored).mono hOld
  · obtain rfl | hRest := List.mem_cons.mp hFrame
    · exact ⟨rfl, hNew⟩
    · exact (h.clean frame hRest).mono hOld
  · rintro caller info idInfo rest hFrames
    cases hFrames
  · have hLine : (s.add removalId).line = s.line ++ [s.added] := by
      have hSame : (s.queue.register removalId).callbacks = s.queue.callbacks := CallbackQueue.register_callbacks ..
      rw [State.line, State.line, adding_of_running hRunning, List.append_nil]
      show s.started ++ tags s.thread.tls.callbacks ++ tags (s.queue.register removalId).callbacks ++ _ = _
      rw [hSame]
      rfl
    rw [hLine]
    show (s.line ++ [s.added]).filter (· ∉ s.again) = (List.range (s.added + 1)).filter (· ∉ s.again)
    rw [List.filter_append, h.order, List.range_succ, List.filter_append]

theorem take (h : Inv s) (hMay : s.thread.mayCall = true) {infos rest : List (CallbackInfo Nat)}
    (hInfos : infos ≠ []) (hQueue : s.queue.callbacks = infos ++ rest) {caller : Caller} {calling : BitVec 64}
    {moved : Bool} (hMoved : s.thread.tls.callbacks ≠ [] → moved = false)
    (hOne : caller.drains = false → infos.length = 1) :
    Inv { s with
      queue := { s.queue with callbacks := rest, calling }
      thread := ⟨s.thread.tls.append infos, .callOneCB caller :: s.thread.frames⟩
      dangling := s.afterAppend moved (s.thread.tls.append infos) } := by
  have hRunning := h.running hMay
  have hLength : (s.thread.tls.append infos).callbacks.length = s.thread.tls.callbacks.length + infos.length :=
    length_append ..
  have hPos := List.length_pos_iff.mpr hInfos
  refine ⟨h.defined, ?_, h.enabled, append_cbIt infos h.cbIt, hRunning, fun hAll => ?_, fun info hInfo => ?_,
    fun frame hFrame => ?_, ?_, ?_, fun k hk => ?_, h.since⟩
  · show s.afterAppend moved (s.thread.tls.append infos) = false
    rw [State.afterAppend, if_pos (by omega)]
    split
    · rfl
    · rename_i hSome
      rw [h.valid, hMoved (by simpa using hSome)]
      rfl
  · have hNone := h.holdsNone hMay fun frame hFrame => hAll frame (List.mem_cons_of_mem _ hFrame)
    have hCaller : infos.length = 1 := hOne (hAll _ List.mem_cons_self)
    show (s.thread.tls.append infos).callbacks.length ≤ 1
    rw [hLength, hNone, List.length_nil, hCaller]
  · refine (h.stored info ?_).mono fun _ hId => hId
    rw [hQueue, ← List.append_assoc]
    exact hInfo
  · obtain rfl | hRest := List.mem_cons.mp hFrame
    · trivial
    · exact (h.clean frame hRest).mono fun _ hId => hId
  · rintro caller info idInfo rest hFrames
    cases hFrames
  · have hLine : s.started ++ tags (s.thread.tls.callbacks ++ infos) ++ tags rest ++ [] = s.line := by
      rw [State.line, adding_of_running hRunning, hQueue]
      simp only [tags, List.map_append, List.append_assoc]
    show (s.started ++ tags (s.thread.tls.callbacks ++ infos) ++ tags rest ++ []).filter _ = _
    rw [hLine]
    exact h.order
  · refine (h.outer k hk).imp_left fun ⟨hWaits, hDrains⟩ => ⟨?_, Bool.or_eq_true_iff.mpr (.inr hDrains)⟩
    show k ∈ tags (s.thread.tls.callbacks ++ infos)
    rw [tags, List.map_append]
    exact List.mem_append_left _ hWaits

theorem callOne (h : Inv s) (hMay : s.thread.mayCall = true) {moved : Bool} (hOk : KeepsIterator s (.callOne moved)) :
    Inv (s.take (.callOne fun _ => true) moved) := by
  cases hQueue : s.queue.callbacks with
  | nil =>
    have hSame : s.thread.call s.queue (.callOne fun _ => true) = ({ s.queue with callbacks := [] }, s.thread) := by
      simp only [Thread.call, h.enabled, if_true, hQueue, CallbackQueue.takeReady]
    have hState : s.take (.callOne fun _ => true) moved = s := by
      rw [State.take, hSame, State.afterAppend, if_neg (Nat.lt_irrefl _), ← hQueue]
    rw [hState]
    exact h
  | cons info rest =>
    have hGood := h.stored info (List.mem_append_right _ (hQueue ▸ List.mem_cons_self))
    have hTaken : s.thread.call s.queue (.callOne fun _ => true) =
        ({ s.queue with callbacks := rest, calling := s.queue.calling + 1 },
          ⟨s.thread.tls.append [info], .callOneCB .callOne :: s.thread.frames⟩) := by
      simp [Thread.call, h.enabled, hQueue, CallbackQueue.takeReady, hGood.unmarked]
    rw [State.take, hTaken]
    exact h.take hMay (List.cons_ne_nil info []) hQueue (hOk (by simp [hQueue])) fun _ => rfl

theorem callAvailable (h : Inv s) (hMay : s.thread.mayCall = true) {moved : Bool}
    (hOk : KeepsIterator s (.callAvailable moved)) : Inv (s.callAvailable moved) := by
  have hTake : Inv (s.take .callAvailable moved) ∧
      ∀ k ∈ tags s.queue.callbacks, k ∈ tags (s.take .callAvailable moved).thread.tls.callbacks ∧
        (s.take .callAvailable moved).thread.frames.any Frame.drains = true := by
    cases hQueue : s.queue.callbacks with
    | nil =>
      have hSame : s.thread.call s.queue .callAvailable = (s.queue, s.thread) := by simp [Thread.call, hQueue]
      have hState : s.take .callAvailable moved = s := by
        rw [State.take, hSame, State.afterAppend, if_neg (Nat.lt_irrefl _)]
      rw [hState]
      exact ⟨h, fun k (hk : k ∈ []) => absurd hk List.not_mem_nil⟩
    | cons info rest =>
      have hTaken : s.thread.call s.queue .callAvailable =
          ({ s.queue with
              callbacks := []
              calling := s.queue.calling + BitVec.ofNat 64 (s.thread.tls.append s.queue.callbacks).callbacks.length },
            ⟨s.thread.tls.append s.queue.callbacks, .callOneCB (.callAvailable 0) :: s.thread.frames⟩) := by
        simp [Thread.call, h.enabled, hQueue]
      have hSome : s.queue.callbacks ≠ [] := by simp [hQueue]
      rw [State.take, hTaken]
      refine ⟨h.take hMay hSome (List.append_nil _).symm (hOk hSome) (fun hNot => by cases hNot), fun k hk => ⟨?_, rfl⟩⟩
      show k ∈ tags (s.thread.tls.callbacks ++ s.queue.callbacks)
      rw [tags, List.map_append, hQueue]
      exact List.mem_append_right _ hk
  obtain ⟨hInv, hIn⟩ := hTake
  rw [State.callAvailable]
  split
  · exact hInv
  · exact { hInv with outer := fun k hk => .inl (hIn k hk), since := Nat.le_refl _ }

end Inv

/-! ## Going on -/

namespace Inv

variable {s : State} {frame : Frame Nat Unit} {rest : List (Frame Nat Unit)}

theorem below_of_cons (h : Inv s) (hFrames : s.thread.frames = frame :: rest) : ∀ f ∈ rest, f.isRunning = true := by
  have hBelow := h.below
  rw [hFrames] at hBelow
  exact hBelow

theorem noRemoval (h : Inv s) {removalId idInfo : Nat} {phase : RemovePhase}
    (hFrames : s.thread.frames = .removeByID removalId idInfo phase :: rest) : False :=
  h.clean (.removeByID removalId idInfo phase) (hFrames ▸ List.mem_cons_self)

theorem move (h : Inv s) (hFrames : s.thread.frames = frame :: rest) {queue : CallbackQueue Nat} {tls : TLS Nat}
    {frames : List (Frame Nat Unit)} (hCallbacks : queue.callbacks = s.queue.callbacks)
    (hIds : queue.idInfo = s.queue.idInfo) (hEnabled : queue.enabled = s.queue.enabled)
    (hTls : tls.callbacks = s.thread.tls.callbacks) (hIt : tls.cbIt = 0)
    (hNew : frames = rest ∨ ∃ new, frames = new :: rest ∧ Clean s.queue new ∧ new.drains = frame.drains ∧
      ∀ caller info idInfo, new = .lookedUp caller info idInfo → s.thread.tls.callbacks.head? = some info)
    (hDrained : (∀ f ∈ frames, f.drains = false) → frame.drains = false →
      s.thread.tls.callbacks.length ≤ pending (frame :: rest) → tls.callbacks.length ≤ pending frames)
    (hEnds : frames = rest → frame.drains = true → s.thread.tls.callbacks = [])
    (hAdding : adding frames = adding s.thread.frames) :
    Inv { s with queue, thread := ⟨tls, frames⟩, dangling := false } := by
  have hBelow := h.below_of_cons hFrames
  have hRest : ∀ f ∈ rest, Clean queue f := fun f hf =>
    (h.clean f (hFrames ▸ List.mem_cons_of_mem frame hf)).mono fun _ hId => hIds ▸ hId
  have hLine : s.started ++ tags tls.callbacks ++ tags queue.callbacks ++ adding frames = s.line := by
    rw [hTls, hCallbacks, hAdding]
    rfl
  have hOldDrained := h.drained
  rw [hFrames] at hOldDrained
  refine ⟨h.defined, rfl, hEnabled.trans h.enabled, hIt, ?_, fun hAll => ?_, fun info hInfo => ?_, ?_, ?_, ?_, ?_, h.since⟩
  · obtain rfl | ⟨new, rfl, -⟩ := hNew
    · exact fun f hf => hBelow f (List.mem_of_mem_tail hf)
    · exact hBelow
  · cases hFrame : frame.drains with
    | false =>
      refine hDrained hAll hFrame (hOldDrained fun f hf => ?_)
      obtain rfl | hf := List.mem_cons.mp hf
      · exact hFrame
      · obtain rfl | ⟨new, rfl, -⟩ := hNew
        · exact hAll f hf
        · exact hAll f (List.mem_cons_of_mem new hf)
    | true =>
      obtain hSame | ⟨new, rfl, -, hDrains, -⟩ := hNew
      · show tls.callbacks.length ≤ _
        rw [hTls, hEnds hSame hFrame]
        exact Nat.zero_le _
      · cases (hAll new List.mem_cons_self).symm.trans (hDrains.trans hFrame)
  · have hInfo : info ∈ tls.callbacks ++ queue.callbacks := hInfo
    rw [hTls, hCallbacks] at hInfo
    exact (h.stored info hInfo).mono fun _ hId => hIds ▸ hId
  · obtain rfl | ⟨new, rfl, hClean, -⟩ := hNew
    · exact hRest
    · intro f hf
      obtain rfl | hf := List.mem_cons.mp hf
      · exact hClean.mono fun _ hId => hIds ▸ hId
      · exact hRest f hf
  · rintro caller info idInfo rest' hOld
    show tls.callbacks.head? = some info
    rw [hTls]
    obtain rfl | ⟨new, rfl, -, -, hLooked⟩ := hNew
    · have hOld : frames = .lookedUp caller info idInfo :: rest' := hOld
      have hRunning := hBelow (.lookedUp caller info idInfo) (hOld ▸ List.mem_cons_self)
      cases hRunning
    · cases hOld
      exact hLooked caller info idInfo rfl
  · show (s.started ++ tags tls.callbacks ++ tags queue.callbacks ++ adding frames).filter _ = _
    rw [hLine]
    exact h.order
  · intro k hk
    refine (h.outer k hk).imp_left fun ⟨hWaits, hDrains⟩ => ?_
    show k ∈ tags tls.callbacks ∧ frames.any Frame.drains = true
    rw [hFrames, List.any_cons] at hDrains
    rw [hTls]
    refine ⟨hWaits, ?_⟩
    obtain hSame | ⟨new, rfl, -, hNew, -⟩ := hNew
    · cases hFrame : frame.drains with
      | false =>
        rw [hFrame, Bool.false_or] at hDrains
        exact hSame ▸ hDrains
      | true =>
        rw [hEnds hSame hFrame] at hWaits
        cases hWaits
    · rw [List.any_cons, hNew]
      exact hDrains

theorem push (h : Inv s) {info : CallbackInfo Nat} (hFrames : s.thread.frames = .addCallback info :: rest) :
    Inv { s with queue := s.queue.push info, thread := { s.thread with frames := rest }, dangling := false } := by
  have hBelow := h.below_of_cons hFrames
  have hPush : s.queue.push info = { s.queue with callbacks := s.queue.callbacks ++ [info] } := by
    rw [CallbackQueue.push, if_pos h.enabled]
  have hInfo : Good s.queue info := h.clean (.addCallback info) (hFrames ▸ List.mem_cons_self)
  rw [hPush]
  refine ⟨h.defined, rfl, h.enabled, h.cbIt, fun f hf => hBelow f (List.mem_of_mem_tail hf), fun hAll => ?_,
    fun other hOther => ?_, fun f hf => ?_, fun caller found idInfo rest' hOld => ?_, ?_, fun k hk => ?_, h.since⟩
  · have hOld := h.drained
    rw [hFrames] at hOld
    have hLength : s.thread.tls.callbacks.length ≤ 0 := by
      refine hOld fun f hf => ?_
      obtain rfl | hf := List.mem_cons.mp hf
      · rfl
      · exact hAll f hf
    exact Nat.le_trans hLength (Nat.zero_le _)
  · refine Good.mono (q := s.queue) ?_ fun _ hId => hId
    rw [← List.append_assoc] at hOther
    obtain hOther | hOther := List.mem_append.mp hOther
    · exact h.stored other hOther
    · rw [List.mem_singleton.mp hOther]
      exact hInfo
  · exact (h.clean f (hFrames ▸ List.mem_cons_of_mem _ hf)).mono fun _ hId => hId
  · have hOld : rest = .lookedUp caller found idInfo :: rest' := hOld
    cases hBelow (.lookedUp caller found idInfo) (hOld ▸ List.mem_cons_self)
  · have hLine : s.started ++ tags s.thread.tls.callbacks ++ tags (s.queue.callbacks ++ [info]) ++ adding rest = s.line := by
      rw [State.line, hFrames, adding_of_running hBelow]
      simp only [tags, adding, List.map_append, List.map_cons, List.map_nil, List.append_assoc, List.append_nil]
    show (s.started ++ tags s.thread.tls.callbacks ++ tags (s.queue.callbacks ++ [info]) ++ adding rest).filter _ = _
    rw [hLine]
    exact h.order
  · have hOld := h.outer k hk
    rw [hFrames] at hOld
    exact hOld

theorem start_callback (h : Inv s) {caller : Caller} {info : CallbackInfo Nat} {idInfo : Nat}
    (hFrames : s.thread.frames = .lookedUp caller info idInfo :: rest) (calling lastCalling : Nat) :
    Inv { s with
      queue := s.queue.lockShared idInfo 0
      thread := ⟨{ s.thread.tls.eraseIt with callingInThisThread := calling },
        .running caller info idInfo lastCalling () :: rest⟩
      dangling := false, started := s.started ++ [info.callback] } := by
  have hHead := h.looked caller info idInfo rest hFrames
  obtain ⟨waiting, hWaiting⟩ : ∃ waiting, s.thread.tls.callbacks = info :: waiting := by
    cases hCallbacks : s.thread.tls.callbacks with
    | nil =>
      rw [hCallbacks] at hHead
      cases hHead
    | cons first waiting =>
      rw [hCallbacks] at hHead
      cases hHead
      exact ⟨waiting, rfl⟩
  have hErase : s.thread.tls.eraseIt.callbacks = waiting := by
    rw [TLS.eraseIt, h.cbIt, hWaiting]
    rfl
  have hOldDrained := h.drained
  rw [hFrames, hWaiting] at hOldDrained
  have hBelow := h.below_of_cons hFrames
  refine ⟨h.defined, rfl, h.enabled, h.cbIt, hBelow, fun hAll => ?_, fun other hOther => ?_, fun f hf => ?_,
    (fun _ _ _ _ hOld => by cases hOld), ?_, fun k hk => ?_, ?_⟩
  · have hLength : waiting.length + 1 ≤ 1 := by
      refine hOldDrained fun f hf => ?_
      obtain rfl | hf := List.mem_cons.mp hf
      · exact hAll (.running caller info idInfo lastCalling ()) List.mem_cons_self
      · exact hAll f (List.mem_cons_of_mem _ hf)
    show s.thread.tls.eraseIt.callbacks.length ≤ 0
    rw [hErase]
    omega
  · have hOther : other ∈ s.thread.tls.eraseIt.callbacks ++ s.queue.callbacks := hOther
    rw [hErase] at hOther
    refine Good.mono (h.stored other ?_) fun _ hId => hId
    rw [hWaiting]
    exact List.mem_cons_of_mem info hOther
  · obtain rfl | hf := List.mem_cons.mp hf
    · have hGood : Good s.queue info := h.clean (.lookedUp caller info idInfo) (hFrames ▸ List.mem_cons_self)
      exact hGood.mono fun _ hId => hId
    · exact (h.clean f (hFrames ▸ List.mem_cons_of_mem _ hf)).mono fun _ hId => hId
  · have hLine : s.started ++ [info.callback] ++ tags waiting ++ tags s.queue.callbacks ++ [] = s.line := by
      rw [State.line, hFrames, hWaiting]
      simp only [tags, adding, List.map_cons, List.append_assoc, List.cons_append, List.nil_append]
    show (s.started ++ [info.callback] ++ tags s.thread.tls.eraseIt.callbacks ++ tags s.queue.callbacks ++ []).filter _ = _
    rw [hErase, hLine]
    exact h.order
  · have hOld := h.outer k hk
    show k ∈ tags s.thread.tls.eraseIt.callbacks ∧ _ ∨ k ∈ (s.started ++ [info.callback]).drop s.since
    rw [hErase, List.drop_append_of_le_length h.since, List.mem_append]
    rw [hWaiting, hFrames] at hOld
    obtain ⟨hIn, hDrains⟩ | hIn := hOld
    · obtain rfl | hIn := List.mem_cons.mp hIn
      · exact .inr (.inr List.mem_cons_self)
      · exact .inl ⟨hIn, hDrains⟩
    · exact .inr (.inl hIn)
  · show s.since ≤ (s.started ++ [info.callback]).length
    rw [List.length_append]
    exact Nat.le_add_right_of_le h.since

theorem order_putBack {line : List Nat} {again : List Nat} {added k : Nat}
    (h : line.filter (· ∉ again) = (List.range added).filter (· ∉ again)) :
    (line ++ [k]).filter (· ∉ again ++ [k]) = (List.range added).filter (· ∉ again ++ [k]) := by
  have hBoth : ∀ l : List Nat, l.filter (· ∉ again ++ [k]) = (l.filter (· ∉ again)).filter (· ≠ k) := by
    intro l
    rw [List.filter_filter]
    exact List.filter_congr fun i _ => by simp [and_comm]
  have hLast : [k].filter (· ∉ again ++ [k]) = [] := by simp
  rw [List.filter_append, hLast, List.append_nil, hBoth, hBoth, h]

theorem again_putBack (h : Inv s) {info : CallbackInfo Nat} {caller : Caller} {idInfo lastCalling : Nat}
    (hFrames : s.thread.frames = .running caller info idInfo lastCalling () :: rest)
    {tls : TLS Nat} (hTls : tls.callbacks = s.thread.tls.callbacks) (hIt : tls.cbIt = 0) :
    Inv { s with
      queue := { s.queue with callbacks := s.queue.callbacks ++ [info] }.unlockShared idInfo 0
      thread := ⟨tls, .returned caller .tryAgain :: rest⟩
      again := s.again ++ [info.callback] } := by
  have hGood : Good s.queue info := h.clean (.running caller info idInfo lastCalling ()) (hFrames ▸ List.mem_cons_self)
  have hBelow := h.below_of_cons hFrames
  have hOldDrained := h.drained
  rw [hFrames] at hOldDrained
  refine ⟨h.defined, h.valid, h.enabled, hIt, hBelow, fun hAll => ?_, fun other hOther => ?_, fun f hf => ?_,
    (fun _ _ _ _ hOld => by cases hOld), ?_, fun k hk => ?_, h.since⟩
  · show tls.callbacks.length ≤ 0
    rw [hTls]
    refine hOldDrained fun f hf => ?_
    obtain rfl | hf := List.mem_cons.mp hf
    · exact hAll (.returned caller .tryAgain) List.mem_cons_self
    · exact hAll f (List.mem_cons_of_mem _ hf)
  · have hOther : other ∈ tls.callbacks ++ (s.queue.callbacks ++ [info]) := hOther
    refine Good.mono (q := s.queue) ?_ fun _ hId => hId
    rw [hTls, ← List.append_assoc] at hOther
    obtain hOther | hOther := List.mem_append.mp hOther
    · exact h.stored other hOther
    · rw [List.mem_singleton.mp hOther]
      exact hGood
  · obtain rfl | hf := List.mem_cons.mp hf
    · trivial
    · exact (h.clean f (hFrames ▸ List.mem_cons_of_mem _ hf)).mono fun _ hId => hId
  · have hLine : s.started ++ tags tls.callbacks ++ tags (s.queue.callbacks ++ [info]) ++ [] = s.line ++ [info.callback] := by
      rw [State.line, hFrames, hTls]
      simp only [tags, adding, List.map_append, List.map_cons, List.map_nil, List.append_assoc, List.append_nil]
    show (s.started ++ tags tls.callbacks ++ tags (s.queue.callbacks ++ [info]) ++ []).filter _ = _
    rw [hLine]
    exact order_putBack h.order
  · have hOld := h.outer k hk
    rw [hFrames] at hOld
    show k ∈ tags tls.callbacks ∧ _ ∨ _
    rw [hTls]
    exact hOld

theorem finish (h : Inv s) {result : CallResult} {s' : State} (hStep : s.finish result = some s') :
    Inv s' ∧ PutsBehind s (.finish result) s' := by
  obtain ⟨next, hNext, rfl⟩ := Option.map_eq_some_iff.mp hStep
  simp only [Thread.finish] at hNext
  split at hNext
  · rename_i caller info idInfo lastCalling place rest hFrames
    have hGood : Good s.queue info := h.clean (.running caller info idInfo lastCalling place) (hFrames ▸ List.mem_cons_self)
    split at hNext
    · rename_i hAgain
      cases hNext
      have hPuts : putsBack result s.thread.frames = [info.callback] := by
        rw [hFrames, putsBack, if_pos hAgain]
      rw [PutsBehind, hPuts]
      refine ⟨h.again_putBack hFrames rfl h.cbIt, ?_, fun _ => List.cons_ne_nil _ _⟩
      show tags (s.queue.callbacks ++ [info]) = _
      rw [tags, List.map_append]
      rfl
    · rename_i hOther
      cases hNext
      have hPuts : putsBack result s.thread.frames = [] := by
        rw [hFrames, putsBack, if_neg hOther]
      rw [PutsBehind, hPuts, List.append_nil]
      refine ⟨?_, ?_, fun hAgain => absurd ⟨hAgain, hGood.unmarked⟩ hOther⟩
      · rw [h.valid]
        refine h.move hFrames rfl rfl rfl rfl h.cbIt (.inr ⟨_, rfl, trivial, rfl, fun _ _ _ hNew => by cases hNew⟩)
          (fun _ _ hLe => hLe) (fun hSame => absurd hSame (List.cons_ne_self _ _)) ?_
        rw [hFrames]
        rfl
      · rw [List.append_nil]
        rfl
  · cases hNext

theorem lookUp (h : Inv s) {caller : Caller} (hFrames : s.thread.frames = .callOneCB caller :: rest) :
    Inv { s with thread := Thread.lookUp s.queue s.thread.tls.enterCB caller rest, dangling := false } := by
  have hEnter : s.thread.tls.enterCB = s.thread.tls := enterCB_eq h.cbIt
  have hAdding : adding s.thread.frames = [] := by
    rw [hFrames]
    rfl
  rw [hEnter, Thread.lookUp]
  split
  · rename_i hEnd
    have hNone : s.thread.tls.callbacks.length ≤ 0 := by
      have hLength := List.getElem?_eq_none_iff.mp hEnd
      rwa [h.cbIt] at hLength
    refine h.move hFrames rfl rfl rfl rfl h.cbIt (.inr ⟨_, rfl, trivial, rfl, fun _ _ _ hNew => by cases hNew⟩)
      (fun _ _ _ => hNone) (fun hSame => absurd hSame (List.cons_ne_self _ _)) hAdding.symm
  · rename_i info hInfo
    rw [h.cbIt, ← List.head?_eq_getElem?] at hInfo
    have hGood := h.stored info (List.mem_append_left _ (List.mem_of_head? hInfo))
    split
    · rename_i idInfo hId
      refine h.move hFrames rfl rfl rfl rfl h.cbIt (.inr ⟨_, rfl, hGood, rfl, fun _ _ _ hNew => ?_⟩)
        (fun _ _ hLe => hLe) (fun hSame => absurd hSame (List.cons_ne_self _ _)) hAdding.symm
      cases hNew
      exact hInfo
    · rename_i hId
      exact absurd hId hGood.registered

theorem advance (h : Inv s) {s' : State} (hStep : s.advance = some s') : Inv s' := by
  rw [State.advance, h.valid, Bool.and_false, Bool.false_and, if_neg Bool.false_ne_true, ite_self] at hStep
  obtain ⟨next, hNext, rfl⟩ := Option.map_eq_some_iff.mp hStep
  simp only [Thread.advance] at hNext
  split at hNext
  · cases hNext
  · cases hNext
  · rename_i info rest hFrames
    cases hNext
    have hStarts : starts s.thread.frames = [] := by
      rw [hFrames]
      rfl
    rw [hStarts, List.append_nil]
    exact h.push hFrames
  · rename_i removalId idInfo rest hFrames
    exact (h.noRemoval hFrames).elim
  · rename_i removalId idInfo rest hFrames
    exact (h.noRemoval hFrames).elim
  · rename_i removalId idInfo rest hFrames
    exact (h.noRemoval hFrames).elim
  · rename_i removalId idInfo rest hFrames
    exact (h.noRemoval hFrames).elim
  · rename_i caller rest hFrames
    cases hNext
    have hStarts : starts s.thread.frames = [] := by
      rw [hFrames]
      rfl
    rw [hStarts, List.append_nil]
    exact h.lookUp hFrames
  · rename_i caller info idInfo rest hFrames
    have hGood : Good s.queue info := h.clean (.lookedUp caller info idInfo) (hFrames ▸ List.mem_cons_self)
    rw [if_neg (by simp [hGood.unmarked])] at hNext
    cases hNext
    have hStarts : starts s.thread.frames = [info.callback] := by
      rw [hFrames, starts, if_neg (by simp [hGood.unmarked])]
    rw [hStarts]
    exact h.start_callback hFrames _ _
  · rename_i result rest hFrames
    cases hNext
    have hStarts : starts s.thread.frames = [] := by
      rw [hFrames]
      rfl
    have hBelow := h.below_of_cons hFrames
    rw [hStarts, List.append_nil]
    refine h.move hFrames ?_ ?_ ?_ rfl h.cbIt (.inl rfl) (fun _ _ hLe => Nat.le_trans hLe (Nat.zero_le _))
      (fun _ hDrains => by cases hDrains) ?_
    · split <;> rfl
    · split <;> rfl
    · split <;> rfl
    · rw [hFrames, adding_of_running hBelow]
      rfl
  · rename_i called result rest hFrames
    have hStarts : starts s.thread.frames = [] := by
      rw [hFrames]
      rfl
    have hBelow := h.below_of_cons hFrames
    rw [hStarts, List.append_nil]
    split at hNext
    · rename_i hEmpty
      cases hNext
      refine h.move hFrames rfl rfl rfl rfl h.cbIt (.inl rfl) (fun _ hDrains => by cases hDrains)
        (fun _ _ => List.isEmpty_iff.mp hEmpty) ?_
      rw [hFrames, adding_of_running hBelow]
      rfl
    · cases hNext
      refine h.move hFrames rfl rfl rfl rfl h.cbIt (.inr ⟨_, rfl, trivial, rfl, fun _ _ _ hNew => by cases hNew⟩)
        (fun _ hDrains => by cases hDrains) (fun hSame => absurd hSame (List.cons_ne_self _ _)) ?_
      rw [hFrames]
      rfl

theorem step (h : Inv s) {a : Label} {s' : State} (hOk : KeepsIterator s a) (hStep : s.step a = some s') :
    Inv s' ∧ PutsBehind s a s' := by
  simp only [State.step, h.defined, Bool.false_eq_true, if_false] at hStep
  cases a with
  | add removalId =>
    dsimp only at hStep
    split at hStep
    · rename_i hMay
      cases hStep
      exact ⟨h.add hMay removalId, trivial⟩
    · cases hStep
  | callOne moved =>
    dsimp only at hStep
    split at hStep
    · rename_i hMay
      cases hStep
      exact ⟨h.callOne hMay hOk, trivial⟩
    · cases hStep
  | callAvailable moved =>
    dsimp only at hStep
    split at hStep
    · rename_i hMay
      cases hStep
      exact ⟨h.callAvailable hMay hOk, trivial⟩
    · cases hStep
  | advance => exact ⟨h.advance hStep, trivial⟩
  | finish result => exact h.finish hStep

end Inv

/-- As long as `cb_it` stays valid, the callbacks run first in, first out, for every nesting of calls. -/
theorem first_in_first_out {s : State} (h : system.ReachableWhen KeepsIterator s) :
    Fifo s ∧ ∀ a s', KeepsIterator s a → s.step a = some s' → PutsBehind s a s' := by
  have hInv : Inv s := h.invariant Inv (fun s (hInit : s = .start) => hInit ▸ .start)
    fun _ _ _ hInv hOk hStep => (hInv.step hOk hStep).1
  exact ⟨hInv.fifo, fun _ _ hOk hStep => (hInv.step hOk hStep).2⟩

/-! ## A callback that calls what it has added -/

def simple (k : Nat) : CallbackInfo Nat := ⟨k, 7, false⟩

/-- The first of two callbacks has added `n` more, and the second waits in the list of the thread. -/
def crowd (n : Nat) : State where
  queue := ⟨(List.range' 2 n).map simple, 2, true, fun id => if id = 7 then some 0 else none, [⟨7, [0]⟩]⟩
  thread := ⟨⟨7, [simple 1], 0⟩, [.running (.callAvailable 0) (simple 0) 0 notCalling ()]⟩
  dangling := false
  undefined := false
  added := 2 + n
  started := [0]
  again := []
  outer := [0, 1]
  since := 0

theorem reachable_crowd (n : Nat) : system.Reachable (crowd n) := by
  induction n with
  | zero =>
    exact .run (.init rfl) (rfl : system.run .start [.add 7, .advance, .add 7, .advance, .callAvailable false, .advance,
      .advance] = some (crowd 0))
  | succ n ih =>
    refine .run ih (?_ : system.run (crowd n) [.add 7, .advance] = some (crowd (n + 1)))
    have hLast : (List.range' 2 (n + 1)).map simple = (List.range' 2 n).map simple ++ [simple (2 + n)] := by
      rw [List.range'_1_concat, List.map_append]
      rfl
    simp only [crowd, hLast]
    rfl

theorem iterator_used (n : Nat) : ∃ s, system.Reachable s ∧ s.added = 3 + n ∧ s.undefined = true := by
  have hFirst : (List.range' 2 (n + 1)).map simple = simple 2 :: (List.range' 3 n).map simple := rfl
  have hAdded : (crowd (n + 1)).added = 3 + n := by
    show 2 + (n + 1) = 3 + n
    omega
  refine ⟨{ (crowd (n + 1)).callAvailable true with undefined := true }, .run (reachable_crowd (n + 1))
    (?_ : system.run (crowd (n + 1)) [.callAvailable true, .advance] = some _), hAdded, rfl⟩
  simp only [crowd, hFirst]
  rfl

theorem iterator_invalidated : ∃ s, system.Reachable s ∧ s.added = 1002 ∧ ¬ Fifo s := by
  obtain ⟨s, hReach, hAdded, hUndefined⟩ := iterator_used 999
  exact ⟨s, hReach, hAdded, fun h => by cases h.defined.symm.trans hUndefined⟩

/-- The first callback of two adds a third one, calls by `callOne` and by `callAvailable`, and is put back. -/
def nestedCalls : List Label :=
  [.add 7, .advance, .add 8, .advance, .callAvailable true, .advance, .advance, .add 9, .advance, .callOne false,
    .advance, .advance, .finish .success, .advance, .callAvailable true, .finish .tryAgain, .advance, .advance, .advance,
    .finish .success, .advance]

theorem first_in_first_out_nestedCalls :
    ∃ s, system.runWhen KeepsIterator .start nestedCalls = some s ∧ s.started = [0, 1, 2] ∧ s.again = [0] ∧
      s.thread.frames = [] ∧ s.queue.callbacks = [⟨0, 7, false⟩] ∧ Fifo s := by
  refine ⟨_, rfl, rfl, rfl, rfl, rfl, (first_in_first_out (Machine.ReachableWhen.runWhen (.init rfl)
    (rfl : system.runWhen KeepsIterator .start nestedCalls = some _))).1⟩

end XcRos.Libros.CallbackOrder
