import Mathlib.Algebra.Ring.Nat
import XcRos.Foundation.Machine
import XcRos.Libros.CallbackQueue

/-! # One thread on a callback queue

The thread adds, calls and removes callbacks, and so does every callback that it runs. `calling_` is compared with
the callbacks that the thread has popped and is not finished with.
-/

namespace XcRos.Libros

open XcRos.Foundation

namespace CallbackQueue

variable {κ : Type}

def enable (q : CallbackQueue κ) : CallbackQueue κ := { q with enabled := true }

def disable (q : CallbackQueue κ) : CallbackQueue κ := { q with enabled := false }

def clear (q : CallbackQueue κ) : CallbackQueue κ := { q with callbacks := [] }

def isEmpty (q : CallbackQueue κ) : Bool := q.callbacks.isEmpty && q.calling == 0

end CallbackQueue

namespace CallbackThread

structure State (κ : Type) where
  queue : CallbackQueue κ
  thread : Thread κ Unit

inductive Label (κ : Type) where
  | call (c : Call κ)
  | enable
  | disable
  | clear
  | advance
  | finish (result : CallResult)

variable {κ ρ : Type}

namespace State

def start : State κ := ⟨.start, .start⟩

def of (next : CallbackQueue κ × Thread κ Unit) : State κ := ⟨next.1, next.2⟩

/-- A section of the queue that the thread enters by itself or from a callback. -/
def queueOnly (s : State κ) (f : CallbackQueue κ → CallbackQueue κ) : Option (State κ) :=
  if s.thread.mayCall then some { s with queue := f s.queue } else none

def step (s : State κ) : Label κ → Option (State κ)
  | .call c => if s.thread.mayCall then some (of (s.thread.call s.queue c)) else none
  | .enable => s.queueOnly CallbackQueue.enable
  | .disable => s.queueOnly CallbackQueue.disable
  | .clear => s.queueOnly CallbackQueue.clear
  | .advance => (s.thread.advance (fun _ => ()) 0 s.queue).map of
  | .finish result => (s.thread.finish 0 result s.queue).map of

end State

def system (κ : Type) : Machine (State κ) (Label κ) where
  Init s := s = .start
  step := State.step

/-! ## What is counted -/

end CallbackThread

namespace Caller

/-- The callbacks that `callAvailable` has called and not yet taken off `calling_`. -/
def called : Caller → Nat
  | .callOne => 0
  | .callAvailable called => called

def drains : Caller → Bool
  | .callOne => false
  | .callAvailable _ => true

end Caller

namespace Frame

variable {κ ρ : Type}

def counted : Frame κ ρ → Nat
  | .addCallback _ => 0
  | .removeByID .. => 0
  | .callOneCB caller => caller.called
  | .lookedUp caller _ _ => caller.called
  | .running caller _ _ _ _ => caller.called + 1
  | .returned caller result => caller.called + if result = .empty then 0 else 1

/-- The frame is of a `callAvailable`, which goes on until nothing popped is left. -/
def drains : Frame κ ρ → Bool
  | .addCallback _ => false
  | .removeByID .. => false
  | .callOneCB caller => caller.drains
  | .lookedUp caller _ _ => caller.drains
  | .running caller _ _ _ _ => caller.drains
  | .returned caller _ => caller.drains

def pending : Frame κ ρ → Bool
  | .callOneCB _ => true
  | .lookedUp .. => true
  | _ => false

def isRunning : Frame κ ρ → Bool
  | .running .. => true
  | _ => false

theorem pending_of_isRunning {frame : Frame κ ρ} (h : frame.isRunning = true) : frame.pending = false := by
  cases frame with
  | running => rfl
  | addCallback | removeByID | callOneCB | lookedUp | returned => cases h

end Frame

namespace CallbackThread

variable {κ ρ : Type}

/-- The popped callbacks that the thread is not finished with: they wait, they run, or `callAvailable` has called
them and will take them off `calling_` when it returns. -/
def counted (tls : TLS κ) (frames : List (Frame κ ρ)) : Nat :=
  tls.callbacks.length + (frames.map Frame.counted).sum

def pending (frames : List (Frame κ ρ)) : Nat := if frames.head?.any Frame.pending then 1 else 0

structure Accounted (q : CallbackQueue κ) (tls : TLS κ) (frames : List (Frame κ ρ)) : Prop where
  cbIt : tls.cbIt = 0
  below : ∀ frame ∈ frames.tail, frame.isRunning = true
  held : pending frames ≤ tls.callbacks.length
  drained : (∀ frame ∈ frames, frame.drains = false) → tls.callbacks.length ≤ pending frames
  calling : q.calling = BitVec.ofNat 64 (counted tls frames)

theorem isRunning_of_mayCall {th : Thread κ ρ} (hMay : th.mayCall = true)
    (hBelow : ∀ frame ∈ th.frames.tail, frame.isRunning = true) : ∀ frame ∈ th.frames, frame.isRunning = true := by
  cases hFrames : th.frames with
  | nil => simp
  | cons frame rest =>
    rw [hFrames] at hBelow
    intro f hf
    obtain rfl | hRest := List.mem_cons.mp hf
    · rw [Thread.mayCall, hFrames] at hMay
      cases f with
      | running => rfl
      | addCallback | removeByID | callOneCB | lookedUp | returned => cases hMay
    · exact hBelow f hRest

theorem pending_of_running {frames : List (Frame κ ρ)} (h : ∀ frame ∈ frames, frame.isRunning = true) :
    pending frames = 0 := by
  cases frames with
  | nil => rfl
  | cons frame rest =>
    have hFrame := Frame.pending_of_isRunning (h frame List.mem_cons_self)
    rw [pending, List.head?_cons, Option.any_some, hFrame]
    rfl

namespace Accounted

variable {q q' : CallbackQueue κ} {tls tls' : TLS κ} {frame frame' : Frame κ ρ} {rest frames : List (Frame κ ρ)}

theorem replace (h : Accounted q tls (frame :: rest)) (hIt : tls'.cbIt = 0)
    (hHeld : pending [frame'] ≤ tls'.callbacks.length) (hDrains : frame'.drains = frame.drains)
    (hDrained : frame.drains = false → tls.callbacks.length ≤ pending [frame] → tls'.callbacks.length ≤ pending [frame'])
    (hCalling : q'.calling = q.calling)
    (hCounted : tls'.callbacks.length + frame'.counted = tls.callbacks.length + frame.counted) :
    Accounted q' tls' (frame' :: rest) where
  cbIt := hIt
  below := h.below
  held := hHeld
  drained hAll := by
    have hFrame : frame.drains = false := hDrains ▸ hAll frame' List.mem_cons_self
    refine hDrained hFrame (h.drained fun f hf => ?_)
    obtain rfl | hRest := List.mem_cons.mp hf
    · exact hFrame
    · exact hAll f (List.mem_cons_of_mem frame' hRest)
  calling := by
    have hSum : counted tls' (frame' :: rest) = counted tls (frame :: rest) := by
      rw [counted, counted, List.map_cons, List.map_cons, List.sum_cons, List.sum_cons]
      omega
    rw [hCalling, h.calling, hSum]

theorem take (h : Accounted q tls (frame :: rest)) (hIt : tls'.cbIt = 0)
    (hLength : tls'.callbacks.length + 1 = tls.callbacks.length) (hDrains : frame'.drains = frame.drains)
    (hPending : frame'.pending = false) (hCounted : frame'.counted = frame.counted + 1)
    (hCalling : q'.calling = q.calling) : Accounted q' tls' (frame' :: rest) := by
  have hNone : pending [frame'] = 0 := by
    rw [pending, List.head?_cons, Option.any_some, hPending]
    rfl
  refine h.replace hIt ?_ hDrains (fun _ hLe => ?_) hCalling ?_
  · rw [hNone]
    exact Nat.zero_le _
  · have hOne : pending [frame] ≤ 1 := by
      rw [pending]
      split <;> decide
    omega
  · rw [hCounted]
    omega

theorem pop (h : Accounted q tls (frame :: rest)) (hPending : frame.pending = false)
    (hDrained : frame.drains = true → tls.callbacks = [])
    (hCalling : q'.calling = q.calling - BitVec.ofNat 64 frame.counted) : Accounted q' tls rest where
  cbIt := h.cbIt
  below f hf := h.below f (List.mem_of_mem_tail hf)
  held := by
    have hNone : pending rest = 0 := pending_of_running h.below
    rw [hNone]
    exact Nat.zero_le _
  drained hAll := by
    cases hDrains : frame.drains with
    | true =>
      rw [hDrained hDrains]
      exact Nat.zero_le _
    | false =>
      have hNone : pending (frame :: rest) = 0 := by
        rw [pending, List.head?_cons, Option.any_some, hPending]
        rfl
      have hLength : tls.callbacks.length ≤ pending (frame :: rest) := by
        apply h.drained
        intro f hf
        obtain rfl | hRest := List.mem_cons.mp hf
        · exact hDrains
        · exact hAll f hRest
      rw [hNone] at hLength
      exact Nat.le_trans hLength (Nat.zero_le _)
  calling := by
    have hSum : counted tls (frame :: rest) = counted tls rest + frame.counted := by
      rw [counted, counted, List.map_cons, List.sum_cons]
      omega
    rw [hCalling, h.calling, hSum, BitVec.ofNat_add, BitVec.add_sub_cancel]

theorem push (h : Accounted q tls frames) (hRunning : ∀ f ∈ frames, f.isRunning = true) (hIt : tls'.cbIt = 0)
    (hHeld : pending [frame] ≤ tls'.callbacks.length)
    (hDrained : frame.drains = false → tls.callbacks = [] → tls'.callbacks.length ≤ pending [frame])
    (hCalling : q'.calling = q.calling +
      BitVec.ofNat 64 (tls'.callbacks.length - tls.callbacks.length + frame.counted))
    (hLength : tls.callbacks.length ≤ tls'.callbacks.length) : Accounted q' tls' (frame :: frames) where
  cbIt := hIt
  below := hRunning
  held := hHeld
  drained hAll := by
    have hNone := h.drained fun f hf => hAll f (List.mem_cons_of_mem frame hf)
    rw [pending_of_running hRunning] at hNone
    exact hDrained (hAll frame List.mem_cons_self) (List.eq_nil_of_length_eq_zero (Nat.le_zero.mp hNone))
  calling := by
    have hSum : counted tls' (frame :: frames) =
        counted tls frames + (tls'.callbacks.length - tls.callbacks.length + frame.counted) := by
      rw [counted, counted, List.map_cons, List.sum_cons]
      omega
    rw [hCalling, h.calling, hSum, BitVec.ofNat_add (counted tls frames)]

theorem push_same (h : Accounted q tls frames) (hRunning : ∀ f ∈ frames, f.isRunning = true)
    (hCounted : frame.counted = 0) (hPending : frame.pending = false) (hCalling : q'.calling = q.calling) :
    Accounted q' tls (frame :: frames) := by
  have hNone : pending [frame] = 0 := by
    rw [pending, List.head?_cons, Option.any_some, hPending]
    rfl
  refine h.push hRunning h.cbIt ?_ (fun _ hNil => ?_) ?_ (Nat.le_refl _)
  · rw [hNone]
    exact Nat.zero_le _
  · rw [hNil]
    exact Nat.zero_le _
  · rw [hCounted, Nat.sub_self, hCalling]
    exact (BitVec.add_zero _).symm

theorem congr_calling (h : Accounted q tls frames) (hCalling : q'.calling = q.calling) : Accounted q' tls frames :=
  { h with calling := hCalling.trans h.calling }

end Accounted

/-! ## The steps -/

variable {q : CallbackQueue κ} {th : Thread κ ρ} {next : CallbackQueue κ × Thread κ ρ}

theorem append_cbIt {tls : TLS κ} (infos : List (CallbackInfo κ)) (h : tls.cbIt = 0) : (tls.append infos).cbIt = 0 := by
  rw [TLS.append, h]
  exact ite_self 0

theorem length_append (tls : TLS κ) (infos : List (CallbackInfo κ)) :
    (tls.append infos).callbacks.length = tls.callbacks.length + infos.length := List.length_append

theorem enterCB_eq {tls : TLS κ} (h : tls.cbIt = 0) : tls.enterCB = tls := by
  rw [TLS.enterCB, h, ite_self]
  cases tls
  cases h
  rfl

theorem length_eraseIt {tls : TLS κ} {info : CallbackInfo κ} (h : tls.callbacks[tls.cbIt]? = some info) :
    tls.eraseIt.callbacks.length + 1 = tls.callbacks.length := by
  obtain ⟨hLt, -⟩ := List.getElem?_eq_some_iff.mp h
  have hLength : tls.eraseIt.callbacks.length = tls.callbacks.length - 1 := List.length_eraseIdx_of_lt hLt
  omega

theorem accounted_call {c : Call κ} (h : Accounted q th.tls th.frames) (hMay : th.mayCall = true)
    (hNone : c = .callAvailable → q.enabled = true → q.callbacks ≠ [] → th.tls.callbacks = []) :
    Accounted (th.call q c).1 (th.call q c).2.tls (th.call q c).2.frames := by
  have hRunning := isRunning_of_mayCall hMay h.below
  cases c with
  | addCallback callback removalId =>
    have hCalling : (q.register removalId).calling = q.calling := by
      rw [CallbackQueue.register]
      split <;> rfl
    exact h.push_same hRunning rfl rfl hCalling
  | removeByID removalId =>
    simp only [Thread.call]
    split
    · exact h.push_same hRunning rfl rfl rfl
    · exact h
  | callOne ready =>
    simp only [Thread.call]
    split
    · split
      · have hLength := length_append th.tls
        refine h.push hRunning (append_cbIt _ h.cbIt) ?_ (fun _ hNil => ?_) ?_ ?_
        · rw [hLength]
          exact Nat.le_add_left 1 _
        · rw [hLength, hNil]
          exact Nat.le_refl 1
        · rw [hLength, Nat.add_sub_cancel_left]
          rfl
        · rw [hLength]
          exact Nat.le_add_right _ _
      · exact h.congr_calling rfl
    · exact h
  | callAvailable =>
    simp only [Thread.call]
    split
    · rename_i hTaken
      have hLength := length_append th.tls q.callbacks
      have hPos : 0 < q.callbacks.length := List.length_pos_iff.mpr hTaken.2
      refine h.push hRunning (append_cbIt _ h.cbIt) ?_ (fun hDrains => Bool.noConfusion hDrains) ?_ ?_
      · rw [hLength]
        exact Nat.le_trans hPos (Nat.le_add_left _ _)
      · rw [hNone rfl hTaken.1 hTaken.2, List.length_nil, Nat.sub_zero]
        rfl
      · rw [hLength]
        exact Nat.le_add_right _ _
    · exact h

theorem accounted_lookUp {tls : TLS κ} {caller : Caller} {rest : List (Frame κ ρ)}
    (h : Accounted q tls (.callOneCB caller :: rest)) :
    Accounted q (Thread.lookUp q tls.enterCB caller rest).tls (Thread.lookUp q tls.enterCB caller rest).frames := by
  rw [enterCB_eq h.cbIt, Thread.lookUp]
  split
  · rename_i hEnd
    have hLength := List.getElem?_eq_none_iff.mp hEnd
    rw [h.cbIt] at hLength
    exact absurd h.held (Nat.not_le.mpr (Nat.lt_succ_of_le hLength))
  · rename_i info hInfo
    have hLength := length_eraseIt hInfo
    split
    · exact h.replace h.cbIt h.held rfl (fun _ hLe => hLe) rfl rfl
    · exact h.take h.cbIt hLength rfl rfl rfl rfl

theorem accounted_advance {enter : κ → ρ} {t : Nat} (h : Accounted q th.tls th.frames)
    (hStep : th.advance enter t q = some next) : Accounted next.1 next.2.tls next.2.frames := by
  simp only [Thread.advance] at hStep
  split at hStep
  · cases hStep
  · cases hStep
  · rename_i info rest hFrames
    cases hStep
    rw [hFrames] at h
    refine h.pop rfl (fun hDrains => Bool.noConfusion hDrains) ?_
    rw [CallbackQueue.push]
    split <;> exact (BitVec.sub_zero _).symm
  · rename_i removalId idInfo rest hFrames
    cases hStep
    rw [hFrames] at h
    refine h.replace h.cbIt (Nat.zero_le _) rfl (fun _ hLe => hLe) ?_ rfl
    dsimp only
    split <;> rfl
  · rename_i removalId idInfo rest hFrames
    rw [hFrames] at h
    split at hStep
    · cases hStep
      exact h.replace h.cbIt (Nat.zero_le _) rfl (fun _ hLe => hLe) rfl rfl
    · cases hStep
  · rename_i removalId idInfo rest hFrames
    cases hStep
    rw [hFrames] at h
    have hLength : (th.tls.markForRemoval removalId).callbacks.length = th.tls.callbacks.length := List.length_map _
    refine h.replace h.cbIt (Nat.zero_le _) rfl (fun _ hLe => hLength ▸ hLe) ?_ (by rw [hLength]; rfl)
    dsimp only
    split <;> rfl
  · rename_i removalId idInfo rest hFrames
    cases hStep
    rw [hFrames] at h
    exact h.pop rfl (fun hDrains => Bool.noConfusion hDrains) (BitVec.sub_zero _).symm
  · rename_i caller rest hFrames
    cases hStep
    rw [hFrames] at h
    exact accounted_lookUp h
  · rename_i caller info idInfo rest hFrames
    rw [hFrames] at h
    have hHeld : 1 ≤ th.tls.callbacks.length := h.held
    have hLength : th.tls.eraseIt.callbacks.length + 1 = th.tls.callbacks.length := by
      have hErase : th.tls.eraseIt.callbacks.length = th.tls.callbacks.length - 1 :=
        List.length_eraseIdx_of_lt (h.cbIt ▸ hHeld)
      omega
    split at hStep
    · cases hStep
      exact h.take h.cbIt hLength rfl rfl rfl rfl
    · cases hStep
      exact h.take h.cbIt hLength rfl rfl rfl rfl
  · rename_i result rest hFrames
    cases hStep
    rw [hFrames] at h
    refine h.pop rfl (fun hDrains => Bool.noConfusion hDrains) ?_
    simp only [Frame.counted, Caller.called, Nat.zero_add]
    split
    · exact (BitVec.sub_zero _).symm
    · rfl
  · rename_i called result rest hFrames
    rw [hFrames] at h
    split at hStep
    · rename_i hEmpty
      cases hStep
      refine h.pop rfl (fun _ => List.isEmpty_iff.mp hEmpty) ?_
      simp only [Frame.counted, Caller.called]
      split <;> rfl
    · rename_i hMore
      cases hStep
      have hPos : 1 ≤ th.tls.callbacks.length :=
        List.length_pos_iff.mpr fun hNil => hMore (List.isEmpty_iff.mpr hNil)
      refine h.replace h.cbIt hPos rfl (fun hDrains => Bool.noConfusion hDrains) rfl ?_
      simp only [Frame.counted, Caller.called]
      split <;> rfl

theorem accounted_finish {t : Nat} {result : CallResult} (h : Accounted q th.tls th.frames)
    (hStep : th.finish t result q = some next) : Accounted next.1 next.2.tls next.2.frames := by
  simp only [Thread.finish] at hStep
  split at hStep
  · rename_i caller info idInfo lastCalling place rest hFrames
    rw [hFrames] at h
    split at hStep
    · cases hStep
      exact h.replace h.cbIt (Nat.zero_le _) rfl (fun _ hLe => hLe) rfl rfl
    · cases hStep
      exact h.replace h.cbIt (Nat.zero_le _) rfl (fun _ hLe => hLe) rfl rfl
  · cases hStep

/-! ## The runs -/

/-- `callAvailable` takes callbacks only when the thread holds none that it has popped before. -/
def holdsNone (s : State κ) : Label κ → Bool
  | .call .callAvailable => !s.queue.enabled || s.queue.callbacks.isEmpty || s.thread.tls.callbacks.isEmpty
  | _ => true

abbrev HoldsNone (s : State κ) (a : Label κ) : Prop := holdsNone s a = true

theorem accounted_queueOnly {s s' : State κ} {f : CallbackQueue κ → CallbackQueue κ}
    (h : Accounted s.queue s.thread.tls s.thread.frames) (hCalling : (f s.queue).calling = s.queue.calling)
    (hStep : s.queueOnly f = some s') : Accounted s'.queue s'.thread.tls s'.thread.frames := by
  rw [State.queueOnly] at hStep
  split at hStep
  · cases hStep
    exact h.congr_calling hCalling
  · cases hStep

theorem accounted_step {s s' : State κ} {a : Label κ} (h : Accounted s.queue s.thread.tls s.thread.frames)
    (hOk : HoldsNone s a) (hStep : s.step a = some s') : Accounted s'.queue s'.thread.tls s'.thread.frames := by
  cases a with
  | call c =>
    simp only [State.step] at hStep
    split at hStep
    · rename_i hMay
      cases hStep
      refine accounted_call h hMay ?_
      rintro rfl hEnabled hSome
      simpa [HoldsNone, holdsNone, hEnabled, hSome] using hOk
    · cases hStep
  | enable => exact accounted_queueOnly h rfl hStep
  | disable => exact accounted_queueOnly h rfl hStep
  | clear => exact accounted_queueOnly h rfl hStep
  | advance =>
    obtain ⟨next, hNext, rfl⟩ := Option.map_eq_some_iff.mp hStep
    exact accounted_advance h hNext
  | finish result =>
    obtain ⟨next, hNext, rfl⟩ := Option.map_eq_some_iff.mp hStep
    exact accounted_finish h hNext

theorem accounted_start : Accounted (κ := κ) (ρ := ρ) .start .start [] where
  cbIt := rfl
  below := by simp
  held := Nat.le_refl 0
  drained _ := Nat.le_refl 0
  calling := rfl

theorem accounted_of_holdsNone {s : State κ} (hReach : (system κ).ReachableWhen HoldsNone s) :
    Accounted s.queue s.thread.tls s.thread.frames := by
  refine hReach.invariant (fun s => Accounted s.queue s.thread.tls s.thread.frames) ?_ ?_
  · rintro _ rfl
    exact accounted_start
  · exact fun _ _ _ h hOk hStep => accounted_step h hOk hStep

/-- `calling_` is the number of callbacks that the thread has popped and is not finished with. -/
def Balanced (s : State κ) : Prop :=
  s.queue.calling = BitVec.ofNat 64 (counted s.thread.tls s.thread.frames) ∧
    (s.thread.frames = [] → s.thread.tls.callbacks = [] ∧ s.queue.calling = 0 ∧
      (s.queue.isEmpty = true ↔ s.queue.callbacks = []))

def nestedRun : List (Label Nat) :=
  [.call (.addCallback 0 7), .advance, .call (.addCallback 1 8), .advance, .call .callAvailable, .advance, .advance,
    .call (.addCallback 2 9), .advance, .call (.callOne fun _ => true), .advance, .advance, .finish .success, .advance,
    .finish .tryAgain, .advance, .advance, .advance, .finish .success, .advance]

/-- The first of two callbacks calls all that are available, when the second is still waiting in the thread. -/
def countedTwiceRun : List (Label Nat) :=
  [.call (.addCallback 0 7), .advance, .call (.addCallback 1 8), .advance, .call .callAvailable, .advance, .advance,
    .call (.addCallback 2 9), .advance, .call .callAvailable, .advance, .advance, .finish .success, .advance,
    .advance, .advance, .finish .success, .advance, .finish .success, .advance]

end CallbackThread

end XcRos.Libros
