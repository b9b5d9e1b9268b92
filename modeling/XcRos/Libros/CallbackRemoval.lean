import Mathlib.Logic.Function.Basic
import XcRos.Foundation.Machine
import XcRos.Libros.CallbackQueue

/-! # Callbacks that have been removed

Threads add callbacks under an id, call them, and remove those of an id, while the queue may be
disabled and cleared. Every `addCallback` adds a callback of its own, named by the time of the call.
-/

namespace XcRos.Libros.Removal

open XcRos.Foundation

/-- A call of `removeByID` that has returned. -/
structure Removal where
  removalId : Nat
  called : Nat
  returned : Nat
deriving DecidableEq, Repr

structure Start where
  callback : Nat
  removalId : Nat
  time : Nat
deriving DecidableEq, Repr

/-- `time` counts the steps, `addedAt` has the times at which callbacks entered the queue, and
`removing` the time at which a thread called `removeByID` last. -/
structure State where
  queue : CallbackQueue Nat
  threads : List (Thread Nat Unit)
  time : Nat
  addedAt : Nat → Nat
  removing : Nat → Nat
  removals : List Removal
  starts : List Start

inductive Label where
  | addCallback (t removalId : Nat)
  | removeByID (t removalId : Nat)
  | callOne (t : Nat) (ready : Nat → Bool)
  | callAvailable (t : Nat)
  | advance (t : Nat)
  | finish (t : Nat) (result : CallResult)
  | enable
  | disable
  | clear

namespace State

def moved (s : State) (t : Nat) (next : CallbackQueue Nat × Thread Nat Unit) : State :=
  { s with queue := next.1, threads := s.threads.set t next.2, time := s.time + 1 }

def call (s : State) (t : Nat) (c : Call Nat) : Option State :=
  match s.threads[t]? with
  | some th => if th.mayCall then some (s.moved t (th.call s.queue c)) else none
  | none => none

/-- What the history gets from a step of a thread that was at `frames`. -/
def noted (s s' : State) (t : Nat) : List (Frame Nat Unit) → State
  | .addCallback info :: _ => { s' with addedAt := Function.update s.addedAt info.callback s.time }
  | .removeByID removalId _ .marked :: _ =>
    { s' with removals := s.removals ++ [⟨removalId, s.removing t, s.time⟩] }
  | .lookedUp _ info _ :: _ =>
    if info.markedForRemoval then s'
    else { s' with starts := s.starts ++ [⟨info.callback, info.removalId, s.time⟩] }
  | _ => s'

def step (s : State) : Label → Option State
  | .addCallback t removalId => s.call t (.addCallback s.time removalId)
  | .removeByID t removalId =>
    (s.call t (.removeByID removalId)).map fun s' =>
      { s' with
        removing := Function.update s.removing t s.time
        removals :=
          if s.queue.idInfo removalId = none then s.removals ++ [⟨removalId, s.time, s.time⟩] else s.removals }
  | .callOne t ready => s.call t (.callOne ready)
  | .callAvailable t => s.call t .callAvailable
  | .advance t =>
    match s.threads[t]? with
    | some th => (th.advance (fun _ => ()) t s.queue).map fun next => s.noted (s.moved t next) t th.frames
    | none => none
  | .finish t result =>
    match s.threads[t]? with
    | some th => (th.finish t result s.queue).map (s.moved t)
    | none => none
  | .enable => some { s with queue := { s.queue with enabled := true }, time := s.time + 1 }
  | .disable => some { s with queue := { s.queue with enabled := false }, time := s.time + 1 }
  | .clear => some { s with queue := { s.queue with callbacks := [] }, time := s.time + 1 }

def stored (s : State) : List (CallbackInfo Nat) :=
  s.queue.callbacks ++ s.threads.flatMap fun th => th.tls.callbacks

def lookedUp (s : State) : List (CallbackInfo Nat) := s.threads.flatMap Thread.lookedUp

/-- The id that the next step of a thread takes out of the registered ones. -/
def erasing (s : State) (t : Nat) : Option Nat :=
  match s.threads[t]?.map Thread.frames with
  | some (.removeByID removalId _ .marked :: _) => some removalId
  | _ => none

def running (s : State) (t : Nat) : Option (CallbackInfo Nat) :=
  match s.threads[t]?.map Thread.frames with
  | some (.running _ info _ _ _ :: _) => some info
  | _ => none

end State

def system : Machine State Label where
  Init s := s.queue = .start ∧ (∀ th ∈ s.threads, th = .start) ∧ s.time = 0 ∧ s.removing = (fun _ => 0) ∧
    s.removals = [] ∧ s.starts = []
  step := State.step

/-! ## The property, and when it holds -/

def Removed (s : State) (info : CallbackInfo Nat) : Prop :=
  ∃ r ∈ s.removals, r.removalId = info.removalId ∧ s.addedAt info.callback < r.called

def RemovalFinal (s : State) : Prop :=
  ∀ e ∈ s.starts, ∀ r ∈ s.removals, r.removalId = e.removalId → s.addedAt e.callback < r.called →
    e.time < r.returned

/-- Some thread is going to start a callback that was added before `called`. -/
def AboutToStart (s : State) (removalId called : Nat) : Prop :=
  ∃ info ∈ s.lookedUp, info.removalId = removalId ∧ info.markedForRemoval = false ∧
    s.addedAt info.callback < called

instance (s : State) (info : CallbackInfo Nat) : Decidable (Removed s info) :=
  inferInstanceAs (Decidable (∃ r ∈ s.removals, _ ∧ _))

instance (s : State) (removalId called : Nat) : Decidable (AboutToStart s removalId called) :=
  inferInstanceAs (Decidable (∃ info ∈ s.lookedUp, _ ∧ _ ∧ _))

/-- An id is registered anew only when no removed callback of it is stored; `removeByID` returns when
no thread is about to start one of the callbacks that it removes; and a callback that has removed
itself is put back only while its id is not registered. -/
def Timely (s : State) : Label → Prop
  | .addCallback _ removalId => s.queue.idInfo removalId = none →
    ∀ info ∈ s.stored, info.removalId = removalId → info.markedForRemoval = false → ¬ Removed s info
  | .removeByID _ removalId => s.queue.idInfo removalId = none → ¬ AboutToStart s removalId s.time
  | .advance t => ∀ removalId ∈ s.erasing t, ¬ AboutToStart s removalId (s.removing t)
  | .finish t .tryAgain => ∀ info ∈ s.running t, Removed s info → s.queue.idInfo info.removalId = none
  | _ => True

instance : ∀ (s : State) (a : Label), Decidable (Timely s a)
  | s, .addCallback _ removalId =>
    inferInstanceAs (Decidable (_ → ∀ info ∈ s.stored, info.removalId = removalId →
      info.markedForRemoval = false → ¬ Removed s info))
  | s, .removeByID _ removalId => inferInstanceAs (Decidable (_ → ¬ AboutToStart s removalId s.time))
  | s, .advance t =>
    inferInstanceAs (Decidable (∀ removalId ∈ s.erasing t, ¬ AboutToStart s removalId (s.removing t)))
  | s, .finish t .tryAgain =>
    inferInstanceAs (Decidable (∀ info ∈ s.running t, Removed s info → s.queue.idInfo info.removalId = none))
  | _, .finish _ .success => instDecidableTrue
  | _, .finish _ .invalid => instDecidableTrue
  | _, .callOne .. => instDecidableTrue
  | _, .callAvailable _ => instDecidableTrue
  | _, .enable => instDecidableTrue
  | _, .disable => instDecidableTrue
  | _, .clear => instDecidableTrue

/-- Every callback that has been removed is out of reach: it has not been looked up, and where it is
stored its id is not registered. -/
structure Sound (s : State) : Prop where
  called : ∀ r ∈ s.removals, r.called < s.time
  removing : ∀ t, s.removing t ≤ s.time
  stored : ∀ info ∈ s.stored, info.markedForRemoval = false → Removed s info →
    s.queue.idInfo info.removalId = none
  lookedUp : ∀ info ∈ s.lookedUp, info.markedForRemoval = false → ¬ Removed s info
  started : ∀ e ∈ s.starts, e.time < s.time
  final : RemovalFinal s

section Steps

variable {s : State} {t : Nat} {th : Thread Nat Unit} {next : CallbackQueue Nat × Thread Nat Unit}

theorem stored_own (hThread : s.threads[t]? = some th) {info : CallbackInfo Nat}
    (h : info ∈ s.queue.callbacks ∨ info ∈ th.tls.callbacks) : info ∈ s.stored := by
  obtain hQueue | hOwn := h
  · exact List.mem_append_left _ hQueue
  · exact List.mem_append_right _ (List.mem_flatMap.mpr ⟨th, List.mem_of_getElem? hThread, hOwn⟩)

theorem lookedUp_own (hThread : s.threads[t]? = some th) {info : CallbackInfo Nat} (h : info ∈ th.lookedUp) :
    info ∈ s.lookedUp :=
  List.mem_flatMap.mpr ⟨th, List.mem_of_getElem? hThread, h⟩

theorem stored_moved {info : CallbackInfo Nat} (h : info ∈ (s.moved t next).stored) :
    (info ∈ next.1.callbacks ∨ info ∈ next.2.tls.callbacks) ∨ info ∈ s.stored := by
  obtain hQueue | hThreads := List.mem_append.mp h
  · exact Or.inl (Or.inl hQueue)
  · obtain ⟨th', hMem, hInfo⟩ := List.mem_flatMap.mp hThreads
    obtain hOther | rfl := List.mem_or_eq_of_mem_set hMem
    · exact Or.inr (List.mem_append_right _ (List.mem_flatMap.mpr ⟨th', hOther, hInfo⟩))
    · exact Or.inl (Or.inr hInfo)

theorem lookedUp_moved {info : CallbackInfo Nat} (h : info ∈ (s.moved t next).lookedUp) :
    info ∈ next.2.lookedUp ∨ info ∈ s.lookedUp := by
  obtain ⟨th', hMem, hInfo⟩ := List.mem_flatMap.mp h
  obtain hOther | rfl := List.mem_or_eq_of_mem_set hMem
  · exact Or.inr (List.mem_flatMap.mpr ⟨th', hOther, hInfo⟩)
  · exact Or.inl hInfo

theorem Sound.moved (h : Sound s)
    (hStored : ∀ info, (info ∈ next.1.callbacks ∨ info ∈ next.2.tls.callbacks) ∨ info ∈ s.stored →
      info.markedForRemoval = false → Removed s info → next.1.idInfo info.removalId = none)
    (hLookedUp : ∀ info ∈ next.2.lookedUp, info.markedForRemoval = false → ¬ Removed s info) :
    Sound (s.moved t next) where
  called r hr := Nat.lt_succ_of_lt (h.called r hr)
  removing u := Nat.le_succ_of_le (h.removing u)
  stored info hInfo hUnmarked hRemoved := hStored info (stored_moved hInfo) hUnmarked hRemoved
  lookedUp info hInfo hUnmarked := by
    obtain hNew | hOld := lookedUp_moved hInfo
    · exact hLookedUp info hNew hUnmarked
    · exact h.lookedUp info hOld hUnmarked
  started e he := Nat.lt_succ_of_lt (h.started e he)
  final := h.final

theorem Sound.add (h : Sound s) (callback : Nat) :
    Sound { s with addedAt := Function.update s.addedAt callback s.time } := by
  have hKeeps (c called : Nat) (hCalled : called < s.time)
      (hLess : Function.update s.addedAt callback s.time c < called) : s.addedAt c < called := by
    by_cases hSame : c = callback
    · subst hSame
      rw [Function.update_self] at hLess
      omega
    · rwa [Function.update_of_ne hSame] at hLess
  have hRemoved (info : CallbackInfo Nat)
      (hNew : Removed { s with addedAt := Function.update s.addedAt callback s.time } info) : Removed s info := by
    obtain ⟨r, hr, hId, hLess⟩ := hNew
    exact ⟨r, hr, hId, hKeeps _ _ (h.called r hr) hLess⟩
  refine ⟨h.called, h.removing, ?_, ?_, h.started, ?_⟩
  · exact fun info hInfo hUnmarked hNew => h.stored info hInfo hUnmarked (hRemoved info hNew)
  · exact fun info hInfo hUnmarked hNew => h.lookedUp info hInfo hUnmarked (hRemoved info hNew)
  · exact fun e he r hr hId hLess => h.final e he r hr hId (hKeeps _ _ (h.called r hr) hLess)

theorem Sound.remove (h : Sound s) {r : Removal} (hCalled : r.called < s.time)
    (hReturned : ∀ e ∈ s.starts, e.time < r.returned) (hId : s.queue.idInfo r.removalId = none)
    (hNone : ¬ AboutToStart s r.removalId r.called) : Sound { s with removals := s.removals ++ [r] } := by
  have hCases (x : Removal) (hx : x ∈ s.removals ++ [r]) : x ∈ s.removals ∨ x = r :=
    (List.mem_append.mp hx).imp id List.mem_singleton.mp
  refine ⟨?_, h.removing, ?_, ?_, h.started, ?_⟩
  · intro x hx
    obtain hOld | rfl := hCases x hx
    · exact h.called x hOld
    · exact hCalled
  · rintro info hInfo hUnmarked ⟨x, hx, hSame, hLess⟩
    obtain hOld | rfl := hCases x hx
    · exact h.stored info hInfo hUnmarked ⟨x, hOld, hSame, hLess⟩
    · rw [← hSame]
      exact hId
  · rintro info hInfo hUnmarked ⟨x, hx, hSame, hLess⟩
    obtain hOld | rfl := hCases x hx
    · exact h.lookedUp info hInfo hUnmarked ⟨x, hOld, hSame, hLess⟩
    · exact hNone ⟨info, hInfo, hSame.symm, hUnmarked, hLess⟩
  · intro e he x hx hSame hLess
    obtain hOld | rfl := hCases x hx
    · exact h.final e he x hOld hSame hLess
    · exact hReturned e he

theorem Sound.start (h : Sound s) {e : Start} (hTime : e.time < s.time)
    (hLive : ∀ r ∈ s.removals, r.removalId = e.removalId → ¬ s.addedAt e.callback < r.called) :
    Sound { s with starts := s.starts ++ [e] } := by
  refine ⟨h.called, h.removing, h.stored, h.lookedUp, ?_, ?_⟩
  · intro x hx
    obtain hOld | hNew := List.mem_append.mp hx
    · exact h.started x hOld
    · rw [List.mem_singleton.mp hNew]
      exact hTime
  · intro x hx r hr hSame hLess
    obtain hOld | hNew := List.mem_append.mp hx
    · exact h.final x hOld r hr hSame hLess
    · rw [List.mem_singleton.mp hNew] at hSame hLess
      exact absurd hLess (hLive r hr hSame)

theorem Sound.call (h : Sound s) (hThread : s.threads[t]? = some th) (c : Call Nat)
    (hKeeps : ∀ callback removalId, c ≠ .addCallback callback removalId) :
    Sound (s.moved t (th.call s.queue c)) := by
  apply h.moved
  · intro info hInfo hUnmarked hRemoved
    rw [Thread.call_idInfo c hKeeps]
    obtain hNew | hOld := hInfo
    · exact h.stored info (stored_own hThread (Thread.call_stored c hNew)) hUnmarked hRemoved
    · exact h.stored info hOld hUnmarked hRemoved
  · rw [Thread.call_lookedUp]
    exact fun info hInfo => h.lookedUp info (lookedUp_own hThread hInfo)

theorem Sound.addCallback (h : Sound s) (hThread : s.threads[t]? = some th) {callback removalId : Nat}
    (hTimely : Timely s (.addCallback t removalId)) :
    Sound (s.moved t (th.call s.queue (.addCallback callback removalId))) := by
  apply h.moved
  · intro info hInfo hUnmarked hRemoved
    have hStored : info ∈ s.stored := by
      obtain hNew | hOld := hInfo
      · exact stored_own hThread (Thread.call_stored _ hNew)
      · exact hOld
    have hNone := h.stored info hStored hUnmarked hRemoved
    change (s.queue.register removalId).idInfo info.removalId = none
    rw [CallbackQueue.register_idInfo, hNone]
    by_cases hSame : info.removalId = removalId
    · rw [hSame] at hNone
      exact absurd hRemoved (hTimely hNone info hStored hSame hUnmarked)
    · exact Or.inl hSame
  · rw [Thread.call_lookedUp]
    exact fun info hInfo => h.lookedUp info (lookedUp_own hThread hInfo)

theorem Sound.finish (h : Sound s) (hThread : s.threads[t]? = some th) {result : CallResult}
    (hTimely : Timely s (.finish t result)) (hNext : th.finish t result s.queue = some next) :
    Sound (s.moved t next) := by
  obtain ⟨caller, own, idInfo, lastCalling, place, rest, hFrames, hStored, hLookedUp, hIdInfo⟩ :=
    Thread.finish_moved hNext
  apply h.moved
  · intro info hInfo hUnmarked hRemoved
    rw [hIdInfo]
    obtain hNew | hOld := hInfo
    · obtain hHere | ⟨rfl, rfl⟩ := hStored info hNew
      · exact h.stored info (stored_own hThread hHere) hUnmarked hRemoved
      · apply hTimely info _ hRemoved
        simp only [State.running, hThread, Option.map_some, hFrames, Option.mem_def]
    · exact h.stored info hOld hUnmarked hRemoved
  · rw [hLookedUp]
    exact fun info hInfo => h.lookedUp info (lookedUp_own hThread hInfo)

theorem Sound.advance (h : Sound s) (hThread : s.threads[t]? = some th)
    (hNext : th.advance (fun _ => ()) t s.queue = some next)
    (hAdded : ∀ info, th.frames.head? = some (.addCallback info) → ¬ Removed s info) :
    Sound (s.moved t next) := by
  have hMoved := Thread.advance_moved hNext
  apply h.moved
  · intro info hInfo hUnmarked hRemoved
    apply hMoved.idInfo
    obtain hNew | hOld := hInfo
    · obtain hHere | hOwn := hMoved.stored info hNew hUnmarked
      · exact h.stored info (stored_own hThread hHere) hUnmarked hRemoved
      · exact absurd hRemoved (hAdded info hOwn)
    · exact h.stored info hOld hUnmarked hRemoved
  · intro info hInfo hUnmarked hRemoved
    obtain hOld | ⟨hPopped, hSome⟩ := hMoved.lookedUp info hInfo
    · exact h.lookedUp info (lookedUp_own hThread hOld) hUnmarked hRemoved
    · exact hSome (h.stored info (stored_own hThread (Or.inr hPopped)) hUnmarked hRemoved)

theorem Sound.advance_noted (h : Sound s) (hThread : s.threads[t]? = some th)
    (hTimely : Timely s (.advance t)) (hNext : th.advance (fun _ => ()) t s.queue = some next) :
    Sound (s.noted (s.moved t next) t th.frames) := by
  unfold State.noted
  split
  · rename_i info rest hFrames
    apply (h.add info.callback).advance (t := t) hThread hNext
    rintro found hFound ⟨r, hr, _, hLess⟩
    rw [hFrames] at hFound
    cases hFound
    have hCalled := h.called r hr
    simp only [Function.update_self] at hLess
    omega
  · rename_i removalId idInfo rest hFrames
    have hMoved : Sound (s.moved t next) := by
      apply h.advance hThread hNext
      rw [hFrames]
      simp
    simp only [Thread.advance, hFrames, Option.some.injEq] at hNext
    subst hNext
    have hErasing : removalId ∈ s.erasing t := by
      simp only [State.erasing, hThread, Option.map_some, hFrames, Option.mem_def]
    refine hMoved.remove (r := ⟨removalId, s.removing t, s.time⟩) (Nat.lt_succ_of_le (h.removing t)) h.started
      (if_pos rfl) ?_
    rintro ⟨info, hInfo, hSame, hUnmarked, hLess⟩
    apply hTimely removalId hErasing
    refine ⟨info, ?_, hSame, hUnmarked, hLess⟩
    obtain hOwn | hOld := lookedUp_moved hInfo
    · apply lookedUp_own hThread
      rw [Thread.lookedUp, hFrames]
      exact hOwn
    · exact hOld
  · rename_i caller info idInfo rest hFrames
    have hMoved : Sound (s.moved t next) := by
      apply h.advance hThread hNext
      rw [hFrames]
      simp
    split
    · exact hMoved
    · rename_i hUnmarked
      apply hMoved.start (Nat.lt_succ_self s.time)
      intro r hr hSame hLess
      have hOwn : info ∈ th.lookedUp := by
        rw [Thread.lookedUp, hFrames]
        exact List.mem_cons_self
      exact h.lookedUp info (lookedUp_own hThread hOwn) (Bool.eq_false_iff.mpr hUnmarked) ⟨r, hr, hSame, hLess⟩
  · rename_i hOther _ _
    apply h.advance hThread hNext
    intro info hInfo
    obtain ⟨rest, hFrames⟩ := List.head?_eq_some_iff.mp hInfo
    exact absurd hFrames (hOther info rest)

theorem call_eq {s' : State} {c : Call Nat} (h : s.call t c = some s') :
    ∃ th, s.threads[t]? = some th ∧ s' = s.moved t (th.call s.queue c) := by
  rw [State.call] at h
  split at h
  · rename_i th hThread
    split at h
    · exact ⟨th, hThread, (Option.some.inj h).symm⟩
    · cases h
  · cases h

theorem sound_step {s' : State} {a : Label} (h : Sound s) (hTimely : Timely s a) (hStep : s.step a = some s') :
    Sound s' := by
  have hQueue (q : CallbackQueue Nat) (hIdInfo : q.idInfo = s.queue.idInfo)
      (hCallbacks : ∀ info ∈ q.callbacks, info ∈ s.queue.callbacks) :
      Sound { s with queue := q, time := s.time + 1 } := by
    refine ⟨fun r hr => Nat.lt_succ_of_lt (h.called r hr), fun u => Nat.le_succ_of_le (h.removing u), ?_,
      h.lookedUp, fun e he => Nat.lt_succ_of_lt (h.started e he), h.final⟩
    intro info hInfo hUnmarked hRemoved
    rw [hIdInfo]
    apply h.stored info _ hUnmarked hRemoved
    obtain hHere | hPopped := List.mem_append.mp hInfo
    · exact List.mem_append_left _ (hCallbacks info hHere)
    · exact List.mem_append_right _ hPopped
  cases a with
  | addCallback t removalId =>
    obtain ⟨th, hThread, rfl⟩ := call_eq hStep
    exact h.addCallback hThread hTimely
  | removeByID t removalId =>
    obtain ⟨moved, hCall, rfl⟩ := Option.map_eq_some_iff.mp hStep
    obtain ⟨th, hThread, rfl⟩ := call_eq hCall
    have hMoved := h.call hThread (.removeByID removalId) nofun
    have hNoted : Sound { s.moved t (th.call s.queue (.removeByID removalId)) with
        removing := Function.update s.removing t s.time } := by
      refine ⟨hMoved.called, ?_, hMoved.stored, hMoved.lookedUp, hMoved.started, hMoved.final⟩
      intro u
      by_cases hSame : u = t
      · subst hSame
        simp only [Function.update_self]
        exact Nat.le_succ s.time
      · simp only [Function.update_of_ne hSame]
        exact hMoved.removing u
    by_cases hNone : s.queue.idInfo removalId = none
    · rw [if_pos hNone]
      refine hNoted.remove (r := ⟨removalId, s.time, s.time⟩) (Nat.lt_succ_self s.time) h.started ?_ ?_
      · change (th.call s.queue (.removeByID removalId)).1.idInfo removalId = none
        rw [Thread.call_idInfo _ nofun, hNone]
      · rintro ⟨info, hInfo, hSame, hUnmarked, hLess⟩
        apply hTimely hNone
        refine ⟨info, ?_, hSame, hUnmarked, hLess⟩
        obtain hOwn | hOld := lookedUp_moved hInfo
        · rw [Thread.call_lookedUp] at hOwn
          exact lookedUp_own hThread hOwn
        · exact hOld
    · rw [if_neg hNone]
      exact hNoted
  | callOne t ready =>
    obtain ⟨th, hThread, rfl⟩ := call_eq hStep
    exact h.call hThread _ nofun
  | callAvailable t =>
    obtain ⟨th, hThread, rfl⟩ := call_eq hStep
    exact h.call hThread _ nofun
  | advance t =>
    simp only [State.step] at hStep
    split at hStep
    · rename_i th hThread
      obtain ⟨next, hNext, rfl⟩ := Option.map_eq_some_iff.mp hStep
      exact h.advance_noted hThread hTimely hNext
    · cases hStep
  | finish t result =>
    simp only [State.step] at hStep
    split at hStep
    · rename_i th hThread
      obtain ⟨next, hNext, rfl⟩ := Option.map_eq_some_iff.mp hStep
      exact h.finish hThread hTimely hNext
    · cases hStep
  | enable =>
    cases hStep
    exact hQueue _ rfl fun _ hInfo => hInfo
  | disable =>
    cases hStep
    exact hQueue _ rfl fun _ hInfo => hInfo
  | clear =>
    cases hStep
    exact hQueue _ rfl fun _ hInfo => absurd hInfo List.not_mem_nil

theorem sound_init (hInit : system.Init s) : Sound s := by
  obtain ⟨hQueue, hThreads, hTime, hRemoving, hRemovals, hStarts⟩ := hInit
  refine ⟨?_, ?_, ?_, ?_, ?_, ?_⟩
  · rw [hRemovals]
    exact fun _ hr => absurd hr List.not_mem_nil
  · intro t
    rw [hRemoving]
    exact Nat.zero_le s.time
  · rintro info _ _ ⟨r, hr, _⟩
    rw [hRemovals] at hr
    exact absurd hr List.not_mem_nil
  · rintro info _ _ ⟨r, hr, _⟩
    rw [hRemovals] at hr
    exact absurd hr List.not_mem_nil
  · rw [hStarts]
    exact fun _ he => absurd he List.not_mem_nil
  · rw [RemovalFinal, hStarts]
    exact fun _ he => absurd he List.not_mem_nil

end Steps

def sampleStart : State where
  queue := .start
  threads := List.replicate 2 .start
  time := 0
  addedAt := fun _ => 0
  removing := fun _ => 0
  removals := []
  starts := []

def reusedRun : List Label :=
  [.addCallback 0 7, .advance 0, .callAvailable 1, .removeByID 0 7, .advance 0, .advance 0, .advance 0, .advance 0,
    .addCallback 0 7, .advance 0, .advance 1, .advance 1]

def timelyRun : List Label :=
  [.addCallback 0 7, .advance 0, .callAvailable 1, .advance 1, .advance 1, .finish 1 .tryAgain, .advance 1,
    .removeByID 0 7, .advance 0, .advance 0, .advance 0, .advance 0, .addCallback 0 7, .advance 0,
    .callOne 1 fun _ => true, .advance 1, .advance 1]

end XcRos.Libros.Removal
