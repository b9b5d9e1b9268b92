import Mathlib
import XcRos.Foundation.Update
import XcRos.Libros.TimerManager

/-! # Where a timer is

The timer manager with the callbacks that run, the second half of `remove`, the tracked objects and the
exceptions of the arithmetic of times. A call of `add` or `setPeriod` in which a sum is out of range changes
nothing, and in `threadFunc` such a sum ends the process: neither is a step.
-/

namespace XcRos.Libros.TimerConservation

open XcRos.Foundation XcRos.Libros.Timers

/-- Whether `T - T` fits a `D`. -/
def subFits (time rhs : Int) : Prop :=
  -2147483648 ≤ (time - rhs).tdiv 1000000000 ∧ (time - rhs).tdiv 1000000000 ≤ 2147483647

instance (time rhs : Int) : Decidable (subFits time rhs) :=
  inferInstanceAs (Decidable (-2147483648 ≤ (time - rhs).tdiv 1000000000 ∧
    (time - rhs).tdiv 1000000000 ≤ 2147483647))

/-- The second half of `updateNext`, and whether it returns. The difference is printed to the debug log only. -/
def detectJump (now : Int) (debug : Bool) (info : TimerInfo) : TimerInfo × Bool :=
  match addTime info.nextExpected info.period with
  | none => (info, false)
  | some sum =>
    if sum < now then
      if debug ∧ ¬ subFits now info.nextExpected then (info, false) else ({ info with nextExpected := now }, true)
    else (info, true)

/-- `updateNext` as far as it comes, and whether it returns. -/
def tryUpdateNext (now : Int) (debug : Bool) (info : TimerInfo) : TimerInfo × Bool :=
  if info.oneshot then ({ info with nextExpected := parked }, true)
  else if info.nextExpected ≤ now then
    match addTime info.nextExpected info.period with
    | none => ({ info with lastExpected := info.nextExpected }, false)
    | some next => detectJump now debug { info with lastExpected := info.nextExpected, nextExpected := next }
  else detectJump now debug info

/-- The time that `updateNext` looks at in its second half. -/
def advanced (now : Int) (info : TimerInfo) : Int :=
  if info.nextExpected ≤ now then info.nextExpected + info.period else info.nextExpected

/-- No time that `updateNext` computes leaves the range of its type. -/
structure Fits (now : Int) (debug : Bool) (info : TimerInfo) : Prop where
  next : info.nextExpected ≤ now → fitsTime (info.nextExpected + info.period)
  sum : fitsTime (advanced now info + info.period)
  difference : debug = true → advanced now info + info.period < now → subFits now (advanced now info)

theorem detectJump_returns {now : Int} {debug : Bool} {info : TimerInfo} :
    (detectJump now debug info).2 = true ↔ fitsTime (info.nextExpected + info.period) ∧
      (debug = true → info.nextExpected + info.period < now → subFits now info.nextExpected) := by
  rw [detectJump, addTime]
  obtain hSum | hSum := Classical.em (fitsTime (info.nextExpected + info.period))
  · rw [if_pos hSum]
    dsimp only
    split
    · rename_i hLate
      split
      · rename_i hThrows
        simp only [Bool.false_eq_true, false_iff, not_and]
        exact fun _ h => hThrows.2 (h hThrows.1 hLate)
      · rename_i hReturns
        simp only [true_iff]
        exact ⟨hSum, fun hDebug _ => not_not.mp fun hNot => hReturns ⟨hDebug, hNot⟩⟩
    · rename_i hEarly
      simp only [true_iff]
      exact ⟨hSum, fun _ hLate => absurd hLate hEarly⟩
  · rw [if_neg hSum]
    simp only [Bool.false_eq_true, false_iff, not_and]
    exact fun h => absurd h hSum

theorem tryUpdateNext_returns {now : Int} {debug : Bool} {info : TimerInfo} :
    (tryUpdateNext now debug info).2 = true ↔ info.oneshot = true ∨ Fits now debug info := by
  rw [tryUpdateNext]
  split
  · rename_i hOneshot
    simp [hOneshot]
  · rename_i hOneshot
    have hBoth : Fits now debug info ↔ (info.nextExpected ≤ now → fitsTime (info.nextExpected + info.period)) ∧
        fitsTime (advanced now info + info.period) ∧ (debug = true →
          advanced now info + info.period < now → subFits now (advanced now info)) :=
      ⟨fun h => ⟨h.next, h.sum, h.difference⟩, fun h => ⟨h.1, h.2.1, h.2.2⟩⟩
    rw [or_iff_right hOneshot, hBoth]
    split
    · rename_i hDue
      rw [addTime, advanced, if_pos hDue]
      obtain hNext | hNext := Classical.em (fitsTime (info.nextExpected + info.period))
      · rw [if_pos hNext]
        refine detectJump_returns.trans ?_
        simp only [hDue, hNext, true_implies, true_and]
      · rw [if_neg hNext]
        simp only [Bool.false_eq_true, false_iff, not_and]
        exact fun h => absurd (h hDue) hNext
    · rename_i hDue
      rw [advanced, if_neg hDue, detectJump_returns]
      simp only [hDue, false_implies, true_and]

theorem keeps_detectJump (now : Int) (debug : Bool) : Timers.Keeps fun info => (detectJump now debug info).1 := by
  constructor
  · intro info
    simp only [detectJump]
    split
    · rfl
    · split
      · split <;> rfl
      · rfl
  · intro info
    simp only [detectJump]
    split
    · rfl
    · split
      · split <;> rfl
      · rfl

theorem keeps_tryUpdateNext (now : Int) (debug : Bool) : Timers.Keeps fun info => (tryUpdateNext now debug info).1 := by
  have hJump := keeps_detectJump now debug
  constructor
  · intro info
    simp only [tryUpdateNext]
    split
    · rfl
    · split
      · split
        · rfl
        · exact hJump.object _
      · exact hJump.object _
  · intro info
    simp only [tryUpdateNext]
    split
    · rfl
    · split
      · split
        · rfl
        · exact hJump.handle _
      · exact hJump.handle _

/-! ## The state -/

/-- What is fixed of a `TimerInfo` when it is made: where it lies, which is the id of its callbacks in the
callback queue, and whether it tracks an object. -/
structure Made where
  address : Nat
  callbackQueue : Nat
  tracks : Bool
deriving DecidableEq, Repr

/-- A call of `remove` that has given back its locks and not yet called `removeByID`. The caller is the timer
in whose callback it was made, if any. -/
structure Removal where
  removeId : Nat
  callbackQueue : Nat
  caller : Option Nat
deriving DecidableEq, Repr

/-- `running` are those of `queued` whose callback has been entered, `dead` the timers whose tracked object is
gone. -/
structure State where
  manager : TimerManager
  running : List Nat
  removing : List Removal
  dead : List Nat
  made : Nat → Made

def State.start : State := ⟨Timers.start, [], [], [], fun _ => ⟨0, 0, false⟩⟩

inductive Label where
  | create (now period : Int) (oneshot : Bool) (made : Made)
  | insert (info : TimerInfo)
  | remove (handle : Nat) (caller : Option Nat)
  /-- `gone` are the callbacks that `removeByID` finds, or leaves behind without their `IDInfo`. -/
  | removeByID (removal : Removal) (gone : List Nat)
  | setPeriod (handle : Nat) (period : Int) (reset : Bool) (now now' now'' : Int)
  | pass (check jumped now : Int) (clock : Nat → Int)
  | sleep (check now : Int)
  | call (object : Nat)
  | called (object : Nat) (real : Int)
  | schedule (object : Nat) (now : Int) (debug : Bool)
  | trackedGone (object : Nat)

namespace State

variable (s : State)

/-- A `TimerInfo` lies at the address, or a callback still has a weak pointer to it. -/
def occupied (address : Nat) : Bool :=
  (s.manager.timers ++ s.manager.adding).any (fun info => (s.made info.object).address == address) ||
    s.manager.queued.any fun object => (s.made object).address == address

def create (now period : Int) (oneshot : Bool) (made : Made) : State :=
  { s with
    manager := s.manager.create now period oneshot, made := Function.update s.made s.manager.objects made }

/-- `remove` up to the end of its locks. -/
def remove (handle : Nat) (caller : Option Nat) : State :=
  let removing := (s.manager.findTimer handle).toList.map fun info =>
    ⟨(s.made info.object).address, (s.made info.object).callbackQueue, caller⟩
  { s with manager := s.manager.remove handle, removing := s.removing ++ removing }

def concerns (removal : Removal) (object : Nat) : Bool :=
  (s.made object).address == removal.removeId && (s.made object).callbackQueue == removal.callbackQueue

def removeByID (removal : Removal) (gone : List Nat) : State :=
  { s with
    manager := { s.manager with queued := s.manager.queued.filter (!gone.contains ·) }
    removing := s.removing.erase removal }

/-- `TimerQueueCallback::call` up to the callback; without its timer or its tracked object it is `Invalid`. -/
def call (object : Nat) : State :=
  if s.manager.timers.any (·.object == object) && !s.dead.contains object then
    { s with running := s.running ++ [object] }
  else { s with manager := { s.manager with queued := s.manager.queued.erase object } }

/-- `TimerManager::schedule` up to `waiting_`. -/
def putBack (manager : TimerManager) (object : Nat) (now : Int) (debug : Bool) : TimerManager :=
  match manager.timers.find? (·.object == object) with
  | some info =>
    let updated := manager.update object fun info => (tryUpdateNext now debug info).1
    if (tryUpdateNext now debug info).2 then { updated with waiting := updated.waiting ++ [info.handle] }.sortWaiting
    else updated
  | none => manager

/-- The end of `TimerQueueCallback::call`, whether `schedule` returns or throws. -/
def schedule (object : Nat) (now : Int) (debug : Bool) : State :=
  { s with
    manager := putBack { s.manager with queued := s.manager.queued.erase object } object now debug
    running := s.running.erase object }

def step (s : State) : Label → Option State
  | .create now period oneshot made =>
    if fitsTime (now + period) ∧ s.occupied made.address = false then some (s.create now period oneshot made) else none
  | .insert info => if info ∈ s.manager.adding then some { s with manager := s.manager.insert info } else none
  | .remove handle caller => if ∀ object ∈ caller, object ∈ s.running then some (s.remove handle caller) else none
  | .removeByID removal gone =>
    -- the lock of the id waits for the callbacks that run, except for the caller's own
    if removal ∈ s.removing ∧ (∀ object ∈ s.running, s.concerns removal object → some object = removal.caller) ∧
        ∀ object ∈ gone, object ∈ s.manager.queued ∧ object ∉ s.running ∧ s.concerns removal object then
      some (s.removeByID removal gone)
    else none
  | .setPeriod handle period reset now now' now'' =>
    some { s with manager := s.manager.setPeriod handle period reset now now' now'' }
  | .pass check jumped now clock => some { s with manager := s.manager.pass check jumped now clock }
  | .sleep check now => some { s with manager := if check < s.manager.current then s.manager else { s.manager with current := now } }
  | .call object => if object ∈ s.manager.queued ∧ object ∉ s.running then some (s.call object) else none
  | .called object real =>
    if object ∈ s.running then
      some { s with manager := s.manager.update object fun info => { info with lastReal := real } }
    else none
  | .schedule object now debug => if object ∈ s.running then some (s.schedule object now debug) else none
  | .trackedGone object =>
    -- a callback that runs holds the object
    if (s.made object).tracks ∧ object ∉ s.running then some { s with dead := s.dead ++ [object] } else none

end State

def manager : Machine State Label where
  Init s := s = .start
  step := State.step

/-- Every timer that is there and may still be called is in one place, and only such timers wait that have not
been removed. -/
structure Conserved (s : State) : Prop where
  once : ∀ info ∈ s.manager.timers, info.object ∉ s.dead →
    s.manager.waiting.count info.handle + s.manager.queued.count info.object = 1
  running : ∀ object ∈ s.running, object ∈ s.manager.queued
  waiting : ∀ handle ∈ s.manager.waiting, ∃ info ∈ s.manager.timers, s.manager.findTimer handle = some info

def Removed (m : TimerManager) (object : Nat) : Prop :=
  object < m.objects ∧ object ∉ (m.timers ++ m.adding).map (·.object)

/-- No timer is put in under the handle of another, no time computed in `schedule` is out of range, and no call
of `removeByID` meets a timer that has been made at the address of the one it is about. -/
def Conserves (s : State) : Label → Prop
  | .insert info => info.handle ∉ s.manager.timers.map (·.handle)
  | .schedule object now debug =>
    ∀ info ∈ s.manager.timers, info.object = object → info.oneshot = true ∨ Fits now debug info
  | .removeByID _ gone => ∀ info ∈ s.manager.timers, info.object ∉ gone
  | _ => True

instance (now : Int) (debug : Bool) (info : TimerInfo) : Decidable (info.oneshot = true ∨ Fits now debug info) :=
  decidable_of_iff _ tryUpdateNext_returns

instance (s : State) : ∀ a, Decidable (Conserves s a)
  | .insert info => inferInstanceAs (Decidable (info.handle ∉ s.manager.timers.map (·.handle)))
  | .schedule object now debug =>
    inferInstanceAs (Decidable
      (∀ info ∈ s.manager.timers, info.object = object → info.oneshot = true ∨ Fits now debug info))
  | .removeByID _ gone => inferInstanceAs (Decidable (∀ info ∈ s.manager.timers, info.object ∉ gone))
  | .create _ _ _ _ | .remove _ _ | .setPeriod _ _ _ _ _ _ | .pass _ _ _ _ | .sleep _ _ | .call _ | .called _ _
  | .trackedGone _ => .isTrue trivial

/-! ## Steps of the manager -/

def Owned (dead : List Nat) (m : TimerManager) : Prop :=
  ∀ info ∈ m.timers, info.object ∉ dead → info.handle ∈ m.waiting ∨ info.object ∈ m.queued

namespace Owned

variable {dead : List Nat} {m : TimerManager}

theorem sortWaiting (h : Owned dead m) : Owned dead m.sortWaiting :=
  fun info hInfo hAlive => (h info hInfo hAlive).imp_left (List.mem_insertionSort _).mpr

theorem map (h : Owned dead m) {f : TimerInfo → TimerInfo} (hf : Timers.Keeps f) :
    Owned dead { m with timers := m.timers.map f } := by
  intro info hInfo hAlive
  obtain ⟨old, hOld, rfl⟩ := List.mem_map.mp hInfo
  rw [hf.object] at hAlive ⊢
  rw [hf.handle]
  exact h old hOld hAlive

theorem update (h : Owned dead m) {f : TimerInfo → TimerInfo} (hf : Timers.Keeps f) (object : Nat) :
    Owned dead (m.update object f) :=
  h.map (keeps_one hf object)

theorem insert (h : Owned dead m) (info : TimerInfo) : Owned dead (m.insert info) := by
  apply sortWaiting
  intro other hOther hAlive
  obtain hOld | hLast := List.mem_append.mp hOther
  · exact (h other hOld hAlive).imp_left (List.mem_append_left _)
  · rw [List.mem_singleton.mp hLast]
    exact .inl (List.mem_append_right _ List.mem_cons_self)

theorem remove (h : Owned dead m) (hPlaced : Placed m) (handle : Nat) : Owned dead (m.remove handle) := by
  intro info hInfo hAlive
  have hNe : info.handle ≠ handle := not_of_mem_eraseP (List.pairwise_map.mp hPlaced.handles) hInfo
  exact (h info (List.mem_of_mem_eraseP hInfo) hAlive).imp_left (List.mem_erase_of_ne hNe).mpr

theorem dequeue (h : Owned dead m) {queued : List Nat}
    (hKept : ∀ info ∈ m.timers, info.object ∉ dead → info.object ∈ m.queued → info.object ∈ queued) :
    Owned dead { m with queued } :=
  fun info hInfo hAlive => (h info hInfo hAlive).imp_right (hKept info hInfo hAlive)

theorem setPeriod (h : Owned dead m) (handle : Nat) (period : Int) (reset : Bool) (now now' now'' : Int) :
    Owned dead (m.setPeriod handle period reset now now' now'') := by
  rw [TimerManager.setPeriod]
  split
  · exact (h.update (keeps_setPeriod period reset now now' now'') _).sortWaiting
  · exact h

theorem fireFront (h : Owned dead m) (hPlaced : Placed m) {now : Int} {next : TimerManager}
    (hNext : m.fireFront now = some next) : Owned dead next := by
  simp only [TimerManager.fireFront] at hNext
  split at hNext
  · cases hNext
  · rename_i handle rest hWaiting
    split at hNext
    · rename_i first hFind
      split at hNext
      · cases hNext
        obtain ⟨hFirst, hHandle⟩ := (findTimer_eq_some_iff hPlaced.handles).mp hFind
        intro info hInfo hAlive
        obtain hWaits | hQueued := h info hInfo hAlive
        · rw [hWaiting] at hWaits
          obtain hFront | hRest := List.mem_cons.mp hWaits
          · have hSame : info = first :=
              List.inj_on_of_nodup_map hPlaced.handles hInfo hFirst (hFront.trans hHandle.symm)
            rw [hSame]
            exact .inr (List.mem_append_right _ List.mem_cons_self)
          · exact .inl hRest
        · exact .inr (List.mem_append_left _ hQueued)
      · cases hNext
    · cases hNext

theorem fire (clock : Nat → Int) (fuel : Nat) (h : Owned dead m) (hPlaced : Placed m) :
    Placed (m.fire clock fuel) ∧ Owned dead (m.fire clock fuel) := by
  induction fuel generalizing m with
  | zero => exact ⟨hPlaced, h⟩
  | succ fuel ih =>
    rw [TimerManager.fire]
    split
    · rename_i next hNext
      exact ih (h.fireFront hPlaced hNext) (hPlaced.fireFront hNext).1
    · exact ⟨hPlaced, h⟩

theorem pass (h : Owned dead m) (hPlaced : Placed m) (check jumped now : Int) (clock : Nat → Int) :
    Placed (m.pass check jumped now clock) ∧ Owned dead (m.pass check jumped now clock) := by
  simp only [TimerManager.pass]
  split
  · have hReset : Placed { m with timers := m.timers.map (.reset jumped) } := hPlaced.map (keeps_reset jumped)
    have hOwned : Owned dead { m with timers := m.timers.map (.reset jumped) } := h.map (keeps_reset jumped)
    exact fire clock _ hOwned { hReset with }
  · exact fire clock _ h { hPlaced with }

theorem putBack (h : Owned dead m) (hPlaced : Placed m) {object : Nat} (hQueued : object ∈ m.queued) {now : Int}
    {debug : Bool}
    (hFits : ∀ info ∈ m.timers, info.object = object → info.oneshot = true ∨ Fits now debug info) :
    Placed (State.putBack { m with queued := m.queued.erase object } object now debug) ∧
      Owned dead (State.putBack { m with queued := m.queued.erase object } object now debug) := by
  simp only [State.putBack]
  split
  · rename_i info hFind
    have hInfo : info ∈ m.timers := List.mem_of_find?_eq_some hFind
    have hObject : info.object = object := by simpa using List.find?_some hFind
    subst hObject
    have hKeeps := keeps_tryUpdateNext now debug
    rw [if_pos (tryUpdateNext_returns.mpr (hFits info hInfo rfl))]
    refine ⟨hPlaced.wait_again hInfo hQueued hKeeps, sortWaiting ?_⟩
    intro other hOther hAlive
    obtain ⟨old, hOld, rfl⟩ := List.mem_map.mp hOther
    rw [(keeps_one hKeeps info.object).object] at hAlive ⊢
    rw [(keeps_one hKeeps info.object).handle]
    obtain hWaits | hStill := h old hOld hAlive
    · exact .inl (List.mem_append_left _ hWaits)
    · obtain hSame | hOther := eq_or_ne old.object info.object
      · have hObjects := hPlaced.objects
        rw [List.map_append] at hObjects
        have hEq : old = info := List.inj_on_of_nodup_map (List.nodup_append.mp hObjects).1 hOld hInfo hSame
        exact .inl (List.mem_append_right _ (hEq ▸ List.mem_cons_self))
      · exact .inr ((List.mem_erase_of_ne hOther).mpr hStill)
  · rename_i hFind
    refine ⟨hPlaced.dequeue List.erase_sublist, h.dequeue fun info hInfo _ hStill => ?_⟩
    have hOther : info.object ≠ object := by simpa using List.find?_eq_none.mp hFind info hInfo
    exact (List.mem_erase_of_ne hOther).mpr hStill

end Owned

/-! ## Removed timers -/

def StaysRemoved (m m' : TimerManager) : Prop :=
  ∀ object, Removed m object → Removed m' object ∧ m'.queued.count object ≤ m.queued.count object

namespace StaysRemoved

variable {m m' m'' : TimerManager}

theorem refl : StaysRemoved m m := fun _ h => ⟨h, Nat.le_refl _⟩

theorem trans (h : StaysRemoved m m') (h' : StaysRemoved m' m'') : StaysRemoved m m'' := by
  intro object hRemoved
  obtain ⟨hFirst, hLess⟩ := h object hRemoved
  obtain ⟨hLast, hLess'⟩ := h' object hFirst
  exact ⟨hLast, Nat.le_trans hLess' hLess⟩

theorem of_subset (hObjects : m.objects ≤ m'.objects)
    (hSub : ∀ object ∈ (m'.timers ++ m'.adding).map (·.object),
      object ∈ (m.timers ++ m.adding).map (·.object) ∨ m.objects ≤ object)
    (hCount : ∀ object, object ∉ m.timers.map (·.object) → m'.queued.count object ≤ m.queued.count object) :
    StaysRemoved m m' := by
  rintro object ⟨hMade, hAway⟩
  refine ⟨⟨Nat.lt_of_lt_of_le hMade hObjects, fun hMem => ?_⟩, hCount object fun hMem => hAway ?_⟩
  · obtain hOld | hNew := hSub object hMem
    · exact hAway hOld
    · exact Nat.lt_irrefl _ (Nat.lt_of_lt_of_le hMade hNew)
  · rw [List.map_append]
    exact List.mem_append_left _ hMem

theorem map {f : TimerInfo → TimerInfo} (hf : Timers.Keeps f) : StaysRemoved m { m with timers := m.timers.map f } := by
  refine of_subset (Nat.le_refl _) (fun object hMem => ?_) fun _ _ => Nat.le_refl _
  have hSame : (m.timers.map f).map (·.object) = m.timers.map (·.object) := by
    rw [List.map_map]
    exact List.map_congr_left fun info _ => hf.object info
  rw [List.map_append] at hMem ⊢
  exact .inl (hSame ▸ hMem)

theorem create (now period : Int) (oneshot : Bool) : StaysRemoved m (m.create now period oneshot) := by
  refine of_subset (Nat.le_succ _) (fun object hMem => ?_) fun _ _ => Nat.le_refl _
  obtain ⟨info, hInfo, rfl⟩ := List.mem_map.mp hMem
  obtain hTimer | hAdding := List.mem_append.mp hInfo
  · exact .inl (List.mem_map_of_mem (List.mem_append_left _ hTimer))
  · obtain hOld | hNew := List.mem_append.mp hAdding
    · exact .inl (List.mem_map_of_mem (List.mem_append_right _ hOld))
    · rw [List.mem_singleton.mp hNew]
      exact .inr (Nat.le_refl _)

theorem insert {info : TimerInfo} (hMem : info ∈ m.adding) : StaysRemoved m (m.insert info) := by
  refine of_subset (Nat.le_refl _) (fun object hObject => ?_) fun _ _ => Nat.le_refl _
  have hPerm : (m.timers ++ [info] ++ m.adding.erase info).Perm (m.timers ++ m.adding) := by
    rw [List.append_assoc]
    exact (List.perm_cons_erase hMem).symm.append_left m.timers
  exact .inl ((hPerm.map _).mem_iff.mp hObject)

theorem remove (handle : Nat) : StaysRemoved m (m.remove handle) := by
  have hSub : List.Sublist (m.remove handle).timers m.timers := List.eraseP_sublist
  refine of_subset (Nat.le_refl _) (fun object hObject => ?_) fun _ _ => Nat.le_refl _
  exact .inl (((hSub.append_right _).map _).subset hObject)

theorem dequeue {queued : List Nat} (hSub : queued.Sublist m.queued) : StaysRemoved m { m with queued } :=
  of_subset (Nat.le_refl _) (fun _ hObject => .inl hObject) fun object _ => hSub.count_le object

theorem setPeriod (handle : Nat) (period : Int) (reset : Bool) (now now' now'' : Int) :
    StaysRemoved m (m.setPeriod handle period reset now now' now'') := by
  rw [TimerManager.setPeriod]
  split
  · exact map (keeps_one (keeps_setPeriod period reset now now' now'') _)
  · exact refl

theorem fireFront {now : Int} {next : TimerManager} (hNext : m.fireFront now = some next) : StaysRemoved m next := by
  simp only [TimerManager.fireFront] at hNext
  split at hNext
  · cases hNext
  · split at hNext
    · rename_i info hFind
      split at hNext
      · cases hNext
        refine of_subset (Nat.le_refl _) (fun _ hObject => .inl hObject) fun object hAway => ?_
        have hNe : info.object ≠ object := by
          rintro rfl
          exact hAway (List.mem_map_of_mem (List.mem_of_find?_eq_some hFind))
        rw [List.count_append, List.count_singleton, beq_eq_false_iff_ne.mpr hNe]
        exact Nat.le_refl _
      · cases hNext
    · cases hNext

theorem fire (clock : Nat → Int) (fuel : Nat) : StaysRemoved m (m.fire clock fuel) := by
  induction fuel generalizing m with
  | zero => exact refl
  | succ fuel ih =>
    rw [TimerManager.fire]
    split
    · rename_i next hNext
      exact (fireFront hNext).trans ih
    · exact refl

theorem pass (check jumped now : Int) (clock : Nat → Int) : StaysRemoved m (m.pass check jumped now clock) := by
  simp only [TimerManager.pass]
  split
  · exact (map (keeps_reset jumped)).trans (fire (m := { m with timers := _, current := now }) clock _)
  · exact fire (m := { m with current := now }) clock _

theorem putBack (object : Nat) (now : Int) (debug : Bool) : StaysRemoved m (State.putBack m object now debug) := by
  rw [State.putBack]
  split
  · dsimp only
    split
    · exact map (keeps_one (keeps_tryUpdateNext now debug) object)
    · exact map (keeps_one (keeps_tryUpdateNext now debug) object)
  · exact refl

end StaysRemoved

theorem staysRemoved_step {s s' : State} {a : Label} (hStep : s.step a = some s') :
    StaysRemoved s.manager s'.manager := by
  cases a with
  | create now period oneshot made =>
    obtain ⟨-, rfl⟩ := of_guard hStep
    exact .create now period oneshot
  | insert info =>
    obtain ⟨hMem, rfl⟩ := of_guard hStep
    exact .insert hMem
  | remove handle caller =>
    obtain ⟨-, rfl⟩ := of_guard hStep
    exact .remove handle
  | removeByID removal gone =>
    obtain ⟨-, rfl⟩ := of_guard hStep
    exact .dequeue List.filter_sublist
  | setPeriod handle period reset now now' now'' =>
    cases hStep
    exact .setPeriod handle period reset now now' now''
  | pass check jumped now clock =>
    cases hStep
    exact .pass check jumped now clock
  | sleep check now =>
    cases hStep
    dsimp only
    split
    · exact .refl
    · exact fun object h => ⟨h, Nat.le_refl _⟩
  | call object =>
    obtain ⟨-, rfl⟩ := of_guard hStep
    rw [State.call]
    split
    · exact .refl
    · exact .dequeue List.erase_sublist
  | called object real =>
    obtain ⟨-, rfl⟩ := of_guard hStep
    have hf : Timers.Keeps fun info : TimerInfo => { info with lastReal := real } := ⟨fun _ => rfl, fun _ => rfl⟩
    exact .map (keeps_one hf object)
  | schedule object now debug =>
    obtain ⟨-, rfl⟩ := of_guard hStep
    exact (StaysRemoved.dequeue List.erase_sublist).trans (.putBack object now debug)
  | trackedGone object =>
    obtain ⟨-, rfl⟩ := of_guard hStep
    exact .refl

/-! ## Whole runs -/

structure Inv (s : State) : Prop where
  placed : Placed s.manager
  owned : Owned s.dead s.manager
  running : ∀ object ∈ s.running, object ∈ s.manager.queued
  runningOnce : s.running.Nodup

theorem Inv.start : Inv .start where
  placed := placed_start
  owned info hInfo := by cases hInfo
  running object hObject := by cases hObject
  runningOnce := List.nodup_nil

theorem Inv.conserved {s : State} (h : Inv s) : Conserved s where
  once info hInfo hAlive := by
    obtain hWaits | hQueued := h.owned info hInfo hAlive
    · have hAway : info.object ∉ s.manager.queued := fun hQueued => h.placed.apart info hInfo hQueued hWaits
      rw [List.count_eq_one_of_mem h.placed.once hWaits, List.count_eq_zero.mpr hAway]
    · have hAway : info.handle ∉ s.manager.waiting := h.placed.apart info hInfo hQueued
      rw [List.count_eq_one_of_mem h.placed.queuedOnce hQueued, List.count_eq_zero.mpr hAway]
  running := h.running
  waiting handle hMem := by
    obtain ⟨info, hInfo, hHandle⟩ := h.placed.known handle hMem
    exact ⟨info, hInfo, (findTimer_eq_some_iff h.placed.handles).mpr ⟨hInfo, hHandle⟩⟩

namespace Inv

variable {s : State}

theorem withManager (h : Inv s) {m : TimerManager} (hPlaced : Placed m) (hOwned : Owned s.dead m)
    (hQueued : ∀ object ∈ s.manager.queued, object ∈ m.queued) : Inv { s with manager := m } where
  placed := hPlaced
  owned := hOwned
  running object hObject := hQueued object (h.running object hObject)
  runningOnce := h.runningOnce

theorem mem_fire {m : TimerManager} (clock : Nat → Int) (fuel : Nat) {object : Nat} (h : object ∈ m.queued) :
    object ∈ (m.fire clock fuel).queued := by
  induction fuel generalizing m with
  | zero => exact h
  | succ fuel ih =>
    rw [TimerManager.fire]
    split
    · rename_i next hNext
      apply ih
      simp only [TimerManager.fireFront] at hNext
      split at hNext
      · cases hNext
      · split at hNext
        · split at hNext
          · cases hNext
            exact List.mem_append_left _ h
          · cases hNext
        · cases hNext
    · exact h

theorem pass (h : Inv s) (check jumped now : Int) (clock : Nat → Int) :
    Inv { s with manager := s.manager.pass check jumped now clock } := by
  obtain ⟨hPlaced, hOwned⟩ := h.owned.pass h.placed check jumped now clock
  refine h.withManager hPlaced hOwned fun object hObject => ?_
  simp only [TimerManager.pass]
  split
  · exact mem_fire clock _ hObject
  · exact mem_fire clock _ hObject

theorem call (h : Inv s) {object : Nat} (hQueued : object ∈ s.manager.queued) (hNew : object ∉ s.running) :
    Inv (s.call object) := by
  rw [State.call]
  split
  · refine ⟨h.placed, h.owned, fun other hOther => ?_, ?_⟩
    · obtain hOld | hLast := List.mem_append.mp hOther
      · exact h.running other hOld
      · exact (List.mem_singleton.mp hLast) ▸ hQueued
    · exact h.runningOnce.append (List.nodup_singleton _) (List.disjoint_singleton.mpr hNew)
  · rename_i hInvalid
    refine ⟨h.placed.dequeue List.erase_sublist, h.owned.dequeue fun info hInfo hAlive hStill => ?_, fun other hOther => ?_,
      h.runningOnce⟩
    · have hOther : info.object ≠ object := by
        rintro rfl
        refine hInvalid (Bool.and_eq_true_iff.mpr ⟨List.any_eq_true.mpr ⟨info, hInfo, beq_self_eq_true _⟩, ?_⟩)
        simpa using hAlive
      exact (List.mem_erase_of_ne hOther).mpr hStill
    · have hOther' : other ≠ object := by
        rintro rfl
        exact hNew hOther
      exact (List.mem_erase_of_ne hOther').mpr (h.running other hOther)

theorem removeByID (h : Inv s) {removal : Removal} {gone : List Nat} (hGone : ∀ object ∈ gone, object ∉ s.running)
    (hAway : ∀ info ∈ s.manager.timers, info.object ∉ gone) : Inv (s.removeByID removal gone) := by
  have hKept : ∀ object ∈ s.manager.queued, object ∉ gone →
      object ∈ s.manager.queued.filter (!gone.contains ·) := by
    intro object hObject hStays
    exact List.mem_filter.mpr ⟨hObject, by simpa using hStays⟩
  refine ⟨h.placed.dequeue List.filter_sublist,
    h.owned.dequeue fun info hInfo _ hStill => hKept _ hStill (hAway info hInfo), fun object hObject => ?_, h.runningOnce⟩
  exact hKept object (h.running object hObject) fun hIn => hGone object hIn hObject

theorem schedule (h : Inv s) {object : Nat} {now : Int} {debug : Bool} (hRuns : object ∈ s.running)
    (hFits : ∀ info ∈ s.manager.timers, info.object = object → info.oneshot = true ∨ Fits now debug info) :
    Inv (s.schedule object now debug) := by
  obtain ⟨hPlaced, hOwned⟩ := h.owned.putBack h.placed (h.running object hRuns) hFits
  refine ⟨hPlaced, hOwned, fun other hOther => ?_, h.runningOnce.erase object⟩
  obtain ⟨hNe, hOld⟩ := h.runningOnce.mem_erase_iff.mp hOther
  have hStill : other ∈ s.manager.queued.erase object := (List.mem_erase_of_ne hNe).mpr (h.running other hOld)
  simp only [State.schedule, State.putBack]
  split
  · split
    · exact hStill
    · exact hStill
  · exact hStill

theorem step (h : Inv s) {a : Label} {s' : State} (hOk : Conserves s a) (hStep : s.step a = some s') : Inv s' := by
  cases a with
  | create now period oneshot made =>
    obtain ⟨-, rfl⟩ := of_guard hStep
    exact ⟨h.placed.create now period oneshot, h.owned, h.running, h.runningOnce⟩
  | insert info =>
    obtain ⟨hMem, rfl⟩ := of_guard hStep
    exact h.withManager (h.placed.insert hMem hOk) (h.owned.insert info) fun _ hObject => hObject
  | remove handle caller =>
    obtain ⟨-, rfl⟩ := of_guard hStep
    exact ⟨h.placed.remove handle, h.owned.remove h.placed handle, h.running, h.runningOnce⟩
  | removeByID removal gone =>
    obtain ⟨hGuard, rfl⟩ := of_guard hStep
    exact h.removeByID (fun object hIn => (hGuard.2.2 object hIn).2.1) hOk
  | setPeriod handle period reset now now' now'' =>
    cases hStep
    refine h.withManager (h.placed.setPeriod handle period reset now now' now'')
      (h.owned.setPeriod handle period reset now now' now'') fun object hObject => ?_
    rw [TimerManager.setPeriod]
    split
    · exact hObject
    · exact hObject
  | pass check jumped now clock =>
    cases hStep
    exact h.pass check jumped now clock
  | sleep check now =>
    cases hStep
    split
    · exact h
    · exact h.withManager { h.placed with } h.owned fun _ hObject => hObject
  | call object =>
    obtain ⟨hGuard, rfl⟩ := of_guard hStep
    exact h.call hGuard.1 hGuard.2
  | called object real =>
    obtain ⟨-, rfl⟩ := of_guard hStep
    have hf : Timers.Keeps fun info : TimerInfo => { info with lastReal := real } := ⟨fun _ => rfl, fun _ => rfl⟩
    exact h.withManager (h.placed.update hf object) (h.owned.update hf object) fun _ hObject => hObject
  | schedule object now debug =>
    obtain ⟨hRuns, rfl⟩ := of_guard hStep
    exact h.schedule hRuns hOk
  | trackedGone object =>
    obtain ⟨-, rfl⟩ := of_guard hStep
    refine ⟨h.placed, fun info hInfo hAlive => h.owned info hInfo fun hDead => ?_, h.running, h.runningOnce⟩
    exact hAlive (List.mem_append_left _ hDead)

end Inv

/-- In the runs whose steps conserve the timers none is lost, none is in two places, and a timer that was
removed never waits and is never given to its queue again. -/
theorem timers_conserved {s : State} (h : manager.ReachableWhen Conserves s) :
    Conserved s ∧ ∀ a s', s.step a = some s' → StaysRemoved s.manager s'.manager := by
  have hInv : Inv s := h.invariant Inv (fun s (hInit : s = .start) => hInit ▸ .start)
    fun _ _ _ hInv hOk hStep => hInv.step hOk hStep
  exact ⟨hInv.conserved, fun _ _ hStep => staysRemoved_step hStep⟩

/-! ## A period of 2147483647 seconds -/

def due : Int := 1700000001000000000

def tick : TimerInfo := ⟨0, 0, 1000000000, 1700000000000000000, due, 0, false⟩

def firstCall : List Label :=
  [.create 1700000000000000000 1000000000 false ⟨4096, 0, false⟩, .insert tick, .pass due due due fun _ => due, .call 0]

/-- The callback puts off the timer as far as a `Duration` goes, and returns. -/
def putOff : List Label :=
  firstCall ++ [.setPeriod 0 2147483647000000000 true due due due, .called 0 due, .schedule 0 due false]

def removesItself : List Label :=
  firstCall ++ [.remove 0 (some 0), .create due 1000000000 false ⟨8192, 0, true⟩,
    .insert ⟨1, 1, 1000000000, due, 1700000002000000000, 0, false⟩, .removeByID ⟨4096, 0, some 0⟩ [], .called 0 due,
    .schedule 0 due true, .pass 1700000002000000000 0 1700000002000000000 fun _ => 1700000002000000000, .call 1,
    .called 1 1700000002000000000, .schedule 1 1700000002000000000 true]

/-- The timer is there, has no tracked object, and is nowhere. -/
theorem timer_lost :
    ∃ s, manager.Reachable s ∧ s.manager.timers.map (·.object) = [0] ∧ s.dead = [] ∧ s.manager.waiting = [] ∧
      s.manager.queued = [] ∧ ¬ Conserved s := by
  refine ⟨_, Machine.Reachable.run (.init rfl) (rfl : manager.run .start putOff = some _), rfl, rfl, rfl, rfl, fun h => ?_⟩
  cases h.once _ List.mem_cons_self (by decide)

theorem timers_conserved_removesItself :
    ∃ s, manager.runWhen Conserves .start removesItself = some s ∧ s.manager.waiting = [1] ∧ s.manager.queued = [] ∧
      Conserved s := by
  refine ⟨_, rfl, rfl, rfl, (timers_conserved (Machine.ReachableWhen.runWhen (.init rfl)
    (rfl : manager.runWhen Conserves .start removesItself = some _))).1⟩

end XcRos.Libros.TimerConservation
