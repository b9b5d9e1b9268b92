import Mathlib.Data.List.Nodup
import Mathlib.Data.List.Sort
import XcRos.Foundation.Machine

/-! # The timer manager

`TimerManager` with its operations in any order, each one what happens under `timers_mutex_`. Times
are nanoseconds and every reading of the clock is an input, so that the clock may jump. A timer has
a number of its own besides its handle, which is a counter of 32 bits.
-/

namespace XcRos.Libros.Timers

open XcRos.Foundation

structure TimerInfo where
  object : Nat
  handle : Nat
  period : Int
  lastExpected : Int
  nextExpected : Int
  lastReal : Int
  oneshot : Bool
deriving DecidableEq, Repr

structure TimerManager where
  timers : List TimerInfo
  waiting : List Nat
  idCounter : Nat
  objects : Nat
  /-- The timers that `add` has made and not yet put in. -/
  adding : List TimerInfo
  /-- The timers whose callback has been given to its queue and has not returned. -/
  queued : List Nat
  /-- The variable of `threadFunc`. -/
  current : Int
deriving DecidableEq, Repr

/-- `T(INT_MAX, 999999999)` -/
def parked : Int := 2147483647999999999

/-- Seconds of 32 bits without sign. -/
def fitsTime (time : Int) : Prop := 0 ≤ time ∧ time < 4294967296000000000

instance (time : Int) : Decidable (fitsTime time) :=
  inferInstanceAs (Decidable (0 ≤ time ∧ time < 4294967296000000000))

/-- `T + D`, which throws where the sum does not fit. -/
def addTime (time period : Int) : Option Int := if fitsTime (time + period) then some (time + period) else none

namespace TimerInfo

/-- `updateNext` -/
def updateNext (now : Int) (info : TimerInfo) : TimerInfo :=
  if info.oneshot then { info with nextExpected := parked }
  else
    let info :=
      if info.nextExpected ≤ now then
        { info with lastExpected := info.nextExpected, nextExpected := info.nextExpected + info.period }
      else info
    if info.nextExpected + info.period < now then { info with nextExpected := now } else info

def reset (current : Int) (info : TimerInfo) : TimerInfo :=
  if current < info.lastExpected then
    { info with lastExpected := current, nextExpected := current + info.period }
  else info

/-- `setPeriod` of one timer, with the three readings of the clock that it may take. -/
def setPeriod (period : Int) (reset : Bool) (now now' now'' : Int) (info : TimerInfo) : TimerInfo :=
  let info :=
    if reset then { info with nextExpected := now + period }
    else if now - info.lastReal < info.period then
      if period < now' - info.lastReal then { info with nextExpected := now'' }
      else { info with nextExpected := info.lastReal + period }
    else info
  { info with period := period }

end TimerInfo

namespace TimerManager

def findTimer (s : TimerManager) (handle : Nat) : Option TimerInfo := s.timers.find? (·.handle == handle)

/-- `waitingCompare`; a missing timer is a null pointer, which is less than any other. -/
def waitingCompare (s : TimerManager) (lhs rhs : Nat) : Bool :=
  match s.findTimer lhs, s.findTimer rhs with
  | some infol, some infor => infol.nextExpected < infor.nextExpected
  | none, some _ => true
  | _, none => false

/-- `waiting_.sort`, which is stable. -/
def sortWaiting (s : TimerManager) : TimerManager :=
  { s with waiting := s.waiting.insertionSort fun lhs rhs => s.waitingCompare rhs lhs = false }

def update (s : TimerManager) (object : Nat) (f : TimerInfo → TimerInfo) : TimerManager :=
  { s with timers := s.timers.map fun info => if info.object = object then f info else info }

/-- `add` up to its lock. -/
def create (s : TimerManager) (now period : Int) (oneshot : Bool) : TimerManager :=
  { s with
    idCounter := (s.idCounter + 1) % 4294967296
    objects := s.objects + 1
    adding := s.adding ++ [⟨s.objects, s.idCounter, period, now, now + period, 0, oneshot⟩] }

/-- The rest of `add`. -/
def insert (s : TimerManager) (info : TimerInfo) : TimerManager :=
  { s with
    adding := s.adding.erase info
    timers := s.timers ++ [info]
    waiting := s.waiting ++ [info.handle] }.sortWaiting

def remove (s : TimerManager) (handle : Nat) : TimerManager :=
  { s with timers := s.timers.eraseP (·.handle == handle), waiting := s.waiting.erase handle }

/-- A callback has returned, and the timer is scheduled unless it was removed. -/
def schedule (s : TimerManager) (object : Nat) (now : Int) : TimerManager :=
  let s := { s with queued := s.queued.erase object }
  match s.timers.find? (·.object == object) with
  | some info =>
    let s := s.update object (.updateNext now)
    { s with waiting := s.waiting ++ [info.handle] }.sortWaiting
  | none => s

def setPeriod (s : TimerManager) (handle : Nat) (period : Int) (reset : Bool) (now now' now'' : Int) : TimerManager :=
  match s.findTimer handle with
  | some info => (s.update info.object (.setPeriod period reset now now' now'')).sortWaiting
  | none => s

/-- A turn of the loop that hands out the callbacks that are due, or `none` at its end. -/
def fireFront (s : TimerManager) (now : Int) : Option TimerManager :=
  match s.waiting with
  | [] => none
  | handle :: rest =>
    match s.findTimer handle with
    | some info =>
      if info.nextExpected ≤ s.current then
        some { s with current := now, waiting := rest, queued := s.queued ++ [info.object] }
      else none
    | none => none

def fire (s : TimerManager) (clock : Nat → Int) : Nat → TimerManager
  | 0 => s
  | fuel + 1 =>
    match s.fireFront (clock fuel) with
    | some next => fire next clock fuel
    | none => s

def resetTimers (s : TimerManager) (now : Int) : TimerManager :=
  { s with current := now, timers := s.timers.map (.reset now) }

/-- `threadFunc` from its lock to its sleep. `check` and `jumped` are read for the jump backwards. -/
def pass (s : TimerManager) (check jumped now : Int) (clock : Nat → Int) : TimerManager :=
  let s := if check < s.current then s.resetTimers jumped else s
  { s with current := now }.fire clock s.waiting.length

end TimerManager

inductive Label where
  | create (now period : Int) (oneshot : Bool)
  | insert (info : TimerInfo)
  | remove (handle : Nat)
  | setPeriod (handle : Nat) (period : Int) (reset : Bool) (now now' now'' : Int)
  /-- `last_real` is set when a callback has returned. -/
  | called (object : Nat) (real : Int)
  | schedule (object : Nat) (now : Int)
  | pass (check jumped now : Int) (clock : Nat → Int)
  | sleep (check now : Int)

def step (s : TimerManager) : Label → Option TimerManager
  | .create now period oneshot => some (s.create now period oneshot)
  | .insert info => if info ∈ s.adding then some (s.insert info) else none
  | .remove handle => some (s.remove handle)
  | .setPeriod handle period reset now now' now'' => some (s.setPeriod handle period reset now now' now'')
  | .called object real =>
    if object ∈ s.queued then some (s.update object fun info => { info with lastReal := real }) else none
  | .schedule object now => if object ∈ s.queued then some (s.schedule object now) else none
  | .pass check jumped now clock => some (s.pass check jumped now clock)
  | .sleep check now => some (if check < s.current then s else { s with current := now })

def start : TimerManager := ⟨[], [], 0, 0, [], [], 0⟩

def system : Machine TimerManager Label where
  Init s := s = start
  step := step

/-! ## The order of `waiting_` -/

/-- `next_expected` of the timer that waits under the handle. -/
def TimerManager.expected (s : TimerManager) (handle : Nat) : Option Int :=
  (s.findTimer handle).map (·.nextExpected)

/-- The order that `waiting_.sort` brings about. -/
def Ordered (s : TimerManager) : Prop := s.waiting.Pairwise fun a b => s.waitingCompare b a = false

instance (s : TimerManager) : Decidable (Ordered s) :=
  inferInstanceAs (Decidable (s.waiting.Pairwise fun a b => s.waitingCompare b a = false))

structure InOrder (s : TimerManager) : Prop where
  known : ∀ handle ∈ s.waiting, (s.findTimer handle).isSome
  sorted : s.waiting.Pairwise fun a b => ∀ x ∈ s.expected a, ∀ y ∈ s.expected b, x ≤ y

/-- A pass that finds that the clock has jumped backwards leaves the times of the waiting timers in the
order of `waiting_`, and no timer is put in under the handle of another. -/
def keepsOrder (s : TimerManager) : Label → Prop
  | .insert info => info.handle ∉ s.timers.map (·.handle)
  | .pass check jumped _ _ => check < s.current → Ordered (s.resetTimers jumped)
  | _ => True

instance (s : TimerManager) : ∀ a, Decidable (keepsOrder s a)
  | .insert info => inferInstanceAs (Decidable (info.handle ∉ s.timers.map (·.handle)))
  | .pass check jumped _ _ => inferInstanceAs (Decidable (check < s.current → Ordered (s.resetTimers jumped)))
  | .create _ _ _ | .remove _ | .setPeriod _ _ _ _ _ _ | .called _ _ | .schedule _ _ | .sleep _ _ => .isTrue trivial

theorem waitingCompare_eq {s : TimerManager} {a b : Nat} :
    s.waitingCompare b a = false ↔
      s.expected a = none ∨ ∃ x y, s.expected a = some x ∧ s.expected b = some y ∧ x ≤ y := by
  simp only [TimerManager.waitingCompare, TimerManager.expected]
  cases s.findTimer b with
  | none =>
    cases s.findTimer a with
    | none => simp
    | some x => simp
  | some y =>
    cases s.findTimer a with
    | none => simp
    | some x => simp

theorem waitingCompare_trans {s : TimerManager} {a b c : Nat} (h : s.waitingCompare b a = false)
    (h' : s.waitingCompare c b = false) : s.waitingCompare c a = false := by
  rw [waitingCompare_eq] at h h' ⊢
  obtain hNone | ⟨x, y, hx, hy, hLe⟩ := h
  · exact .inl hNone
  · obtain hNone | ⟨y', z, hy', hz, hLe'⟩ := h'
    · rw [hNone] at hy
      cases hy
    · cases hy.symm.trans hy'
      exact .inr ⟨x, z, hx, hz, Int.le_trans hLe hLe'⟩

theorem waitingCompare_total (s : TimerManager) (a b : Nat) :
    s.waitingCompare b a = false ∨ s.waitingCompare a b = false := by
  rw [waitingCompare_eq, waitingCompare_eq]
  cases hA : s.expected a with
  | none => exact .inl (.inl rfl)
  | some x =>
    cases hB : s.expected b with
    | none => exact .inr (.inl rfl)
    | some y =>
      obtain hLe | hLe := Int.le_total x y
      · exact .inl (.inr ⟨x, y, rfl, rfl, hLe⟩)
      · exact .inr (.inr ⟨y, x, rfl, rfl, hLe⟩)

theorem ordered_sortWaiting (s : TimerManager) : Ordered s.sortWaiting := by
  have hTotal : Std.Total fun a b => s.waitingCompare b a = false := ⟨waitingCompare_total s⟩
  have hTrans : IsTrans Nat fun a b => s.waitingCompare b a = false := ⟨fun _ _ _ => waitingCompare_trans⟩
  exact List.pairwise_insertionSort (fun a b => s.waitingCompare b a = false) s.waiting

/-! ## Which timers wait -/

structure Placed (s : TimerManager) : Prop where
  handles : (s.timers.map (·.handle)).Nodup
  objects : ((s.timers ++ s.adding).map (·.object)).Nodup
  made : ∀ info ∈ s.timers ++ s.adding, info.object < s.objects
  known : ∀ handle ∈ s.waiting, ∃ info ∈ s.timers, info.handle = handle
  once : s.waiting.Nodup
  queuedOnce : s.queued.Nodup
  queuedMade : ∀ object ∈ s.queued, object < s.objects
  notAdding : ∀ info ∈ s.adding, info.object ∉ s.queued
  apart : ∀ info ∈ s.timers, info.object ∈ s.queued → info.handle ∉ s.waiting

theorem findTimer_eq_some_iff {s : TimerManager} (hHandles : (s.timers.map (·.handle)).Nodup) {handle : Nat}
    {info : TimerInfo} : s.findTimer handle = some info ↔ info ∈ s.timers ∧ info.handle = handle := by
  constructor
  · intro h
    exact ⟨List.mem_of_find?_eq_some h, by simpa using List.find?_some h⟩
  · rintro ⟨hMem, rfl⟩
    cases hFind : s.findTimer info.handle with
    | none =>
      have := List.find?_eq_none.mp hFind info hMem
      simp at this
    | some other =>
      have hOther : other.handle = info.handle := by simpa using List.find?_some hFind
      rw [List.inj_on_of_nodup_map hHandles (List.mem_of_find?_eq_some hFind) hMem hOther]

theorem expected_eq_some_iff {s : TimerManager} (hHandles : (s.timers.map (·.handle)).Nodup) {handle : Nat}
    {time : Int} :
    s.expected handle = some time ↔ ∃ info ∈ s.timers, info.handle = handle ∧ info.nextExpected = time := by
  simp only [TimerManager.expected, Option.map_eq_some_iff, findTimer_eq_some_iff hHandles, and_assoc]

theorem Ordered.of_expected {s s' : TimerManager} (h : Ordered s) (hWaiting : List.Sublist s'.waiting s.waiting)
    (hExpected : ∀ handle ∈ s'.waiting, s'.expected handle = s.expected handle) : Ordered s' := by
  refine (h.sublist hWaiting).imp_of_mem fun {a b} ha hb hLess => ?_
  rw [waitingCompare_eq] at hLess ⊢
  rwa [hExpected a ha, hExpected b hb]

theorem Placed.inOrder {s : TimerManager} (h : Placed s) (hOrdered : Ordered s) : InOrder s where
  known handle hMem := by
    obtain ⟨info, hInfo, hHandle⟩ := h.known handle hMem
    rw [(findTimer_eq_some_iff h.handles).mpr ⟨hInfo, hHandle⟩]
    rfl
  sorted := hOrdered.imp fun {a b} hLess x hx y hy => by
    obtain hNone | ⟨x', y', hx', hy', hLe⟩ := waitingCompare_eq.mp hLess
    · rw [hNone] at hx
      cases hx
    · cases hx'.symm.trans hx
      cases hy'.symm.trans hy
      exact hLe

/-! ## Steps -/

theorem Placed.sortWaiting {s : TimerManager} (h : Placed s) : Placed s.sortWaiting :=
  { h with
    known := fun handle hMem => h.known handle ((List.mem_insertionSort _).mp hMem)
    once := (List.perm_insertionSort _ _).nodup_iff.mpr h.once
    apart := fun info hInfo hQueued hMem => h.apart info hInfo hQueued ((List.mem_insertionSort _).mp hMem) }

theorem Placed.create {s : TimerManager} (h : Placed s) (now period : Int) (oneshot : Bool) :
    Placed (s.create now period oneshot) :=
  { h with
    objects := by
      show ((s.timers ++ (s.adding ++ [_])).map _).Nodup
      rw [← List.append_assoc, List.map_append, List.nodup_append]
      refine ⟨h.objects, List.nodup_singleton _, ?_⟩
      rintro a ha b hb rfl
      obtain ⟨info, hInfo, rfl⟩ := List.mem_map.mp ha
      exact Nat.ne_of_lt (h.made info hInfo) (List.mem_singleton.mp hb)
    made := by
      intro info hInfo
      obtain hTimer | hAdding := List.mem_append.mp hInfo
      · exact Nat.lt_succ_of_lt (h.made info (List.mem_append_left _ hTimer))
      · obtain hOld | hNew := List.mem_append.mp hAdding
        · exact Nat.lt_succ_of_lt (h.made info (List.mem_append_right _ hOld))
        · rw [List.mem_singleton.mp hNew]
          exact Nat.lt_succ_self _
    queuedMade := fun object hObject => Nat.lt_succ_of_lt (h.queuedMade object hObject)
    notAdding := by
      intro info hInfo hQueued
      obtain hOld | hNew := List.mem_append.mp hInfo
      · exact h.notAdding info hOld hQueued
      · rw [List.mem_singleton.mp hNew] at hQueued
        exact Nat.lt_irrefl _ (h.queuedMade _ hQueued) }

theorem Placed.insert {s : TimerManager} (h : Placed s) {info : TimerInfo} (hMem : info ∈ s.adding)
    (hNew : info.handle ∉ s.timers.map (·.handle)) : Placed (s.insert info) := by
  have hPerm : (s.timers ++ [info] ++ s.adding.erase info).Perm (s.timers ++ s.adding) := by
    rw [List.append_assoc]
    exact (List.perm_cons_erase hMem).symm.append_left s.timers
  have hNotWaiting : info.handle ∉ s.waiting := by
    intro hWaits
    obtain ⟨other, hOther, hSame⟩ := h.known _ hWaits
    exact hNew (List.mem_map.mpr ⟨other, hOther, hSame⟩)
  apply Placed.sortWaiting
  constructor
  · rw [List.map_append]
    exact List.nodup_append.mpr ⟨h.handles, List.nodup_singleton _, by
      rintro a ha b hb rfl
      rw [List.mem_singleton.mp hb] at ha
      exact hNew ha⟩
  · exact (hPerm.map _).nodup_iff.mpr h.objects
  · intro other hOther
    exact h.made other (hPerm.mem_iff.mp hOther)
  · intro handle hHandle
    obtain hOld | hLast := List.mem_append.mp hHandle
    · obtain ⟨other, hOther, hSame⟩ := h.known handle hOld
      exact ⟨other, List.mem_append_left _ hOther, hSame⟩
    · exact ⟨info, List.mem_append_right _ List.mem_cons_self, (List.mem_singleton.mp hLast).symm⟩
  · exact List.nodup_append.mpr ⟨h.once, List.nodup_singleton _, by
      rintro a ha b hb rfl
      rw [List.mem_singleton.mp hb] at ha
      exact hNotWaiting ha⟩
  · exact h.queuedOnce
  · exact h.queuedMade
  · intro other hOther
    exact h.notAdding other (List.mem_of_mem_erase hOther)
  · intro other hOther hQueued hWaits
    obtain hOld | hLast := List.mem_append.mp hOther
    · obtain hMemOld | hMemLast := List.mem_append.mp hWaits
      · exact h.apart other hOld hQueued hMemOld
      · exact hNew (List.mem_map.mpr ⟨other, hOld, List.mem_singleton.mp hMemLast⟩)
    · rw [List.mem_singleton.mp hLast] at hQueued
      exact h.notAdding info hMem hQueued

theorem Placed.mem_remove {s : TimerManager} (h : Placed s) {handle other : Nat}
    (hOther : other ∈ (s.remove handle).waiting) :
    other ∈ s.waiting ∧ ∃ info ∈ s.timers, info.handle = other ∧ info ∈ (s.remove handle).timers := by
  obtain ⟨hNe, hMem⟩ := h.once.mem_erase_iff.mp hOther
  obtain ⟨info, hInfo, rfl⟩ := h.known other hMem
  exact ⟨hMem, info, hInfo, rfl, (List.mem_eraseP_of_neg (by simpa using hNe)).mpr hInfo⟩

theorem Placed.remove {s : TimerManager} (h : Placed s) (handle : Nat) : Placed (s.remove handle) := by
  have hSub : List.Sublist (s.remove handle).timers s.timers := List.eraseP_sublist
  exact
    { handles := h.handles.sublist (hSub.map _)
      objects := h.objects.sublist ((hSub.append_right _).map _)
      made := fun info hInfo => h.made info ((hSub.append_right _).subset hInfo)
      known := fun other hOther => by
        obtain ⟨_, info, _, hHandle, hInfo⟩ := h.mem_remove hOther
        exact ⟨info, hInfo, hHandle⟩
      once := h.once.erase handle
      queuedOnce := h.queuedOnce
      queuedMade := h.queuedMade
      notAdding := h.notAdding
      apart := fun info hInfo hQueued hMem => h.apart info (hSub.subset hInfo) hQueued (h.mem_remove hMem).1 }

theorem Placed.ordered_remove {s : TimerManager} (h : Placed s) (hOrdered : Ordered s) (handle : Nat) :
    Ordered (s.remove handle) := by
  apply hOrdered.of_expected List.erase_sublist
  intro other hOther
  obtain ⟨_, info, hInfo, hHandle, hAfter⟩ := h.mem_remove hOther
  rw [(expected_eq_some_iff h.handles).mpr ⟨info, hInfo, hHandle, rfl⟩]
  exact (expected_eq_some_iff (h.remove handle).handles).mpr ⟨info, hAfter, hHandle, rfl⟩

/-- A change of one timer that leaves its handle and its number. -/
structure Keeps (f : TimerInfo → TimerInfo) : Prop where
  object : ∀ info, (f info).object = info.object
  handle : ∀ info, (f info).handle = info.handle

theorem keeps_updateNext (now : Int) : Keeps (.updateNext now) := by
  constructor
  · intro info
    simp only [TimerInfo.updateNext]
    split
    · rfl
    · split <;> split <;> rfl
  · intro info
    simp only [TimerInfo.updateNext]
    split
    · rfl
    · split <;> split <;> rfl

theorem keeps_setPeriod (period : Int) (reset : Bool) (now now' now'' : Int) :
    Keeps (.setPeriod period reset now now' now'') := by
  constructor
  · intro info
    simp only [TimerInfo.setPeriod]
    split
    · rfl
    · split
      · split <;> rfl
      · rfl
  · intro info
    simp only [TimerInfo.setPeriod]
    split
    · rfl
    · split
      · split <;> rfl
      · rfl

theorem keeps_reset (now : Int) : Keeps (.reset now) := by
  constructor
  · intro info
    simp only [TimerInfo.reset]
    split <;> rfl
  · intro info
    simp only [TimerInfo.reset]
    split <;> rfl

theorem keeps_one {f : TimerInfo → TimerInfo} (hf : Keeps f) (object : Nat) :
    Keeps fun info => if info.object = object then f info else info := by
  constructor
  · intro info
    show (if info.object = object then f info else info).object = info.object
    split
    · exact hf.object info
    · rfl
  · intro info
    show (if info.object = object then f info else info).handle = info.handle
    split
    · exact hf.handle info
    · rfl

theorem Placed.map {s : TimerManager} (h : Placed s) {f : TimerInfo → TimerInfo} (hf : Keeps f) :
    Placed { s with timers := s.timers.map f } where
  handles := by
    have hSame : (s.timers.map f).map (·.handle) = s.timers.map (·.handle) := by
      rw [List.map_map]
      exact List.map_congr_left fun info _ => hf.handle info
    exact hSame ▸ h.handles
  objects := by
    have hSame : (s.timers.map f ++ s.adding).map (·.object) = (s.timers ++ s.adding).map (·.object) := by
      rw [List.map_append, List.map_append, List.map_map]
      congr 1
      exact List.map_congr_left fun info _ => hf.object info
    exact hSame ▸ h.objects
  made info hInfo := by
    obtain hTimer | hAdding := List.mem_append.mp hInfo
    · obtain ⟨old, hOld, rfl⟩ := List.mem_map.mp hTimer
      rw [hf.object]
      exact h.made old (List.mem_append_left _ hOld)
    · exact h.made info (List.mem_append_right _ hAdding)
  known handle hHandle := by
    obtain ⟨info, hInfo, rfl⟩ := h.known handle hHandle
    exact ⟨f info, List.mem_map_of_mem hInfo, hf.handle info⟩
  once := h.once
  queuedOnce := h.queuedOnce
  queuedMade := h.queuedMade
  notAdding := h.notAdding
  apart info hInfo hQueued := by
    obtain ⟨old, hOld, rfl⟩ := List.mem_map.mp hInfo
    rw [hf.object] at hQueued
    rw [hf.handle]
    exact h.apart old hOld hQueued

theorem Placed.update {s : TimerManager} (h : Placed s) {f : TimerInfo → TimerInfo} (hf : Keeps f) (object : Nat) :
    Placed (s.update object f) :=
  h.map (keeps_one hf object)

theorem Placed.dequeue {s : TimerManager} (h : Placed s) {queued : List Nat} (hSub : queued.Sublist s.queued) :
    Placed { s with queued } :=
  { h with
    queuedOnce := h.queuedOnce.sublist hSub
    queuedMade := fun other hOther => h.queuedMade other (hSub.subset hOther)
    notAdding := fun info hInfo hOther => h.notAdding info hInfo (hSub.subset hOther)
    apart := fun info hInfo hOther => h.apart info hInfo (hSub.subset hOther) }

theorem Placed.wait {s : TimerManager} (h : Placed s) {info : TimerInfo} (hInfo : info ∈ s.timers)
    (hFree : info.object ∉ s.queued) (hNotWaiting : info.handle ∉ s.waiting) :
    Placed { s with waiting := s.waiting ++ [info.handle] }.sortWaiting := by
  apply Placed.sortWaiting
  exact
    { h with
      known := by
        intro handle hHandle
        obtain hOld | hLast := List.mem_append.mp hHandle
        · exact h.known handle hOld
        · exact ⟨info, hInfo, (List.mem_singleton.mp hLast).symm⟩
      once := List.nodup_append.mpr ⟨h.once, List.nodup_singleton _, by
        rintro a ha b hb rfl
        rw [List.mem_singleton.mp hb] at ha
        exact hNotWaiting ha⟩
      apart := by
        intro other hOther hStill hWaits
        obtain hOld | hLast := List.mem_append.mp hWaits
        · exact h.apart other hOther hStill hOld
        · have hSame : other = info := List.inj_on_of_nodup_map h.handles hOther hInfo (List.mem_singleton.mp hLast)
          rw [hSame] at hStill
          exact hFree hStill }

theorem Placed.wait_again {s : TimerManager} (h : Placed s) {info : TimerInfo} (hInfo : info ∈ s.timers)
    (hQueued : info.object ∈ s.queued) {f : TimerInfo → TimerInfo} (hf : Keeps f) :
    Placed { TimerManager.update { s with queued := s.queued.erase info.object } info.object f with
      waiting := s.waiting ++ [info.handle] }.sortWaiting := by
  have hDequeued : Placed { s with queued := s.queued.erase info.object } := h.dequeue List.erase_sublist
  have hOne := keeps_one hf info.object
  rw [← hOne.handle info]
  apply (hDequeued.update hf info.object).wait (List.mem_map_of_mem hInfo)
  · rw [hOne.object]
    exact fun hStill => (h.queuedOnce.mem_erase_iff.mp hStill).1 rfl
  · rw [hOne.handle]
    exact h.apart info hInfo hQueued

theorem Placed.schedule {s : TimerManager} (h : Placed s) {object : Nat} (hQueued : object ∈ s.queued) (now : Int) :
    Placed (s.schedule object now) := by
  simp only [TimerManager.schedule]
  split
  · rename_i info hFind
    have hInfo : info ∈ s.timers := List.mem_of_find?_eq_some hFind
    have hObject : info.object = object := by simpa using List.find?_some hFind
    subst hObject
    exact h.wait_again hInfo hQueued (keeps_updateNext now)
  · exact h.dequeue List.erase_sublist

theorem Placed.setPeriod {s : TimerManager} (h : Placed s) (handle : Nat) (period : Int) (reset : Bool)
    (now now' now'' : Int) : Placed (s.setPeriod handle period reset now now' now'') := by
  rw [TimerManager.setPeriod]
  split
  · exact (h.update (keeps_setPeriod period reset now now' now'') _).sortWaiting
  · exact h

/-! ## A pass of `threadFunc` -/

theorem Placed.fireFront {s next : TimerManager} (h : Placed s) {now : Int} (hNext : s.fireFront now = some next) :
    Placed next ∧ (Ordered s → Ordered next) := by
  simp only [TimerManager.fireFront] at hNext
  split at hNext
  · cases hNext
  · rename_i handle rest hWaiting
    split at hNext
    · rename_i info hFind
      split at hNext
      · cases hNext
        obtain ⟨hInfo, rfl⟩ := (findTimer_eq_some_iff h.handles).mp hFind
        have hFront : info.handle ∈ s.waiting := hWaiting ▸ List.mem_cons_self
        have hRest : ∀ other ∈ rest, other ∈ s.waiting := fun other hOther => hWaiting ▸ List.mem_cons_of_mem _ hOther
        have hOnce : info.handle ∉ rest ∧ rest.Nodup := List.nodup_cons.mp (hWaiting ▸ h.once)
        have hNew : info.object ∉ s.queued := fun hQueued => h.apart info hInfo hQueued hFront
        constructor
        · exact
            { h with
              known := fun other hOther => h.known other (hRest other hOther)
              once := hOnce.2
              queuedOnce := List.nodup_append.mpr ⟨h.queuedOnce, List.nodup_singleton _, by
                rintro a ha b hb rfl
                rw [List.mem_singleton.mp hb] at ha
                exact hNew ha⟩
              queuedMade := by
                intro object hObject
                obtain hOld | hLast := List.mem_append.mp hObject
                · exact h.queuedMade object hOld
                · rw [List.mem_singleton.mp hLast]
                  exact h.made info (List.mem_append_left _ hInfo)
              notAdding := by
                intro other hOther hObject
                obtain hOld | hLast := List.mem_append.mp hObject
                · exact h.notAdding other hOther hOld
                · have hObjects := h.objects
                  rw [List.map_append] at hObjects
                  exact (List.nodup_append.mp hObjects).2.2 _ (List.mem_map_of_mem hInfo) _
                    (List.mem_map_of_mem hOther) (List.mem_singleton.mp hLast).symm
              apart := by
                intro other hOther hObject hWaits
                obtain hOld | hLast := List.mem_append.mp hObject
                · exact h.apart other hOther hOld (hRest _ hWaits)
                · have hObjects := h.objects
                  rw [List.map_append] at hObjects
                  have hSame : other = info := List.inj_on_of_nodup_map (List.nodup_append.mp hObjects).1 hOther hInfo
                    (List.mem_singleton.mp hLast)
                  rw [hSame] at hWaits
                  exact hOnce.1 hWaits }
        · intro hOrdered
          have hAll := hOrdered
          rw [Ordered, hWaiting] at hAll
          exact (List.pairwise_cons.mp hAll).2
      · cases hNext
    · cases hNext

theorem Placed.fire {clock : Nat → Int} {fuel : Nat} {s : TimerManager} (h : Placed s) (hOrdered : Ordered s) :
    Placed (s.fire clock fuel) ∧ Ordered (s.fire clock fuel) := by
  induction fuel generalizing s with
  | zero => exact ⟨h, hOrdered⟩
  | succ fuel ih =>
    rw [TimerManager.fire]
    split
    · rename_i next hNext
      obtain ⟨hPlaced, hKept⟩ := h.fireFront hNext
      exact ih hPlaced (hKept hOrdered)
    · exact ⟨h, hOrdered⟩

theorem Placed.pass {s : TimerManager} (h : Placed s) (hOrdered : Ordered s) (check jumped now : Int)
    (clock : Nat → Int) (hJump : check < s.current → Ordered (s.resetTimers jumped)) :
    Placed (s.pass check jumped now clock) ∧ Ordered (s.pass check jumped now clock) := by
  have hEnter : ∀ t : TimerManager, Placed t → Placed { t with current := now } := fun t ht => { ht with }
  simp only [TimerManager.pass]
  split
  · rename_i hBackward
    have hReset := h.map (keeps_reset jumped)
    have hMoved : Placed (s.resetTimers jumped) := { hReset with }
    exact (hEnter _ hMoved).fire (hJump hBackward)
  · exact (hEnter _ h).fire hOrdered

/-! ## Whole runs -/

theorem expected_map {s : TimerManager} {f : TimerInfo → TimerInfo} (hf : Keeps f) (handle : Nat) :
    ({ s with timers := s.timers.map f } : TimerManager).expected handle =
      (s.findTimer handle).map fun info => (f info).nextExpected := by
  have hSame : ((fun info : TimerInfo => info.handle == handle) ∘ f) = fun info => info.handle == handle := by
    funext info
    simp [hf.handle info]
  simp only [TimerManager.expected, TimerManager.findTimer, List.find?_map, hSame, Option.map_map]
  rfl

theorem placed_step {s s' : TimerManager} {a : Label} (h : Placed s) (hOrdered : Ordered s) (hOk : keepsOrder s a)
    (hStep : step s a = some s') : Placed s' ∧ Ordered s' := by
  cases a with
  | create now period oneshot =>
    cases hStep
    exact ⟨h.create now period oneshot, hOrdered⟩
  | insert info =>
    simp only [step] at hStep
    split at hStep
    · cases hStep
      exact ⟨h.insert ‹_› hOk, ordered_sortWaiting _⟩
    · cases hStep
  | remove handle =>
    cases hStep
    exact ⟨h.remove handle, h.ordered_remove hOrdered handle⟩
  | setPeriod handle period reset now now' now'' =>
    cases hStep
    refine ⟨h.setPeriod handle period reset now now' now'', ?_⟩
    rw [TimerManager.setPeriod]
    split
    · exact ordered_sortWaiting _
    · exact hOrdered
  | called object real =>
    simp only [step] at hStep
    split at hStep
    · cases hStep
      have hf : Keeps fun info : TimerInfo => { info with lastReal := real } := ⟨fun _ => rfl, fun _ => rfl⟩
      refine ⟨h.update hf object, hOrdered.of_expected (List.Sublist.refl _) fun handle _ => ?_⟩
      refine (expected_map (keeps_one hf object) handle).trans (congrArg (Option.map · _) ?_)
      funext info
      show (if info.object = object then _ else info : TimerInfo).nextExpected = _
      split <;> rfl
    · cases hStep
  | schedule object now =>
    simp only [step] at hStep
    split at hStep
    · cases hStep
      refine ⟨h.schedule ‹_› now, ?_⟩
      simp only [TimerManager.schedule]
      split
      · exact ordered_sortWaiting _
      · exact hOrdered
    · cases hStep
  | pass check jumped now clock =>
    cases hStep
    exact h.pass hOrdered check jumped now clock hOk
  | sleep check now =>
    cases hStep
    split
    · exact ⟨h, hOrdered⟩
    · exact ⟨{ h with }, hOrdered⟩

theorem placed_start : Placed start := by
  constructor <;> simp [start]

def slow : TimerInfo := ⟨0, 0, 10, 100, 110, 0, false⟩

def quick : TimerInfo := ⟨1, 1, 5, 109, 114, 0, false⟩

/-- `slow` is added at 100, `quick` at 109. -/
def addBoth : List Label :=
  [.create 100 10 false, .insert slow, .pass 100 100 100 fun _ => 100, .create 109 5 false, .insert quick,
    .pass 109 109 109 fun _ => 109]

/-- The jump leads to 108, after `slow` was added. -/
def shortJump : TimerManager :=
  (system.runWhen keepsOrder start (addBoth ++ [.pass 108 108 108 fun _ => 108])).getD start

def longJump : TimerManager :=
  (system.run start (addBoth ++ [.pass 50 50 50 fun _ => 50])).getD start

end XcRos.Libros.Timers
