import Mathlib.Algebra.Order.Ring.Nat
import Mathlib.Data.List.Perm.Basic
import XcRos.Libros.Spinner

/-! # The bookkeeping of spinners

The monitor is compared with the spinners that are active: those of a thread that is inside of
`SingleThreadedSpinner::spin`, and the asynchronous ones between `start` and the end of `stop`. Each step adds one
spinner or takes one away, and the monitor follows unless an exception leaves a spin.
-/

namespace XcRos.Libros

open XcRos.Foundation

variable {Thread Queue : Type}

/-! ## A monitor and what it counts -/

namespace SpinnerMonitor

/-- What the monitor has for a queue and the spinners that are active on it, each known by its thread id or `none`:
there is an entry while there are spinners, with their number and the id that they all have. -/
structure Matches (entry : Option (Entry Thread)) (active : List (Option Thread)) : Prop where
  present : entry.isSome = true ↔ active ≠ []
  count : ∀ it, entry = some it → it.num.toNat = active.length
  alike : ∀ it, entry = some it → ∀ a ∈ active, a = it.tid

theorem matches_none : Matches (none : Option (Entry Thread)) [] where
  present := iff_of_false Bool.false_ne_true fun h => h rfl
  count _ h := by cases h
  alike _ h := by cases h

namespace Matches

variable {entry : Option (Entry Thread)} {active active' : List (Option Thread)}

theorem perm (h : Matches entry active) (hPerm : active'.Perm active) : Matches entry active' where
  present := h.present.trans (by
    rw [ne_eq, ne_eq, ← List.length_eq_zero_iff, ← List.length_eq_zero_iff, hPerm.length_eq])
  count it hIt := (h.count it hIt).trans hPerm.length_eq.symm
  alike it hIt a ha := h.alike it hIt a (hPerm.mem_iff.mp ha)

theorem eq_nil (h : Matches none active) : active = [] := by
  by_contra hSome
  exact Bool.false_ne_true (h.present.mpr hSome)

theorem exists_entry {tid : Option Thread} (h : Matches entry (tid :: active)) :
    ∃ it, entry = some it ∧ it.num.toNat = active.length + 1 ∧ ∀ a ∈ active, a = it.tid := by
  obtain ⟨it, rfl⟩ := Option.isSome_iff_exists.mp (h.present.mpr (List.cons_ne_nil _ _))
  exact ⟨it, rfl, h.count it rfl, fun a ha => h.alike it rfl a (List.mem_cons_of_mem tid ha)⟩

theorem cons {tid : Option Thread} (h : Matches entry active) (hAlike : (entry.getD ⟨tid, 0⟩).tid = tid)
    (hRoom : active.length + 1 < 2 ^ 32) :
    Matches (some { entry.getD ⟨tid, 0⟩ with num := (entry.getD ⟨tid, 0⟩).num + 1 }) (tid :: active) := by
  have hNum : (entry.getD ⟨tid, 0⟩).num.toNat = active.length := by
    cases entry with
    | none => rw [h.eq_nil]; rfl
    | some it => exact h.count it rfl
  have hOne : (1 : UInt32).toNat = 1 := rfl
  refine ⟨iff_of_true rfl (List.cons_ne_nil _ _), ?_, ?_⟩
  · rintro it hIt
    obtain rfl := Option.some.inj hIt
    rw [List.length_cons, UInt32.toNat_add, hNum, hOne, Nat.mod_eq_of_lt hRoom]
  · rintro it hIt a ha
    obtain rfl := Option.some.inj hIt
    obtain rfl | ha := List.mem_cons.mp ha
    · exact hAlike.symm
    · cases entry with
      | none => exact absurd ha (h.eq_nil ▸ List.not_mem_nil)
      | some it => exact h.alike it rfl a ha

end Matches

def Exact (m : SpinnerMonitor Thread Queue) (active : Queue → List (Option Thread)) : Prop :=
  ∀ queue, Matches (m queue) (active queue)

namespace Exact

variable {m m' : SpinnerMonitor Thread Queue} {active active' : Queue → List (Option Thread)}

theorem perm (h : Exact m active) (hPerm : ∀ queue, (active' queue).Perm (active queue)) : Exact m active' :=
  fun queue => (h queue).perm (hPerm queue)

variable [DecidableEq Queue]

theorem update (h : Exact m active) {queue : Queue} {entry : Option (Entry Thread)} (hHere : Matches entry (active' queue))
    (hOthers : ∀ other, other ≠ queue → (active' other).Perm (active other)) :
    Exact (Function.update m queue entry) active' := by
  intro other
  by_cases hSame : other = queue
  · rw [hSame, Function.update_self]
    exact hHere
  · rw [Function.update_of_ne hSame]
    exact (h other).perm (hOthers other hSame)

theorem remove (h : Exact m active) {queue : Queue} {tid : Option Thread}
    (hHere : (active queue).Perm (tid :: active' queue))
    (hOthers : ∀ other, other ≠ queue → (active other).Perm (active' other)) :
    ∃ m', m.remove queue = some m' ∧ Exact m' active' := by
  obtain ⟨it, hEntry, hNum, hAlike⟩ := ((h queue).perm hHere.symm).exists_entry
  have hOne : (1 : UInt32).toNat = 1 := rfl
  have hPositive : it.num ≠ 0 := by
    intro hZero
    rw [hZero] at hNum
    exact absurd hNum (Nat.succ_ne_zero _).symm
  have hLess : (it.num - 1).toNat = (active' queue).length := by
    have hLe : (1 : UInt32) ≤ it.num := UInt32.le_iff_toNat_le.mpr (by omega)
    rw [UInt32.toNat_sub_of_le _ _ hLe, hNum, hOne, Nat.add_sub_cancel]
  have hRest := fun other hOther => (hOthers other hOther).symm
  rw [SpinnerMonitor.remove, hEntry]
  dsimp only
  rw [if_neg hPositive]
  by_cases hLast : it.num - 1 = 0
  · -- the last spinner
    have hEmpty : active' queue = [] := by
      rw [hLast] at hLess
      exact List.length_eq_zero_iff.mp hLess.symm
    exact ⟨_, if_pos hLast, h.update (hEmpty ▸ matches_none) hRest⟩
  · have hSome : active' queue ≠ [] := by
      intro hEmpty
      rw [hEmpty] at hLess
      exact hLast (UInt32.toNat_inj.mp hLess)
    refine ⟨_, if_neg hLast, h.update ⟨iff_of_true rfl hSome, ?_, ?_⟩ hRest⟩
    · rintro it' hIt
      obtain rfl := Option.some.inj hIt
      exact hLess
    · rintro it' hIt a ha
      obtain rfl := Option.some.inj hIt
      exact hAlike a ha

variable [DecidableEq Thread]

theorem refused_iff (h : Exact m active) (queue : Queue) (tid : Option Thread) :
    m.add queue tid = none ↔ ∃ a ∈ active queue, a ≠ tid := by
  have hMatches := h queue
  rw [SpinnerMonitor.add]
  cases hEntry : m queue with
  | none =>
    rw [hEntry] at hMatches
    rw [Option.getD_none, if_pos rfl, hMatches.eq_nil]
    exact iff_of_false (Option.some_ne_none _) fun ⟨_, ha, _⟩ => absurd ha List.not_mem_nil
  | some it =>
    rw [hEntry] at hMatches
    rw [Option.getD_some]
    constructor
    · intro hRefused
      have hOther : it.tid ≠ tid := by
        intro hSame
        rw [if_pos hSame] at hRefused
        cases hRefused
      obtain ⟨a, rest, hCons⟩ := List.exists_cons_of_ne_nil (hMatches.present.mp rfl)
      have ha : a ∈ active queue := hCons ▸ List.mem_cons_self
      exact ⟨a, ha, fun hSame => hOther ((hMatches.alike it rfl a ha).symm.trans hSame)⟩
    · rintro ⟨a, ha, hOther⟩
      exact if_neg fun hSame => hOther ((hMatches.alike it rfl a ha).trans hSame)

theorem add (h : Exact m active) {queue : Queue} {tid : Option Thread} (hRoom : (active queue).length + 1 < 2 ^ 32)
    (hAdd : m.add queue tid = some m') (hHere : (active' queue).Perm (tid :: active queue))
    (hOthers : ∀ other, other ≠ queue → (active' other).Perm (active other)) : Exact m' active' := by
  rw [SpinnerMonitor.add] at hAdd
  obtain ⟨hAlike, hUpdate⟩ := Option.ite_none_right_eq_some.mp hAdd
  obtain rfl := Option.some.inj hUpdate
  exact h.update (((h queue).cons hAlike hRoom).perm hHere) hOthers

end Exact

end SpinnerMonitor

/-! ## The active spinners of a state -/

namespace Spinner

theorem exists_set {α : Type} {l : List α} {i : Nat} {a : α} (h : l[i]? = some a) :
    ∃ front back, l = front ++ a :: back ∧ ∀ b, l.set i b = front ++ b :: back := by
  obtain ⟨hLt, hGet⟩ := List.getElem?_eq_some_iff.mp h
  refine ⟨l.take i, l.drop (i + 1), ?_, fun b => List.set_eq_take_append_cons_drop.trans (if_pos hLt)⟩
  rw [← hGet, List.getElem_cons_drop, List.take_append_drop]

theorem filterMap_middle {α β : Type} (f : α → Option β) (front back : List α) (a : α) :
    ((front ++ a :: back).filterMap f).Perm ((f a).toList ++ (front ++ back).filterMap f) := by
  refine (List.perm_middle.filterMap f).trans ?_
  rw [List.filterMap_cons]
  cases f a <;> exact List.Perm.refl _

namespace AsyncSpinner

def isActive (spinner : AsyncSpinner Thread Queue) : Bool := spinner.phase == .started || spinner.phase == .stopping

def spinOn [DecidableEq Queue] (queue : Queue) (spinner : AsyncSpinner Thread Queue) : Option (Option Thread) :=
  if spinner.callbackQueue = queue ∧ spinner.isActive = true then some none else none

end AsyncSpinner

def isStopping (spinners : List (AsyncSpinner Thread Queue)) (i : Nat) : Bool :=
  (spinners[i]?.map AsyncSpinner.phase) == some .stopping

section

variable {spinners : List (AsyncSpinner Thread Queue)} {i : Nat} {spinner : AsyncSpinner Thread Queue}

theorem isStopping_of_getElem? (h : spinners[i]? = some spinner) :
    isStopping spinners i = (spinner.phase == .stopping) := by
  rw [isStopping, h]
  rfl

theorem isStopping_set {before : AsyncSpinner Thread Queue} (h : spinners[i]? = some before) (j : Nat) :
    isStopping (spinners.set i spinner) j = if i = j then spinner.phase == .stopping else isStopping spinners j := by
  obtain ⟨hLt, -⟩ := List.getElem?_eq_some_iff.mp h
  rw [isStopping, List.getElem?_set]
  split
  · rfl
  · rfl

theorem isStopping_create (h : spinner.phase = .idle) (j : Nat) :
    isStopping (spinners ++ [spinner]) j = isStopping spinners j := by
  rw [isStopping, isStopping]
  rcases Nat.lt_trichotomy j spinners.length with hLt | rfl | hGt
  · rw [List.getElem?_append_left hLt]
  · rw [List.getElem?_concat_length, List.getElem?_eq_none (Nat.le_refl _), Option.map_some, h]
    rfl
  · have hLength : (spinners ++ [spinner]).length ≤ j := by
      rw [List.length_append, List.length_singleton]
      exact hGt
    rw [List.getElem?_eq_none hLength, List.getElem?_eq_none (Nat.le_of_lt hGt)]

end

theorem exists_frames [DecidableEq Thread] {s : State Thread Queue} {t : Thread} {frame : Frame Queue} (h : s.top t = some frame) :
    ∃ front back, s.frames = front ++ (t, frame) :: back ∧ s.pop t = front ++ back := by
  obtain ⟨f, hFind, rfl⟩ := Option.map_eq_some_iff.mp h
  obtain ⟨hThread, front, back, hFrames, hFront⟩ := List.find?_eq_some_iff_append.mp hFind
  have hSame : f.1 = t := by simpa using hThread
  have hOthers : ∀ g ∈ front, ¬ (decide (g.1 = t)) = true := fun g hg => by simpa using hFront g hg
  refine ⟨front, back, ?_, ?_⟩
  · rw [hFrames, ← hSame]
  · rw [State.pop, hFrames, List.eraseP_append_right _ hOthers, List.eraseP_cons_of_pos (by simpa using hSame)]

section

variable [DecidableEq Queue]

def spinOn (queue : Queue) (f : Thread × Frame Queue) : Option (Option Thread) :=
  if f.2 = .spin queue then some (some f.1) else none

/-- The spinners that spin the queue: the thread of a single-threaded one, `none` for an asynchronous one. -/
def activeOn (frames : List (Thread × Frame Queue)) (spinners : List (AsyncSpinner Thread Queue)) (queue : Queue) :
    List (Option Thread) :=
  frames.filterMap (spinOn queue) ++ spinners.filterMap (AsyncSpinner.spinOn queue)

/-- How many threads wait in `join_all` for the spinner. -/
def waiting (frames : List (Thread × Frame Queue)) (i : Nat) : Nat := frames.countP fun f => f.2 = .stop i

namespace State

def active (s : State Thread Queue) : Queue → List (Option Thread) := activeOn s.frames s.spinners

def Exact (s : State Thread Queue) : Prop := s.monitor.Exact s.active

end State

/-- No exception leaves a spin, no thread of an asynchronous spinner stops it, and the counter has room. -/
def Regular (s : State Thread Queue) : Label Thread Queue → Prop
  | .raise _ => False
  | .spin _ queue => (s.active queue).length + 1 < 2 ^ 32
  | .start _ i _ => ∀ spinner, s.spinners[i]? = some spinner → (s.active spinner.callbackQueue).length + 1 < 2 ^ 32
  | .stop t i => ∀ spinner, s.spinners[i]? = some spinner → spinner.phase = .started → t ∉ spinner.threads
  | _ => True

/-! ## What a step changes -/

variable {frames : List (Thread × Frame Queue)} {spinners : List (AsyncSpinner Thread Queue)}

theorem spinOn_spin (t : Thread) (queue : Queue) : spinOn queue (t, Frame.spin queue) = some (some t) := if_pos rfl

theorem spinOn_other (t : Thread) {queue other : Queue} (h : other ≠ queue) : spinOn other (t, Frame.spin queue) = none :=
  if_neg fun hSame => h (Frame.spin.inj hSame).symm

theorem spinOn_stop (t : Thread) (queue : Queue) (i : Nat) : spinOn queue (t, Frame.stop i) = none :=
  if_neg fun h => by cases h

theorem activeOn_cons (f : Thread × Frame Queue) (queue : Queue) :
    activeOn (f :: frames) spinners queue = (spinOn queue f).toList ++ activeOn frames spinners queue := by
  rw [activeOn, List.filterMap_cons]
  cases spinOn queue f <;> rfl

theorem activeOn_frame (front back : List (Thread × Frame Queue)) (f : Thread × Frame Queue) (queue : Queue) :
    (activeOn (front ++ f :: back) spinners queue).Perm
      ((spinOn queue f).toList ++ activeOn (front ++ back) spinners queue) := by
  rw [activeOn, activeOn, ← List.append_assoc]
  exact (filterMap_middle _ front back f).append_right _

theorem activeOn_spinner (front back : List (AsyncSpinner Thread Queue)) (spinner : AsyncSpinner Thread Queue)
    (queue : Queue) :
    (activeOn frames (front ++ spinner :: back) queue).Perm
      ((spinner.spinOn queue).toList ++ activeOn frames (front ++ back) queue) := by
  have hMiddle := (filterMap_middle (AsyncSpinner.spinOn queue) front back spinner).append_left
    (frames.filterMap (spinOn queue))
  refine hMiddle.trans ?_
  rw [activeOn, ← List.append_assoc, ← List.append_assoc]
  exact List.perm_append_comm.append_right _

theorem spinOn_inactive {spinner : AsyncSpinner Thread Queue} (h : spinner.isActive = false) (queue : Queue) :
    spinner.spinOn queue = none :=
  if_neg fun hBoth => by
    rw [h] at hBoth
    exact Bool.false_ne_true hBoth.2

theorem spinOn_active {spinner : AsyncSpinner Thread Queue} (h : spinner.isActive = true) (queue : Queue) :
    (spinner.spinOn queue).toList = if spinner.callbackQueue = queue then [none] else [] := by
  rw [AsyncSpinner.spinOn, h]
  by_cases hQueue : spinner.callbackQueue = queue
  · rw [if_pos ⟨hQueue, rfl⟩, if_pos hQueue]
    rfl
  · rw [if_neg fun hBoth => hQueue hBoth.1, if_neg hQueue]
    rfl

section

variable {i : Nat} {spinner spinner' : AsyncSpinner Thread Queue} (h : spinners[i]? = some spinner)

include h

theorem exists_activeOn_set (queue : Queue) :
    ∃ others, (activeOn frames spinners queue).Perm ((spinner.spinOn queue).toList ++ others) ∧
      (activeOn frames (spinners.set i spinner') queue).Perm ((spinner'.spinOn queue).toList ++ others) := by
  obtain ⟨front, back, hSpinners, hSet⟩ := exists_set h
  rw [hSet, hSpinners]
  exact ⟨activeOn frames (front ++ back) queue, activeOn_spinner front back spinner queue,
    activeOn_spinner front back spinner' queue⟩

theorem activeOn_set (hSame : ∀ queue, spinner'.spinOn queue = spinner.spinOn queue) (queue : Queue) :
    (activeOn frames (spinners.set i spinner') queue).Perm (activeOn frames spinners queue) := by
  obtain ⟨others, hBefore, hAfter⟩ := exists_activeOn_set h queue
  rw [hSame] at hAfter
  exact hAfter.trans hBefore.symm

theorem activeOn_started (hBefore : spinner.isActive = false) (hAfter : spinner'.isActive = true) (queue : Queue) :
    (activeOn frames (spinners.set i spinner') queue).Perm
      ((if spinner'.callbackQueue = queue then [none] else []) ++ activeOn frames spinners queue) := by
  obtain ⟨others, hWithout, hWith⟩ := exists_activeOn_set h queue
  rw [spinOn_inactive hBefore] at hWithout
  rw [spinOn_active hAfter] at hWith
  exact hWith.trans (hWithout.symm.append_left _)

theorem activeOn_stopped (hBefore : spinner.isActive = true) (hAfter : spinner'.isActive = false) (queue : Queue) :
    (activeOn frames spinners queue).Perm
      ((if spinner.callbackQueue = queue then [none] else []) ++ activeOn frames (spinners.set i spinner') queue) := by
  obtain ⟨others, hWith, hWithout⟩ := exists_activeOn_set h queue
  rw [spinOn_active hBefore] at hWith
  rw [spinOn_inactive hAfter] at hWithout
  exact hWith.trans (hWithout.symm.append_left _)

end

theorem waiting_cons (f : Thread × Frame Queue) (i : Nat) :
    waiting (f :: frames) i = waiting frames i + if f.2 = .stop i then 1 else 0 := by
  rw [waiting, List.countP_cons]
  simp only [decide_eq_true_eq]
  rfl

theorem waiting_middle (front back : List (Thread × Frame Queue)) (f : Thread × Frame Queue) (i : Nat) :
    waiting (front ++ f :: back) i = waiting (front ++ back) i + if f.2 = .stop i then 1 else 0 := by
  rw [← waiting_cons]
  exact List.perm_middle.countP_eq _

structure Inv (s : State Thread Queue) : Prop where
  counted : s.Exact
  waits : ∀ i, waiting s.frames i = if isStopping s.spinners i then 1 else 0

theorem inv_initial : Inv (initial : State Thread Queue) where
  counted _ := SpinnerMonitor.matches_none
  waits _ := rfl

namespace Inv

section

variable {s : State Thread Queue} (h : Inv s)

include h

theorem create (queue : Queue) : Inv { s with spinners := s.spinners ++ [⟨queue, [], .idle⟩] } where
  counted := by
    refine h.counted.perm fun other => ?_
    have hIdle : (⟨queue, [], .idle⟩ : AsyncSpinner Thread Queue).spinOn other = none :=
      if_neg fun hBoth => Bool.false_ne_true hBoth.2
    show (activeOn s.frames (s.spinners ++ [⟨queue, [], .idle⟩]) other).Perm (activeOn s.frames s.spinners other)
    rw [activeOn, List.filterMap_append, List.filterMap_cons, hIdle, List.filterMap_nil, List.append_nil]
    exact List.Perm.refl _
  waits i := by
    rw [isStopping_create rfl]
    exact h.waits i

theorem replace {i : Nat} {spinner spinner' : AsyncSpinner Thread Queue} (hSpinner : s.spinners[i]? = some spinner)
    (hSame : ∀ queue, spinner'.spinOn queue = spinner.spinOn queue) (hBefore : spinner.phase ≠ .stopping)
    (hAfter : spinner'.phase ≠ .stopping) : Inv { s with spinners := s.spinners.set i spinner' } where
  counted := h.counted.perm fun queue => activeOn_set hSpinner hSame queue
  waits j := by
    rw [isStopping_set hSpinner]
    split
    · subst i
      have hWaits := h.waits j
      rw [isStopping_of_getElem? hSpinner, beq_eq_false_iff_ne.mpr hBefore] at hWaits
      rw [beq_eq_false_iff_ne.mpr hAfter]
      exact hWaits
    · exact h.waits j

theorem destroy {i : Nat} {spinner : AsyncSpinner Thread Queue} (hSpinner : s.spinners[i]? = some spinner)
    (hIdle : spinner.phase = .idle) : Inv { s with spinners := s.spinners.set i { spinner with phase := .destroyed } } := by
  refine h.replace hSpinner (fun queue => ?_) (by rw [hIdle]; exact Phase.noConfusion) Phase.noConfusion
  rw [spinOn_inactive rfl, spinOn_inactive]
  rw [AsyncSpinner.isActive, hIdle]
  rfl

end

variable [DecidableEq Thread] {s : State Thread Queue} (h : Inv s)

include h

theorem spin {t : Thread} {queue : Queue} (hRoom : (s.active queue).length + 1 < 2 ^ 32) : Inv (s.spin t queue) := by
  rw [State.spin]
  cases hAdd : s.monitor.add queue (some t) with
  | none => exact h
  | some monitor =>
    refine ⟨h.counted.add hRoom hAdd ?_ fun other hOther => ?_, fun i => ?_⟩
    · show (activeOn ((t, Frame.spin queue) :: s.frames) s.spinners queue).Perm _
      rw [activeOn_cons, spinOn_spin]
      exact List.Perm.refl _
    · show (activeOn ((t, Frame.spin queue) :: s.frames) s.spinners other).Perm _
      rw [activeOn_cons, spinOn_other t hOther]
      exact List.Perm.refl _
    · show waiting ((t, Frame.spin queue) :: s.frames) i = _
      rw [waiting_cons, if_neg fun hStop => by cases hStop]
      exact h.waits i

theorem leave {t : Thread} {queue : Queue} (hTop : s.top t = some (.spin queue)) :
    ∃ s', step s (.leave t) = some s' ∧ Inv s' := by
  obtain ⟨front, back, hFrames, hPop⟩ := exists_frames hTop
  have hActive : ∀ other, (s.active other).Perm
      ((spinOn other (t, Frame.spin queue)).toList ++ activeOn (s.pop t) s.spinners other) := by
    intro other
    rw [State.active, hFrames, hPop]
    exact activeOn_frame front back _ other
  have hHere := hActive queue
  rw [spinOn_spin] at hHere
  have hOthers : ∀ other, other ≠ queue → (s.active other).Perm (activeOn (s.pop t) s.spinners other) := by
    intro other hOther
    have hThere := hActive other
    rwa [spinOn_other t hOther] at hThere
  obtain ⟨monitor, hRemove, hExact⟩ := h.counted.remove hHere hOthers
  refine ⟨{ s with monitor := monitor, frames := s.pop t }, ?_, hExact, fun i => ?_⟩
  · rw [step, hTop]
    dsimp only
    rw [hRemove, Option.map_some]
  · have hWaits := h.waits i
    rw [hFrames, waiting_middle, if_neg fun hStop => by cases hStop] at hWaits
    rw [← hWaits, hPop]
    rfl

theorem start {i : Nat} {spinner : AsyncSpinner Thread Queue} (hSpinner : s.spinners[i]? = some spinner)
    {threads : List Thread} (hRoom : (s.active spinner.callbackQueue).length + 1 < 2 ^ 32) {s' : State Thread Queue}
    (hStart : s.start i spinner threads = some s') : Inv s' := by
  rw [State.start] at hStart
  split at hStart
  · cases hStart
    exact h
  · rename_i hIdle
    split at hStart
    · cases hStart
      exact h
    · rename_i monitor hAdd
      cases hStart
      have hInactive : spinner.isActive = false := by rw [AsyncSpinner.isActive, hIdle]; rfl
      have hActive : ∀ queue, (activeOn s.frames
          (s.spinners.set i { spinner with threads := spinner.threads ++ threads, phase := .started }) queue).Perm
            ((if spinner.callbackQueue = queue then [none] else []) ++ s.active queue) :=
        activeOn_started hSpinner hInactive rfl
      refine ⟨h.counted.add hRoom hAdd ?_ fun other hOther => ?_, fun j => ?_⟩
      · have hHere := hActive spinner.callbackQueue
        rwa [if_pos rfl] at hHere
      · have hThere := hActive other
        rwa [if_neg hOther.symm] at hThere
      · rw [isStopping_set hSpinner]
        split
        · subst i
          have hWaits := h.waits j
          rw [isStopping_of_getElem? hSpinner, hIdle] at hWaits
          exact hWaits
        · exact h.waits j
  · cases hStart

theorem stop {t : Thread} {i : Nat} {spinner : AsyncSpinner Thread Queue} (hSpinner : s.spinners[i]? = some spinner)
    (hOther : spinner.phase = .started → t ∉ spinner.threads) {s' : State Thread Queue}
    (hStop : s.stop t i spinner = some s') : Inv s' := by
  rw [State.stop] at hStop
  split at hStop
  · cases hStop
    exact h
  · rename_i hStarted
    rw [if_neg (hOther hStarted)] at hStop
    cases hStop
    refine ⟨h.counted.perm fun queue => ?_, fun j => ?_⟩
    · show (activeOn ((t, Frame.stop i) :: s.frames) (s.spinners.set i { spinner with phase := .stopping }) queue).Perm _
      rw [activeOn_cons, spinOn_stop]
      refine activeOn_set hSpinner (fun other => ?_) queue
      rw [AsyncSpinner.spinOn, AsyncSpinner.spinOn, AsyncSpinner.isActive, AsyncSpinner.isActive, hStarted]
      rfl
    · have hWaits := h.waits j
      show waiting ((t, Frame.stop i) :: s.frames) j = _
      rw [waiting_cons, hWaits, isStopping_set hSpinner]
      by_cases hSame : i = j
      · subst hSame
        rw [isStopping_of_getElem? hSpinner, hStarted]
        simp
      · have hFrame : ¬ (Frame.stop i : Frame Queue) = .stop j := fun hEq => hSame (Frame.stop.inj hEq)
        rw [if_neg hFrame, if_neg hSame, Nat.add_zero]
  · cases hStop

theorem join {t : Thread} {i : Nat} {spinner : AsyncSpinner Thread Queue} (hTop : s.top t = some (.stop i))
    (hSpinner : s.spinners[i]? = some spinner) (hEnded : (s.frames.all fun f => !spinner.threads.contains f.1) = true) :
    ∃ s', s.join t i spinner = some s' ∧ Inv s' := by
  obtain ⟨front, back, hFrames, hPop⟩ := exists_frames hTop
  have hWaits := h.waits i
  rw [hFrames, waiting_middle, if_pos rfl, isStopping_of_getElem? hSpinner] at hWaits
  have hStopping : spinner.phase = .stopping := by
    by_contra hOther
    rw [beq_eq_false_iff_ne.mpr hOther] at hWaits
    exact absurd hWaits (Nat.succ_ne_zero _)
  have hActive : spinner.isActive = true := by rw [AsyncSpinner.isActive, hStopping]; rfl
  have hPerm : ∀ queue, (s.active queue).Perm ((if spinner.callbackQueue = queue then [none] else []) ++
      activeOn (s.pop t) (s.spinners.set i { spinner with phase := .idle }) queue) := by
    intro queue
    have hFrame : (s.active queue).Perm (activeOn (s.pop t) s.spinners queue) := by
      rw [State.active, hFrames, hPop]
      exact activeOn_frame front back _ queue
    exact hFrame.trans (activeOn_stopped hSpinner hActive rfl queue)
  have hHere := hPerm spinner.callbackQueue
  rw [if_pos rfl] at hHere
  have hOthers : ∀ other, other ≠ spinner.callbackQueue → (s.active other).Perm
      (activeOn (s.pop t) (s.spinners.set i { spinner with phase := .idle }) other) := by
    intro other hOther
    have hThere := hPerm other
    rwa [if_neg hOther.symm] at hThere
  obtain ⟨monitor, hRemove, hExact⟩ := h.counted.remove hHere hOthers
  rw [State.join, if_pos hEnded, hRemove]
  refine ⟨_, rfl, hExact, fun j => ?_⟩
  show waiting (s.pop t) j = _
  have hCount := h.waits j
  rw [hFrames, waiting_middle] at hCount
  rw [hPop, isStopping_set hSpinner]
  by_cases hSame : i = j
  · subst hSame
    rw [if_pos rfl, isStopping_of_getElem? hSpinner, hStopping] at hCount
    rw [if_pos rfl]
    exact Nat.succ.inj hCount
  · have hFrame : ¬ (Frame.stop i : Frame Queue) = .stop j := fun hEq => hSame (Frame.stop.inj hEq)
    rw [if_neg hFrame, Nat.add_zero] at hCount
    rw [if_neg hSame]
    exact hCount

theorem step {label : Label Thread Queue} {s' : State Thread Queue} (hRegular : Regular s label)
    (hStep : step s label = some s') : Inv s' := by
  cases label with
  | spin t queue =>
    rw [Spinner.step] at hStep
    split at hStep
    · cases hStep
    · cases hStep
      exact h.spin hRegular
  | leave t =>
    cases hTop : s.top t with
    | none => rw [Spinner.step, hTop] at hStep; cases hStep
    | some frame =>
      cases frame with
      | stop i => rw [Spinner.step, hTop] at hStep; cases hStep
      | spin queue =>
        obtain ⟨s'', hLeave, hInv⟩ := h.leave hTop
        rw [hLeave] at hStep
        exact Option.some.inj hStep ▸ hInv
  | raise t => exact absurd hRegular not_false
  | create queue =>
    cases hStep
    exact h.create queue
  | start t i threads =>
    rw [Spinner.step] at hStep
    split at hStep
    · cases hStep
    · obtain ⟨spinner, hSpinner, hStart⟩ := Option.bind_eq_some_iff.mp hStep
      exact h.start hSpinner (hRegular spinner hSpinner) hStart
  | stop t i =>
    rw [Spinner.step] at hStep
    split at hStep
    · cases hStep
    · obtain ⟨spinner, hSpinner, hStop⟩ := Option.bind_eq_some_iff.mp hStep
      exact h.stop hSpinner (hRegular spinner hSpinner) hStop
  | join t =>
    cases hTop : s.top t with
    | none => rw [Spinner.step, hTop] at hStep; cases hStep
    | some frame =>
      cases frame with
      | spin queue => rw [Spinner.step, hTop] at hStep; cases hStep
      | stop i =>
        rw [Spinner.step, hTop] at hStep
        obtain ⟨spinner, hSpinner, hJoin⟩ := Option.bind_eq_some_iff.mp hStep
        by_cases hEnded : (s.frames.all fun f => !spinner.threads.contains f.1) = true
        · obtain ⟨s'', hSome, hInv⟩ := h.join hTop hSpinner hEnded
          rw [hSome] at hJoin
          exact Option.some.inj hJoin ▸ hInv
        · rw [State.join, if_neg hEnded] at hJoin
          cases hJoin
  | destroy i =>
    rw [Spinner.step] at hStep
    obtain ⟨spinner, hSpinner, hDestroy⟩ := Option.bind_eq_some_iff.mp hStep
    obtain ⟨hIdle, rfl⟩ := of_guard hDestroy
    exact h.destroy hSpinner hIdle

end Inv

variable [DecidableEq Thread]

theorem inv_of_reachable {s : State Thread Queue} (h : (machine Thread Queue).ReachableWhen Regular s) : Inv s :=
  h.invariant Inv (fun _ hInit => hInit ▸ inv_initial) fun _ _ _ hInv hRegular hStep => hInv.step hRegular hStep

/-- In a run without exceptions that leave a spin, without spinners that are stopped by their own threads and without
full counters, the monitor has exactly the active spinners, and a spinner is refused exactly when an unlike one is
active. -/
theorem bookkeeping_exact {s : State Thread Queue} (h : (machine Thread Queue).ReachableWhen Regular s) :
    s.Exact ∧ ∀ queue tid, s.monitor.add queue tid = none ↔ ∃ a ∈ s.active queue, a ≠ tid :=
  have hInv := inv_of_reachable h
  ⟨hInv.counted, hInv.counted.refused_iff⟩

/-- A nested spin of a thread on the queue that it spins. -/
theorem bookkeeping_exact_nested :
    ∃ s, (machine Nat Nat).run initial [.spin 1 0, .spin 1 0] = some s ∧ s.active 0 = [some 1, some 1] ∧
      s.Exact ∧ ∀ queue tid, s.monitor.add queue tid = none ↔ ∃ a ∈ s.active queue, a ≠ tid := by
  have hRoom : ((initial : State Nat Nat).active 0).length + 1 < 2 ^ 32 := by decide
  have hOnce : (machine Nat Nat).ReachableWhen Regular (initial.spin 1 0) :=
    (Machine.ReachableWhen.init rfl).step (a := .spin 1 0) hRoom rfl
  have hMore : (((initial : State Nat Nat).spin 1 0).active 0).length + 1 < 2 ^ 32 := by decide
  have hTwice : (machine Nat Nat).ReachableWhen Regular ((initial.spin 1 0).spin 1 0) :=
    hOnce.step (a := .spin 1 0) hMore rfl
  exact ⟨_, rfl, rfl, bookkeeping_exact hTwice⟩

/-- A callback throws, and the queue that nothing spins is refused from then on; so it is when a callback stops the
spinner that runs it. -/
theorem entry_left_over :
    (∃ s, (machine Nat Nat).run initial [.spin 1 0, .raise 1] = some s ∧ ¬ s.Exact ∧ s.active 0 = [] ∧
      s.monitor.add 0 (some 2) = none) ∧
    ∃ s, (machine Nat Nat).run initial [.create 0, .start 1 0 [2], .stop 2 0] = some s ∧ ¬ s.Exact ∧ s.active 0 = [] ∧
      s.monitor.add 0 (some 1) = none := by
  refine ⟨⟨_, rfl, fun h => ?_, rfl, rfl⟩, _, rfl, fun h => ?_, rfl, rfl⟩
  · exact (h 0).present.mp rfl rfl
  · exact (h 0).present.mp rfl rfl

end

end Spinner

end XcRos.Libros
