import Mathlib.Data.List.Nodup
import XcRos.Foundation.Graph
import XcRos.Foundation.Machine

/-! # The build queue of rosmake

`BuildQueue` and the threads that take packages from it. Each label is one stretch under the lock:
from the call, or from where `wait` has the lock again, to the next `wait` or the return.
-/

namespace XcRos.Rosmake

open XcRos.Foundation

set_option linter.unusedSectionVars false

open scoped List

variable {α : Type} [DecidableEq α]

structure Build (α : Type) where
  packages : List α
  deps : α → List α
  robust : Bool

/-- The fields of `BuildQueue`; of `_started` the keys. -/
structure BuildQueue (α : Type) where
  toBuild : List α
  built : List α
  failed : List α
  started : List α
  done : Bool
  hackEndCounter : Nat

/-- Where a thread is: outside, in `wait`, at work on a package, or back with `None`. -/
inductive Phase (α : Type) where
  | idle
  | waiting
  | building (package : α)
  | ended
  deriving DecidableEq

/-- What the walk over `to_build` comes to. -/
inductive Found (α : Type) where
  | package (p : α)
  | hung
  | nothing

namespace BuildQueue

variable (b : Build α) (q : BuildQueue α)

def isCompleted : Bool := q.built.length + q.failed.length == b.packages.length

def isDone : Bool := q.isCompleted b || q.done

def dependenciesMet (p : α) : Bool :=
  (b.deps p).all fun d => decide (d ∈ q.built) || (b.robust && decide (d ∈ q.failed))

/-- The walk. The test for a hung build stands inside of it. -/
def scan : List α → Found α
  | [] => .nothing
  | p :: rest =>
    if q.dependenciesMet b p then .package p
    else if q.started = [] ∧ 2 < q.hackEndCounter then .hung
    else scan rest

/-- One turn of the loop of `get_valid_package`. -/
def look : BuildQueue α × Phase α :=
  if q.isDone b ∨ q.toBuild = [] then (q, .ended)
  else
    match q.scan b q.toBuild with
    | .package p =>
      ({ q with toBuild := q.toBuild.erase p, started := q.started ++ [p], hackEndCounter := 0 }, .building p)
    | .hung => (q, .ended)
    | .nothing => (q, .waiting)

def count : BuildQueue α := { q with hackEndCounter := q.hackEndCounter + 1 }

/-- Behind `wait`. -/
def wake : BuildQueue α × Phase α :=
  if q.count.isDone b then (q.count, .ended) else q.count.look b

def returnBuilt (p : α) (successful : Bool) : BuildQueue α :=
  let q := if successful then { q with built := q.built ++ [p] } else { q with failed := q.failed ++ [p] }
  let q := { q with started := q.started.erase p }
  { q with done := q.done || q.isCompleted b }

end BuildQueue

structure State (α : Type) where
  queue : BuildQueue α
  threads : Nat → Phase α

inductive Label where
  | getValidPackage (thread : Nat)
  | wake (thread : Nat)
  | returnBuilt (thread : Nat) (successful : Bool)

namespace State

def start (b : Build α) : State α where
  queue := ⟨b.packages, [], [], [], false, 0⟩
  threads _ := .idle

def move (s : State α) (thread : Nat) (next : BuildQueue α × Phase α) : State α where
  queue := next.1
  threads := Function.update s.threads thread next.2

/-- A thread returns what it was given before it asks again, and a failure only in a robust build. -/
def step (b : Build α) (s : State α) : Label → Option (State α)
  | .getValidPackage thread =>
    if s.threads thread = .idle ∨ s.threads thread = .ended then some (s.move thread (s.queue.look b))
    else none
  | .wake thread => if s.threads thread = .waiting then some (s.move thread (s.queue.wake b)) else none
  | .returnBuilt thread successful =>
    match s.threads thread with
    | .building p =>
      if successful || b.robust then some (s.move thread (s.queue.returnBuilt b p successful, .idle)) else none
    | _ => none

end State

def builder (b : Build α) : Machine (State α) Label where
  Init s := s = .start b
  step := State.step b

/-! ## One look at the queue -/

namespace BuildQueue

variable {b : Build α} {q : BuildQueue α}

theorem of_scan_eq_package {l : List α} {p : α} (h : q.scan b l = .package p) :
    p ∈ l ∧ q.dependenciesMet b p = true := by
  induction l with
  | nil => cases h
  | cons first rest ih =>
    rw [scan] at h
    split at h
    · rename_i hMet
      cases h
      exact ⟨List.mem_cons_self, hMet⟩
    · split at h
      · cases h
      · obtain ⟨hMem, hMet⟩ := ih h
        exact ⟨List.mem_cons_of_mem first hMem, hMet⟩

theorem scan_eq_hung_iff {l : List α} :
    q.scan b l = .hung ↔
      (q.started = [] ∧ 2 < q.hackEndCounter) ∧ ∃ p, l.head? = some p ∧ q.dependenciesMet b p = false := by
  induction l with
  | nil => simp [scan]
  | cons first rest ih =>
    rw [scan, List.head?_cons]
    by_cases hMet : q.dependenciesMet b first = true
    · rw [if_pos hMet]
      refine iff_of_false (by simp) ?_
      rintro ⟨-, p, hp, hUnmet⟩
      cases hp
      rw [hMet] at hUnmet
      cases hUnmet
    · rw [if_neg hMet]
      by_cases hFew : q.started = [] ∧ 2 < q.hackEndCounter
      · rw [if_pos hFew]
        exact iff_of_true rfl ⟨hFew, first, rfl, by simpa using hMet⟩
      · rw [if_neg hFew, ih]
        exact iff_of_false (fun h => hFew h.1) fun h => hFew h.1

/-- The branch that gives up: the walk stops at the first package with nothing in progress. -/
def GivesUp (b : Build α) (q : BuildQueue α) : Prop :=
  q.isDone b = false ∧ (q.started = [] ∧ 2 < q.hackEndCounter) ∧
    ∃ p, q.toBuild.head? = some p ∧ q.dependenciesMet b p = false

theorem look_cases (b : Build α) (q : BuildQueue α) :
    (q.look b = (q, .ended) ∧ (q.isDone b = true ∨ q.toBuild = [])) ∨
    (q.look b = (q, .ended) ∧ q.GivesUp b) ∨
    q.look b = (q, .waiting) ∨
    ∃ p ∈ q.toBuild, q.dependenciesMet b p = true ∧
      q.look b =
        ({ q with toBuild := q.toBuild.erase p, started := q.started ++ [p], hackEndCounter := 0 }, .building p) := by
  rw [look]
  by_cases hOver : q.isDone b = true ∨ q.toBuild = []
  · rw [if_pos hOver]
    exact .inl ⟨rfl, hOver⟩
  · rw [if_neg hOver]
    obtain ⟨hDone, -⟩ := not_or.mp hOver
    cases hScan : q.scan b q.toBuild with
    | package p =>
      obtain ⟨hMem, hMet⟩ := of_scan_eq_package hScan
      exact .inr (.inr (.inr ⟨p, hMem, hMet, rfl⟩))
    | hung => exact .inr (.inl ⟨rfl, by simpa using hDone, scan_eq_hung_iff.mp hScan⟩)
    | nothing => exact .inr (.inr (.inl rfl))

theorem look_of_givesUp (h : q.GivesUp b) : q.look b = (q, .ended) := by
  obtain ⟨hDone, hFew, p, hHead, hUnmet⟩ := h
  have hSome : q.toBuild ≠ [] := by
    intro hNil
    rw [hNil] at hHead
    cases hHead
  have hScan := scan_eq_hung_iff.mpr ⟨hFew, p, hHead, hUnmet⟩
  rw [look, if_neg (by simp [hDone, hSome]), hScan]

theorem wake_eq_look (b : Build α) (q : BuildQueue α) : q.wake b = q.count.look b := by
  rw [wake]
  split
  · rename_i hDone
    rw [look, if_pos (.inl hDone)]
  · rfl

/-- With nothing in progress and more than two waits counted, the first package left can be built. -/
def HeadReady (b : Build α) (q : BuildQueue α) : Prop :=
  q.isDone b = false → q.started = [] → 2 < q.hackEndCounter →
    ∀ p, q.toBuild.head? = some p → q.dependenciesMet b p = true

theorem not_headReady_iff : ¬ q.HeadReady b ↔ q.GivesUp b := by
  constructor
  · intro h
    simp only [HeadReady, not_forall] at h
    obtain ⟨hDone, hStarted, hMany, p, hHead, hUnmet⟩ := h
    exact ⟨hDone, ⟨hStarted, hMany⟩, p, hHead, by simpa using hUnmet⟩
  · rintro ⟨hDone, ⟨hStarted, hMany⟩, p, hHead, hUnmet⟩ h
    rw [h hDone hStarted hMany p hHead] at hUnmet
    cases hUnmet

def AllReturned (b : Build α) (q : BuildQueue α) : Prop := ∀ p ∈ b.packages, p ∈ q.built ∨ p ∈ q.failed

end BuildQueue

/-! ## Where the packages are -/

namespace BuildQueue

variable {b : Build α} {q : BuildQueue α} {p : α}

/-- The four places a package can be in, one behind the other. -/
def places (q : BuildQueue α) : List α := q.toBuild ++ q.started ++ (q.built ++ q.failed)

/-- `p` is handed out. -/
def take (q : BuildQueue α) (p : α) : BuildQueue α :=
  { q with toBuild := q.toBuild.erase p, started := q.started ++ [p], hackEndCounter := 0 }

theorem places_take (hp : p ∈ q.toBuild) : (q.take p).places ~ q.places := by
  refine List.Perm.append_right _ ?_
  calc q.toBuild.erase p ++ (q.started ++ [p])
      = (q.toBuild.erase p ++ q.started) ++ [p] := (List.append_assoc ..).symm
    _ ~ p :: (q.toBuild.erase p ++ q.started) := List.perm_append_singleton ..
    _ = (p :: q.toBuild.erase p) ++ q.started := rfl
    _ ~ q.toBuild ++ q.started := (List.perm_cons_erase hp).symm.append_right _

@[simp] theorem toBuild_returnBuilt (successful : Bool) : (q.returnBuilt b p successful).toBuild = q.toBuild := by
  cases successful <;> rfl

@[simp] theorem started_returnBuilt (successful : Bool) :
    (q.returnBuilt b p successful).started = q.started.erase p := by
  cases successful <;> rfl

theorem returned_perm (successful : Bool) :
    (q.returnBuilt b p successful).built ++ (q.returnBuilt b p successful).failed ~
      p :: (q.built ++ q.failed) := by
  cases successful with
  | true =>
    show q.built ++ [p] ++ q.failed ~ _
    rw [List.append_assoc]
    exact List.perm_middle
  | false =>
    show q.built ++ (q.failed ++ [p]) ~ _
    rw [← List.append_assoc]
    exact List.perm_append_singleton ..

theorem started_returnBuilt_perm (hp : p ∈ q.started) (successful : Bool) :
    (q.returnBuilt b p successful).started ++
        ((q.returnBuilt b p successful).built ++ (q.returnBuilt b p successful).failed) ~
      q.started ++ (q.built ++ q.failed) := by
  rw [started_returnBuilt]
  calc q.started.erase p ++ _
      ~ q.started.erase p ++ p :: (q.built ++ q.failed) := (returned_perm successful).append_left _
    _ ~ p :: q.started.erase p ++ (q.built ++ q.failed) := List.perm_middle
    _ ~ q.started ++ (q.built ++ q.failed) := (List.perm_cons_erase hp).symm.append_right _

theorem places_returnBuilt (hp : p ∈ q.started) (successful : Bool) :
    (q.returnBuilt b p successful).places ~ q.places := by
  rw [places, places, List.append_assoc, List.append_assoc, toBuild_returnBuilt]
  exact (started_returnBuilt_perm hp successful).append_left _

theorem mem_built_returnBuilt {d : α} {successful : Bool} (h : d ∈ (q.returnBuilt b p successful).built) :
    d ∈ q.built ∨ d = p ∧ successful = true := by
  cases successful with
  | true => exact (List.mem_append.mp h).imp_right fun hLast => ⟨List.mem_singleton.mp hLast, rfl⟩
  | false => exact .inl h

theorem mem_failed_returnBuilt {d : α} {successful : Bool} (h : d ∈ (q.returnBuilt b p successful).failed) :
    d ∈ q.failed ∨ d = p ∧ successful = false := by
  cases successful with
  | true => exact .inl h
  | false => exact (List.mem_append.mp h).imp_right fun hLast => ⟨List.mem_singleton.mp hLast, rfl⟩

end BuildQueue

/-- Every package is in one place, and each that is in progress is with one thread. -/
structure Accounted (b : Build α) (s : State α) : Prop where
  parted : (s.queue.toBuild ++ s.queue.started ++ (s.queue.built ++ s.queue.failed)).Perm b.packages
  ordered : s.queue.toBuild.Sublist b.packages
  completed : s.queue.done = true → s.queue.isCompleted b = true
  robust : s.queue.failed ≠ [] → b.robust = true
  building : ∀ t p, s.threads t = .building p → p ∈ s.queue.started
  alone : ∀ t t' p, s.threads t = .building p → s.threads t' = .building p → t = t'

def Over (b : Build α) (q : BuildQueue α) : Prop := q.toBuild = [] ∨ q.AllReturned b

/-- `get_valid_package` has given `None` only when the build was over. -/
def EndsInTime (b : Build α) (s : State α) : Prop := ∀ t, s.threads t = .ended → Over b s.queue

namespace State

@[simp] theorem move_queue (s : State α) (t : Nat) (next : BuildQueue α × Phase α) :
    (s.move t next).queue = next.1 := rfl

theorem move_threads_self (s : State α) (t : Nat) (next : BuildQueue α × Phase α) :
    (s.move t next).threads t = next.2 := Function.update_self ..

theorem move_threads_of_ne (s : State α) {t t' : Nat} (h : t' ≠ t) (next : BuildQueue α × Phase α) :
    (s.move t next).threads t' = s.threads t' := Function.update_of_ne h ..

end State

namespace Accounted

variable {b : Build α} {s : State α}

theorem start (b : Build α) : Accounted b (.start b) where
  parted := by
    show (b.packages ++ [] ++ ([] ++ [])).Perm b.packages
    rw [List.append_nil, List.append_nil, List.append_nil]
  ordered := List.Sublist.refl _
  completed h := by cases h
  robust h := absurd rfl h
  building t p h := by cases h
  alone t t' p h := by cases h

theorem stay (h : Accounted b s) (t n : Nat) {phase : Phase α} (hPhase : ∀ p, phase ≠ .building p) :
    Accounted b (s.move t ({ s.queue with hackEndCounter := n }, phase)) where
  parted := h.parted
  ordered := h.ordered
  completed := h.completed
  robust := h.robust
  building t' p hBuilding := by
    by_cases ht : t' = t
    · rw [ht, State.move_threads_self] at hBuilding
      exact absurd hBuilding (hPhase p)
    · rw [State.move_threads_of_ne s ht] at hBuilding
      exact h.building t' p hBuilding
  alone t' t'' p hFirst hSecond := by
    have hOther (u : Nat) (hu : (s.move t ({ s.queue with hackEndCounter := n }, phase)).threads u = .building p) :
        s.threads u = .building p := by
      by_cases ht : u = t
      · rw [ht, State.move_threads_self] at hu
        exact absurd hu (hPhase p)
      · rwa [State.move_threads_of_ne s ht] at hu
    exact h.alone t' t'' p (hOther t' hFirst) (hOther t'' hSecond)

theorem nodup (h : Accounted b s) (hNodup : b.packages.Nodup) :
    (s.queue.toBuild ++ s.queue.started ++ (s.queue.built ++ s.queue.failed)).Nodup :=
  h.parted.nodup_iff.mpr hNodup

theorem take (h : Accounted b s) (hNodup : b.packages.Nodup) (t n : Nat) {p : α} (hp : p ∈ s.queue.toBuild) :
    Accounted b (s.move t
      ({ s.queue with toBuild := s.queue.toBuild.erase p, started := s.queue.started ++ [p], hackEndCounter := n },
        .building p)) := by
  have hFree : p ∉ s.queue.started := by
    have hParts := h.nodup hNodup
    rw [List.append_assoc, List.nodup_append] at hParts
    intro hStarted
    exact hParts.2.2 p hp p (List.mem_append_left _ hStarted) rfl
  refine ⟨?_, (List.erase_sublist).trans h.ordered, h.completed, h.robust, ?_, ?_⟩
  · exact (BuildQueue.places_take hp).trans h.parted
  · intro t' q hBuilding
    by_cases ht : t' = t
    · rw [ht, State.move_threads_self] at hBuilding
      cases hBuilding
      exact List.mem_append_right _ List.mem_cons_self
    · rw [State.move_threads_of_ne s ht] at hBuilding
      exact List.mem_append_left _ (h.building t' q hBuilding)
  · have hOther (u u' : Nat) (q : α) (hu : u = t) (hu' : u' ≠ t)
        (hFirst : Phase.building p = .building q) (hSecond : s.threads u' = .building q) : False := by
      cases hFirst
      exact hFree (h.building u' p hSecond)
    intro t' t'' q hFirst hSecond
    by_cases ht' : t' = t <;> by_cases ht'' : t'' = t
    · rw [ht', ht'']
    · rw [ht', State.move_threads_self] at hFirst
      rw [State.move_threads_of_ne s ht''] at hSecond
      exact (hOther t' t'' q ht' ht'' hFirst hSecond).elim
    · rw [State.move_threads_of_ne s ht'] at hFirst
      rw [ht'', State.move_threads_self] at hSecond
      exact (hOther t'' t' q ht'' ht' hSecond hFirst).elim
    · rw [State.move_threads_of_ne s ht'] at hFirst
      rw [State.move_threads_of_ne s ht''] at hSecond
      exact h.alone t' t'' q hFirst hSecond

theorem length_eq (h : Accounted b s) :
    s.queue.toBuild.length + s.queue.started.length + (s.queue.built.length + s.queue.failed.length) =
      b.packages.length := by
  rw [← h.parted.length_eq, List.length_append, List.length_append, List.length_append]

theorem not_completed (h : Accounted b s) {p : α} (hp : p ∈ s.queue.started) :
    s.queue.isCompleted b = false := by
  have hLength := h.length_eq
  have hSome := List.length_pos_of_mem hp
  rw [BuildQueue.isCompleted, beq_eq_false_iff_ne]
  omega

theorem isCompleted_of_isDone (h : Accounted b s) (hDone : s.queue.isDone b = true) :
    s.queue.isCompleted b = true := by
  rw [BuildQueue.isDone, Bool.or_eq_true] at hDone
  exact hDone.elim id h.completed

theorem allReturned (h : Accounted b s) (hDone : s.queue.isDone b = true) : s.queue.AllReturned b := by
  have hLength := h.length_eq
  have hCompleted := h.isCompleted_of_isDone hDone
  rw [BuildQueue.isCompleted, beq_iff_eq] at hCompleted
  have hToBuild : s.queue.toBuild = [] := List.length_eq_zero_iff.mp (by omega)
  have hStarted : s.queue.started = [] := List.length_eq_zero_iff.mp (by omega)
  have hParted := h.parted
  rw [hToBuild, hStarted] at hParted
  intro p hp
  exact List.mem_append.mp (hParted.mem_iff.mpr hp)

theorem give (h : Accounted b s) {t : Nat} {p : α} (hBuilding : s.threads t = .building p) {successful : Bool}
    (hRobust : successful = true ∨ b.robust = true) :
    Accounted b (s.move t (s.queue.returnBuilt b p successful, .idle)) := by
  have hp := h.building t p hBuilding
  have hOther {u : Nat} {q : α}
      (hu : (s.move t (s.queue.returnBuilt b p successful, .idle)).threads u = .building q) :
      u ≠ t ∧ s.threads u = .building q := by
    by_cases hut : u = t
    · rw [hut, State.move_threads_self] at hu
      cases hu
    · exact ⟨hut, by rwa [State.move_threads_of_ne s hut] at hu⟩
  refine ⟨?_, ?_, fun hDone => ?_, ?_, fun u q hu => ?_, fun u u' q hu hu' => ?_⟩
  · exact (BuildQueue.places_returnBuilt hp successful).trans h.parted
  · rw [State.move_queue]
    dsimp only
    rw [BuildQueue.toBuild_returnBuilt]
    exact h.ordered
  · have hNotYet : s.queue.done = false := by
      by_contra hEarly
      have hCompleted := h.completed (by simpa using hEarly)
      rw [h.not_completed hp] at hCompleted
      cases hCompleted
    cases successful <;> simpa [BuildQueue.returnBuilt, BuildQueue.isCompleted, hNotYet] using hDone
  · cases successful with
    | true => exact h.robust
    | false => exact fun _ => hRobust.resolve_left (by decide)
  · obtain ⟨hut, hOld⟩ := hOther hu
    rw [State.move_queue]
    dsimp only
    rw [BuildQueue.started_returnBuilt]
    refine (List.mem_erase_of_ne ?_).mpr (h.building u q hOld)
    rintro rfl
    exact hut (h.alone u t q hOld hBuilding)
  · exact h.alone u u' q (hOther hu).2 (hOther hu').2

theorem dependenciesMet_of_forall (h : Accounted b s)
    (hContained : ∀ p ∈ b.packages, ∀ d ∈ b.deps p, d ∈ b.packages) (hStarted : s.queue.started = []) {p : α}
    (hp : p ∈ s.queue.toBuild) (hFree : ∀ d ∈ b.deps p, d ∉ s.queue.toBuild) :
    s.queue.dependenciesMet b p = true := by
  refine List.all_eq_true.mpr fun d hd => ?_
  have hMem : d ∈ s.queue.toBuild ++ s.queue.started ++ (s.queue.built ++ s.queue.failed) :=
    h.parted.mem_iff.mpr (hContained p (h.ordered.subset hp) d hd)
  rw [hStarted, List.append_nil] at hMem
  obtain hLeft | hReturned := List.mem_append.mp hMem
  · exact absurd hLeft (hFree d hd)
  · obtain hBuilt | hFailed := List.mem_append.mp hReturned
    · simp [hBuilt]
    · simp [hFailed, h.robust (List.ne_nil_of_mem hFailed)]

theorem exists_dependenciesMet (h : Accounted b s)
    (hContained : ∀ p ∈ b.packages, ∀ d ∈ b.deps p, d ∈ b.packages)
    (hAcyclic : Acyclic fun p d => d ∈ b.deps p) (hStarted : s.queue.started = []) (hLeft : s.queue.toBuild ≠ []) :
    ∃ p ∈ s.queue.toBuild, s.queue.dependenciesMet b p = true := by
  obtain ⟨p, hp, hLast⟩ := hAcyclic.exists_last hLeft
  exact ⟨p, hp, h.dependenciesMet_of_forall hContained hStarted hp fun d hd hLeft => hLast d hLeft (.single hd)⟩

end Accounted

theorem step_cases {b : Build α} {s s' : State α} {a : Label} (h : State.step b s a = some s') :
    (∃ t n, (∀ p, s.threads t ≠ .building p) ∧
      (a = .getValidPackage t ∧ n = s.queue.hackEndCounter ∨ a = .wake t ∧ n = s.queue.hackEndCounter + 1) ∧
      s' = s.move t (BuildQueue.look b { s.queue with hackEndCounter := n })) ∨
    ∃ t p successful, s.threads t = .building p ∧ (successful = true ∨ b.robust = true) ∧
      a = .returnBuilt t successful ∧ s' = s.move t (s.queue.returnBuilt b p successful, .idle) := by
  cases a with
  | getValidPackage t =>
    obtain ⟨hThread, rfl⟩ := of_guard h
    refine .inl ⟨t, s.queue.hackEndCounter, fun p hp => ?_, .inl ⟨rfl, rfl⟩, rfl⟩
    rw [hp] at hThread
    obtain hThread | hThread := hThread <;> cases hThread
  | wake t =>
    obtain ⟨hThread, rfl⟩ := of_guard h
    refine .inl ⟨t, s.queue.hackEndCounter + 1, fun p hp => ?_, .inr ⟨rfl, rfl⟩, ?_⟩
    · rw [hp] at hThread
      cases hThread
    · rw [BuildQueue.wake_eq_look]
      rfl
  | returnBuilt t successful =>
    rw [State.step] at h
    split at h
    · rename_i p hThread
      split at h
      · rename_i hRobust
        cases h
        exact .inr ⟨t, p, successful, hThread, by simpa using hRobust, rfl, rfl⟩
      · cases h
    · cases h

/-- The condition on a look at the queue, with the wait that it comes from counted. -/
def Permitted (b : Build α) (s : State α) : Label → Prop
  | .getValidPackage _ => s.queue.HeadReady b
  | .wake _ => s.queue.count.HeadReady b
  | .returnBuilt _ _ => True

variable {b : Build α}

theorem Accounted.step {s s' : State α} {a : Label} (hNodup : b.packages.Nodup) (h : Accounted b s)
    (hStep : State.step b s a = some s') : Accounted b s' := by
  obtain ⟨t, n, hThread, -, rfl⟩ | ⟨t, p, successful, hThread, hRobust, -, rfl⟩ := step_cases hStep
  · obtain ⟨hLook, -⟩ | ⟨hLook, -⟩ | hLook | ⟨p, hp, -, hLook⟩ :=
      BuildQueue.look_cases b { s.queue with hackEndCounter := n }
    · rw [hLook]
      exact h.stay t n fun p hp => by cases hp
    · rw [hLook]
      exact h.stay t n fun p hp => by cases hp
    · rw [hLook]
      exact h.stay t n fun p hp => by cases hp
    · rw [hLook]
      exact h.take hNodup t 0 hp
  · exact h.give hThread hRobust

theorem accounted_of_reachable {ok : State α → Label → Prop} {s : State α} (hNodup : b.packages.Nodup)
    (h : (builder b).ReachableWhen ok s) : Accounted b s :=
  h.invariant (Accounted b) (fun s (hInit : s = .start b) => hInit ▸ Accounted.start b)
    fun _ _ _ hInv _ hStep => hInv.step hNodup hStep

theorem EndsInTime.start (b : Build α) : EndsInTime b (.start b) := fun t ht => by cases ht

theorem EndsInTime.move {s : State α} (h : EndsInTime b s) (t : Nat) {next : BuildQueue α × Phase α}
    (hStays : Over b s.queue → Over b next.1) (hEnded : next.2 = .ended → Over b next.1) :
    EndsInTime b (s.move t next) := by
  intro u hu
  by_cases hut : u = t
  · rw [hut, State.move_threads_self] at hu
    exact hEnded hu
  · rw [State.move_threads_of_ne s hut] at hu
    exact hStays (h u hu)

theorem Over.returnBuilt {q : BuildQueue α} (h : Over b q) (p : α) (successful : Bool) :
    Over b (q.returnBuilt b p successful) := by
  obtain hLeft | hReturned := h
  · cases successful <;> exact .inl hLeft
  · cases successful with
    | true => exact .inr fun d hd => (hReturned d hd).imp_left (List.mem_append_left _)
    | false => exact .inr fun d hd => (hReturned d hd).imp_right (List.mem_append_left _)

theorem EndsInTime.step {s s' : State α} {a : Label} (hAccounted : Accounted b s) (h : EndsInTime b s)
    (hOk : Permitted b s a) (hStep : State.step b s a = some s') : EndsInTime b s' := by
  obtain ⟨t, n, -, hLabel, rfl⟩ | ⟨t, p, successful, -, -, -, rfl⟩ := step_cases hStep
  · have hReady : BuildQueue.HeadReady b { s.queue with hackEndCounter := n } := by
      obtain ⟨rfl, rfl⟩ | ⟨rfl, rfl⟩ := hLabel
      · exact hOk
      · exact hOk
    obtain ⟨hLook, hOver⟩ | ⟨-, hGivesUp⟩ | hLook | ⟨p, hp, -, hLook⟩ :=
      BuildQueue.look_cases b { s.queue with hackEndCounter := n }
    · rw [hLook]
      refine h.move t id fun _ => ?_
      obtain hDone | hLeft := hOver
      · exact .inr (hAccounted.allReturned hDone)
      · exact .inl hLeft
    · exact absurd hReady (BuildQueue.not_headReady_iff.mpr hGivesUp)
    · rw [hLook]
      exact h.move t id fun hEnded => by cases hEnded
    · rw [hLook]
      refine h.move t (fun hOver => ?_) fun hEnded => by cases hEnded
      obtain hLeft | hReturned := hOver
      · rw [hLeft] at hp
        cases hp
      · exact .inr hReturned
  · exact h.move t (fun hOver => hOver.returnBuilt p successful) fun hEnded => by cases hEnded

theorem not_endsInTime {s s' : State α} {a : Label} (hNodup : b.packages.Nodup) (hAccounted : Accounted b s)
    (hContained : ∀ p ∈ b.packages, ∀ d ∈ b.deps p, d ∈ b.packages)
    (hAcyclic : Acyclic fun p d => d ∈ b.deps p) (hOk : ¬ Permitted b s a)
    (hStep : State.step b s a = some s') :
    ¬ EndsInTime b s' ∧ ∃ p ∈ s'.queue.toBuild, s'.queue.dependenciesMet b p = true := by
  obtain ⟨t, n, -, hLabel, rfl⟩ | ⟨t, p, successful, -, -, rfl, -⟩ := step_cases hStep
  · have hGivesUp : BuildQueue.GivesUp b { s.queue with hackEndCounter := n } := by
      rw [← BuildQueue.not_headReady_iff]
      obtain ⟨rfl, rfl⟩ | ⟨rfl, rfl⟩ := hLabel
      · exact hOk
      · exact hOk
    rw [BuildQueue.look_of_givesUp hGivesUp]
    obtain ⟨hDone, ⟨hStarted, -⟩, p, hHead, -⟩ := hGivesUp
    have hLeft : s.queue.toBuild ≠ [] := by
      intro hNil
      have hHead : s.queue.toBuild.head? = some p := hHead
      rw [hNil] at hHead
      cases hHead
    refine ⟨fun hEnds => ?_, hAccounted.exists_dependenciesMet hContained hAcyclic hStarted hLeft⟩
    obtain hNil | hReturned := hEnds t (State.move_threads_self ..)
    · exact hLeft hNil
    · obtain ⟨p, hp, -⟩ := hAccounted.exists_dependenciesMet hContained hAcyclic hStarted hLeft
      have hParts := hAccounted.nodup hNodup
      rw [List.append_assoc, List.nodup_append] at hParts
      have hReturned := List.mem_append.mpr (hReturned p (hAccounted.ordered.subset hp))
      exact hParts.2.2 p hp p (List.mem_append_right _ hReturned) rfl
  · exact absurd trivial hOk

/-- As long as every look with nothing in progress finds its first package ready, `None` means that
nothing is left; the first look that does not gives up while a package could be built. -/
theorem endsInTime (hNodup : b.packages.Nodup)
    (hContained : ∀ p ∈ b.packages, ∀ d ∈ b.deps p, d ∈ b.packages)
    (hAcyclic : Acyclic fun p d => d ∈ b.deps p) :
    (∀ s, (builder b).ReachableWhen (Permitted b) s → EndsInTime b s) ∧
      ∀ s a s', (builder b).Reachable s → (builder b).step s a = some s' → ¬ Permitted b s a →
        ¬ EndsInTime b s' ∧ ∃ p ∈ s'.queue.toBuild, s'.queue.dependenciesMet b p = true := by
  constructor
  · intro s h
    have hBoth := h.invariant (fun s => Accounted b s ∧ EndsInTime b s)
      (fun s (hInit : s = .start b) => hInit ▸ ⟨Accounted.start b, EndsInTime.start b⟩)
      fun s a s' hInv hOk hStep => ⟨hInv.1.step hNodup hStep, hInv.2.step hInv.1 hOk hStep⟩
    exact hBoth.2
  · intro s a s' h hStep hOk
    exact not_endsInTime hNodup (accounted_of_reachable hNodup h) hContained hAcyclic hOk hStep

theorem Accounted.headReady_of_ordered {s : State α} (h : Accounted b s)
    (hContained : ∀ p ∈ b.packages, ∀ d ∈ b.deps p, d ∈ b.packages)
    (hOrdered : b.packages.Pairwise fun p d => d ∉ b.deps p) (hSelf : ∀ p ∈ b.packages, p ∉ b.deps p) (n : Nat) :
    BuildQueue.HeadReady b { s.queue with hackEndCounter := n } := by
  intro _ hStarted _ p hHead
  have hHead : s.queue.toBuild.head? = some p := hHead
  obtain ⟨rest, hRest⟩ := List.head?_eq_some_iff.mp hHead
  have hBehind := hOrdered.sublist h.ordered
  rw [hRest, List.pairwise_cons] at hBehind
  refine h.dependenciesMet_of_forall hContained hStarted (hRest ▸ List.mem_cons_self) fun d hd hLeft => ?_
  rw [hRest] at hLeft
  obtain rfl | hLeft := List.mem_cons.mp hLeft
  · exact hSelf d (hContained d (h.ordered.subset (hRest ▸ List.mem_cons_self)) d hd) hd
  · exact hBehind.1 d hLeft hd

theorem endsInTime_of_ordered (hNodup : b.packages.Nodup)
    (hContained : ∀ p ∈ b.packages, ∀ d ∈ b.deps p, d ∈ b.packages)
    (hOrdered : b.packages.Pairwise fun p d => d ∉ b.deps p) (hSelf : ∀ p ∈ b.packages, p ∉ b.deps p) {s : State α}
    (h : (builder b).Reachable s) : EndsInTime b s := by
  have hBoth := h.invariant (fun s => Accounted b s ∧ EndsInTime b s)
    (fun s (hInit : s = .start b) => hInit ▸ ⟨Accounted.start b, EndsInTime.start b⟩)
    fun s a s' hInv _ hStep => by
      have hReady := hInv.1.headReady_of_ordered hContained hOrdered hSelf
      have hOk : Permitted b s a := by
        cases a with
        | getValidPackage t => exact hReady s.queue.hackEndCounter
        | wake t => exact hReady (s.queue.hackEndCounter + 1)
        | returnBuilt t successful => trivial
      exact ⟨hInv.1.step hNodup hStep, hInv.2.step hInv.1 hOk hStep⟩
  exact hBoth.2

/-! ## A chain of three packages, the last one first -/

def chain : Build Nat := ⟨[2, 1, 0], fun p => if p = 0 then [] else [p - 1], false⟩

theorem chain_contained : ∀ p ∈ chain.packages, ∀ d ∈ chain.deps p, d ∈ chain.packages := by decide

theorem chain_acyclic : Acyclic fun p d => d ∈ chain.deps p := by
  refine acyclic_of_rank id fun p d hd => ?_
  simp only [chain] at hd
  split at hd
  · cases hd
  · have hd := List.mem_singleton.mp hd
    simp only [id]
    omega

def impatient : List Label :=
  [.getValidPackage 0, .getValidPackage 1, .wake 1, .wake 1, .wake 1, .returnBuilt 0 true]

theorem gives_up_early :
    ∃ s, (builder chain).Reachable s ∧ s.threads 1 = .ended ∧ s.queue.toBuild = [2, 1] ∧
      s.queue.built = [0] ∧ s.queue.dependenciesMet chain 1 = true ∧ ¬ EndsInTime chain s := by
  have hStart : (builder chain).Reachable (.start chain) := .init rfl
  refine ⟨_, Machine.Reachable.run hStart
    (rfl : (builder chain).run (.start chain) (impatient ++ [.wake 1]) = some _), rfl, rfl, rfl, rfl, fun h => ?_⟩
  obtain hLeft | hReturned := h 1 rfl
  · cases hLeft
  · exact absurd (hReturned 2 (by decide)) (by decide)

theorem endsInTime_chain :
    (∀ s, (builder chain).ReachableWhen (Permitted chain) s → EndsInTime chain s) ∧
      ∀ s a s', (builder chain).Reachable s → (builder chain).step s a = some s' → ¬ Permitted chain s a →
        ¬ EndsInTime chain s' ∧ ∃ p ∈ s'.queue.toBuild, s'.queue.dependenciesMet chain p = true :=
  endsInTime (by decide) chain_contained chain_acyclic

end XcRos.Rosmake
