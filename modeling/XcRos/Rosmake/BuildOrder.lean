import XcRos.Rosmake.BuildQueue

/-! # The order in which packages are handed out

Any number of threads call `get_valid_package`, `return_built` and `stop` in any order. What the
queue has handed out and what has come back is kept in a log that no method reads.
-/

namespace XcRos.Rosmake

open XcRos.Foundation

set_option linter.unusedSectionVars false

open scoped List

variable {α : Type} [DecidableEq α]

inductive Event (α : Type) where
  | handedOut (package : α)
  | returned (package : α) (successful : Bool)
  deriving DecidableEq

/-- The queue, the threads that are in `wait`, and the log. -/
structure Desk (α : Type) where
  queue : BuildQueue α
  waiting : Nat → Bool
  log : List (Event α)

/-- A package may come back from any thread, and `stop` may be called at any time. -/
inductive Request (α : Type) where
  | getValidPackage (thread : Nat)
  | wake (thread : Nat)
  | returnBuilt (package : α) (successful : Bool)
  | stop

namespace Desk

def start (b : Build α) : Desk α where
  queue := ⟨b.packages, [], [], [], false, 0⟩
  waiting _ := false
  log := []

def answer (s : Desk α) (thread : Nat) : BuildQueue α × Phase α → Desk α
  | (queue, .building p) =>
    { s with queue := queue, waiting := Function.update s.waiting thread false, log := s.log ++ [.handedOut p] }
  | (queue, .waiting) => { s with queue := queue, waiting := Function.update s.waiting thread true }
  | (queue, _) => { s with queue := queue, waiting := Function.update s.waiting thread false }

/-- `stop` takes no lock for the flag. A call that reads the flag twice ends as if it had been set before. -/
def step (b : Build α) (s : Desk α) : Request α → Option (Desk α)
  | .getValidPackage thread => if s.waiting thread then none else some (s.answer thread (s.queue.look b))
  | .wake thread => if s.waiting thread then some (s.answer thread (s.queue.wake b)) else none
  | .returnBuilt p successful =>
    if p ∈ s.queue.started then
      some { s with queue := s.queue.returnBuilt b p successful, log := s.log ++ [.returned p successful] }
    else none
  | .stop => some { s with queue := { s.queue with done := true } }

def handedOut (s : Desk α) : List α :=
  s.log.filterMap fun
    | .handedOut p => some p
    | .returned _ _ => none

end Desk

def desk (b : Build α) : Machine (Desk α) (Request α) where
  Init s := s = .start b
  step := Desk.step b

/-- What has come back before lets `p` be built. -/
def Released (b : Build α) (before : List (Event α)) (p : α) : Prop :=
  ∀ d ∈ b.deps p, .returned d true ∈ before ∨ b.robust = true ∧ .returned d false ∈ before

def InOrder (b : Build α) (log : List (Event α)) : Prop :=
  ∀ before p after, log = before ++ .handedOut p :: after → Released b before p

structure Logged (b : Build α) (s : Desk α) : Prop where
  parted : s.queue.places ~ b.packages
  handedOut : s.handedOut ~ s.queue.started ++ (s.queue.built ++ s.queue.failed)
  built : ∀ p ∈ s.queue.built, .returned p true ∈ s.log
  failed : ∀ p ∈ s.queue.failed, .returned p false ∈ s.log
  inOrder : InOrder b s.log

theorem InOrder.append {b : Build α} {log : List (Event α)} (h : InOrder b log) {e : Event α}
    (hLast : ∀ p, e = .handedOut p → Released b log p) : InOrder b (log ++ [e]) := by
  intro before p after hEq
  obtain hEnd | ⟨rest, hRest⟩ := List.eq_nil_or_concat' after
  · rw [hEnd] at hEq
    obtain ⟨hLog, hEvent⟩ := List.append_inj' hEq rfl
    cases hLog
    exact hLast p (List.singleton_inj.mp hEvent)
  · obtain ⟨last, rfl⟩ := hRest
    rw [← List.cons_append, ← List.append_assoc] at hEq
    exact h before p rest (List.append_inj' hEq rfl).1

namespace Logged

variable {b : Build α} {s : Desk α}

theorem start (b : Build α) : Logged b (.start b) where
  parted := by rw [BuildQueue.places, Desk.start, List.append_nil, List.append_nil, List.append_nil]
  handedOut := .refl _
  built _ h := by cases h
  failed _ h := by cases h
  inOrder before p after h := absurd h (by simp [Desk.start])

theorem stay (h : Logged b s) (n : Nat) (done : Bool) (waiting : Nat → Bool) :
    Logged b ⟨{ s.queue with hackEndCounter := n, done := done }, waiting, s.log⟩ :=
  ⟨h.parted, h.handedOut, h.built, h.failed, h.inOrder⟩

theorem released (h : Logged b s) {p : α} (hMet : s.queue.dependenciesMet b p = true) :
    Released b s.log p := by
  intro d hd
  have hReturned := List.all_eq_true.mp hMet d hd
  simp only [Bool.or_eq_true, Bool.and_eq_true, decide_eq_true_eq] at hReturned
  obtain hBuilt | ⟨hRobust, hFailed⟩ := hReturned
  · exact .inl (h.built d hBuilt)
  · exact .inr ⟨hRobust, h.failed d hFailed⟩

theorem take (h : Logged b s) {p : α} (hp : p ∈ s.queue.toBuild) (hMet : s.queue.dependenciesMet b p = true)
    (waiting : Nat → Bool) : Logged b ⟨s.queue.take p, waiting, s.log ++ [.handedOut p]⟩ where
  parted := (BuildQueue.places_take hp).trans h.parted
  handedOut := by
    calc Desk.handedOut ⟨s.queue.take p, waiting, s.log ++ [.handedOut p]⟩
        = s.handedOut ++ [p] := by simp [Desk.handedOut, List.filterMap_append]
      _ ~ p :: s.handedOut := List.perm_append_singleton ..
      _ ~ p :: (s.queue.started ++ (s.queue.built ++ s.queue.failed)) := h.handedOut.cons p
      _ ~ s.queue.started ++ p :: (s.queue.built ++ s.queue.failed) := List.perm_middle.symm
      _ = (s.queue.started ++ [p]) ++ (s.queue.built ++ s.queue.failed) := by simp
  built d hd := List.mem_append_left _ (h.built d hd)
  failed d hd := List.mem_append_left _ (h.failed d hd)
  inOrder := h.inOrder.append fun q hq => by
    cases hq
    exact h.released hMet

theorem give (h : Logged b s) {p : α} (hp : p ∈ s.queue.started) (successful : Bool) :
    Logged b { s with queue := s.queue.returnBuilt b p successful, log := s.log ++ [.returned p successful] } where
  parted := (BuildQueue.places_returnBuilt hp successful).trans h.parted
  handedOut := by
    have hSame : Desk.handedOut
        { s with queue := s.queue.returnBuilt b p successful, log := s.log ++ [.returned p successful] } =
        s.handedOut := by
      simp [Desk.handedOut, List.filterMap_append]
    rw [hSame]
    exact h.handedOut.trans (BuildQueue.started_returnBuilt_perm hp successful).symm
  built d hd := by
    obtain hOld | ⟨rfl, rfl⟩ := BuildQueue.mem_built_returnBuilt hd
    · exact List.mem_append_left _ (h.built d hOld)
    · exact List.mem_append_right _ List.mem_cons_self
  failed d hd := by
    obtain hOld | ⟨rfl, rfl⟩ := BuildQueue.mem_failed_returnBuilt hd
    · exact List.mem_append_left _ (h.failed d hOld)
    · exact List.mem_append_right _ List.mem_cons_self
  inOrder := h.inOrder.append fun q hq => by cases hq

theorem look (h : Logged b s) (thread n : Nat) :
    Logged b (s.answer thread (BuildQueue.look b { s.queue with hackEndCounter := n })) := by
  obtain ⟨hLook, -⟩ | ⟨hLook, -⟩ | hLook | ⟨p, hp, hMet, hLook⟩ :=
    BuildQueue.look_cases b { s.queue with hackEndCounter := n }
  · rw [hLook]
    exact h.stay n s.queue.done _
  · rw [hLook]
    exact h.stay n s.queue.done _
  · rw [hLook]
    exact h.stay n s.queue.done _
  · rw [hLook]
    exact h.take hp hMet _

theorem step {s' : Desk α} {a : Request α} (h : Logged b s) (hStep : Desk.step b s a = some s') :
    Logged b s' := by
  cases a with
  | getValidPackage thread =>
    rw [Desk.step] at hStep
    split at hStep
    · cases hStep
    · cases hStep
      exact h.look thread s.queue.hackEndCounter
  | wake thread =>
    obtain ⟨-, rfl⟩ := of_guard hStep
    rw [BuildQueue.wake_eq_look]
    exact h.look thread (s.queue.hackEndCounter + 1)
  | returnBuilt p successful =>
    obtain ⟨hp, rfl⟩ := of_guard hStep
    exact h.give hp successful
  | stop =>
    cases hStep
    exact h.stay s.queue.hackEndCounter true s.waiting

end Logged

theorem logged_of_reachable {b : Build α} {s : Desk α} (h : (desk b).Reachable s) : Logged b s :=
  h.invariant (Logged b) (fun s (hInit : s = .start b) => hInit ▸ Logged.start b)
    fun _ _ _ hInv _ hStep => hInv.step hStep

/-- The packages are parted into the four lists, none is handed out twice, and each that is handed
out finds its dependencies returned. -/
theorem handedOut_in_order {b : Build α} (hNodup : b.packages.Nodup) {s : Desk α}
    (h : (desk b).Reachable s) :
    (s.queue.places ~ b.packages ∧ s.queue.places.Nodup) ∧ s.handedOut.Nodup ∧ InOrder b s.log := by
  have hLogged := logged_of_reachable h
  have hPlaces : s.queue.places.Nodup := hLogged.parted.nodup_iff.mpr hNodup
  refine ⟨⟨hLogged.parted, hPlaces⟩, hLogged.handedOut.nodup_iff.mpr ?_, hLogged.inOrder⟩
  rw [BuildQueue.places, List.append_assoc] at hPlaces
  exact (List.nodup_append.mp hPlaces).2.1

def chainRequests : List (Request Nat) :=
  [.getValidPackage 0, .getValidPackage 1, .returnBuilt 0 true, .wake 1, .getValidPackage 0, .stop, .wake 0]

theorem handedOut_in_order_chain :
    ∃ s, (desk chain).run (.start chain) chainRequests = some s ∧ s.queue.started = [1] ∧
      ((s.queue.places ~ chain.packages ∧ s.queue.places.Nodup) ∧ s.handedOut.Nodup ∧ InOrder chain s.log) :=
  ⟨_, rfl, rfl, handedOut_in_order (by decide)
    (Machine.Reachable.run (.init rfl) (rfl : (desk chain).run (.start chain) chainRequests = some _))⟩

end XcRos.Rosmake
