import Mathlib.Logic.Function.Basic
import XcRos.Foundation.Machine

/-! # Spinners

The `SpinnerMonitor`, and the threads that spin callback queues. A thread is inside of calls of
`SingleThreadedSpinner::spin` and of `AsyncSpinnerImpl::stop`, each called by a callback of the one before. An asynchronous
spinner holds its mutex while it is stopped. Its destructor stops it first, which ends the process if the thread is one
of its own. `MultiThreadedSpinner::spin` is an asynchronous spinner that is created, started and destroyed.
-/

namespace XcRos.Libros

open XcRos.Foundation

variable {Thread Queue : Type}

namespace SpinnerMonitor

structure Entry (Thread : Type) where
  /-- The id of the thread of single-threaded spinners, `none` for multi-threaded ones. -/
  tid : Option Thread
  num : UInt32

end SpinnerMonitor

/-- `spinning_queues_` -/
abbrev SpinnerMonitor (Thread Queue : Type) := Queue → Option (SpinnerMonitor.Entry Thread)

namespace SpinnerMonitor

variable [DecidableEq Thread] [DecidableEq Queue]

/-- `add`, where `none` stands for a queue that is refused. -/
def add (m : SpinnerMonitor Thread Queue) (queue : Queue) (tid : Option Thread) : Option (SpinnerMonitor Thread Queue) :=
  let it := (m queue).getD ⟨tid, 0⟩
  if it.tid = tid then some (Function.update m queue (some { it with num := it.num + 1 })) else none

/-- `remove`, where `none` stands for an assertion that fails. -/
def remove (m : SpinnerMonitor Thread Queue) (queue : Queue) : Option (SpinnerMonitor Thread Queue) :=
  match m queue with
  | none => none
  | some it =>
    if it.num = 0 then none
    else if it.num - 1 = 0 then some (Function.update m queue none)
    else some (Function.update m queue (some { it with num := it.num - 1 }))

end SpinnerMonitor

namespace Spinner

/-- Where an asynchronous spinner is; while it stops, a thread waits in `join_all`. -/
inductive Phase where
  | idle
  | started
  | stopping
  | destroyed
deriving DecidableEq

structure AsyncSpinner (Thread Queue : Type) where
  callbackQueue : Queue
  threads : List Thread
  phase : Phase

inductive Frame (Queue : Type) where
  | spin (queue : Queue)
  | stop (spinner : Nat)
deriving DecidableEq

/-- The frames of all threads, the innermost one of a thread in front of its others. -/
structure State (Thread Queue : Type) where
  monitor : SpinnerMonitor Thread Queue
  frames : List (Thread × Frame Queue)
  spinners : List (AsyncSpinner Thread Queue)

inductive Label (Thread Queue : Type) where
  /-- The call of `SingleThreadedSpinner::spin` up to its loop. -/
  | spin (t : Thread) (queue : Queue)
  /-- `n.ok()` is false, and the innermost spin ends. -/
  | leave (t : Thread)
  /-- An exception of a callback leaves the innermost spin. -/
  | raise (t : Thread)
  | create (queue : Queue)
  | start (t : Thread) (spinner : Nat) (threads : List Thread)
  | stop (t : Thread) (spinner : Nat)
  /-- The threads have ended for which `t` has waited. -/
  | join (t : Thread)
  | destroy (spinner : Nat)

variable [DecidableEq Thread] [DecidableEq Queue]

namespace State

variable (s : State Thread Queue)

def top (t : Thread) : Option (Frame Queue) := (s.frames.find? fun f => f.1 = t).map Prod.snd

def pop (t : Thread) : List (Thread × Frame Queue) := s.frames.eraseP fun f => f.1 = t

/-- The thread waits in `join_all`. -/
def blocked (t : Thread) : Bool :=
  match s.top t with
  | some (.stop _) => true
  | _ => false

def fresh (t : Thread) : Bool :=
  (s.frames.all fun f => f.1 ≠ t) && s.spinners.all fun spinner => !spinner.threads.contains t

/-- `SingleThreadedSpinner::spin`; it throws if the queue is refused. -/
def spin (t : Thread) (queue : Queue) : State Thread Queue :=
  match s.monitor.add queue (some t) with
  | none => s
  | some monitor => { s with monitor := monitor, frames := (t, .spin queue) :: s.frames }

/-- `AsyncSpinnerImpl::start`; `none` as long as another thread holds the mutex. -/
def start (i : Nat) (spinner : AsyncSpinner Thread Queue) (threads : List Thread) : Option (State Thread Queue) :=
  match spinner.phase with
  | .started => some s
  | .idle =>
    match s.monitor.add spinner.callbackQueue none with
    | none => some s
    | some monitor =>
      some { s with
        monitor := monitor
        spinners := s.spinners.set i { spinner with threads := spinner.threads ++ threads, phase := .started } }
  | _ => none

/-- `AsyncSpinnerImpl::stop` up to `join_all`, which throws in a thread that would have to wait for itself. -/
def stop (t : Thread) (i : Nat) (spinner : AsyncSpinner Thread Queue) : Option (State Thread Queue) :=
  match spinner.phase with
  | .idle => some s
  | .started =>
    if t ∈ spinner.threads then some { s with spinners := s.spinners.set i { spinner with phase := .idle } }
    else
      some { s with
        frames := (t, .stop i) :: s.frames
        spinners := s.spinners.set i { spinner with phase := .stopping } }
  | _ => none

/-- The end of `AsyncSpinnerImpl::stop`. -/
def join (t : Thread) (i : Nat) (spinner : AsyncSpinner Thread Queue) : Option (State Thread Queue) :=
  if s.frames.all fun f => !spinner.threads.contains f.1 then
    (s.monitor.remove spinner.callbackQueue).map fun monitor =>
      { s with
        monitor := monitor
        frames := s.pop t
        spinners := s.spinners.set i { spinner with phase := .idle } }
  else none

end State

def step (s : State Thread Queue) : Label Thread Queue → Option (State Thread Queue)
  | .spin t queue => if s.blocked t then none else some (s.spin t queue)
  | .leave t =>
    match s.top t with
    | some (.spin queue) =>
      (s.monitor.remove queue).map fun monitor => { s with monitor := monitor, frames := s.pop t }
    | _ => none
  | .raise t =>
    match s.top t with
    | some (.spin _) => some { s with frames := s.pop t }
    | _ => none
  | .create queue => some { s with spinners := s.spinners ++ [⟨queue, [], .idle⟩] }
  | .start t i threads =>
    if s.blocked t ∨ t ∈ threads ∨ ¬ threads.all s.fresh then none
    else s.spinners[i]?.bind fun spinner => s.start i spinner threads
  | .stop t i => if s.blocked t then none else s.spinners[i]?.bind fun spinner => s.stop t i spinner
  | .join t =>
    match s.top t with
    | some (.stop i) => s.spinners[i]?.bind fun spinner => s.join t i spinner
    | _ => none
  | .destroy i =>
    s.spinners[i]?.bind fun spinner =>
      if spinner.phase = .idle then some { s with spinners := s.spinners.set i { spinner with phase := .destroyed } }
      else none

def initial : State Thread Queue where
  monitor _ := none
  frames := []
  spinners := []

def machine (Thread Queue : Type) [DecidableEq Thread] [DecidableEq Queue] :
    Machine (State Thread Queue) (Label Thread Queue) where
  Init s := s = initial
  step := step

end Spinner

end XcRos.Libros
