import Mathlib.Algebra.Order.Floor.Semiring
import Mathlib.Data.Rat.Floor
import XcRos.Rpc.Dispatch

/-! # The loop of the dispatcher

`RobotRpcDispatch::work` polls the monitored sources, lets them handle the events and looks at the
clock after each pass. The handlers may call the dispatcher themselves; what they call, what `poll`
reports and what the system clock shows are the inputs of a pass. Times are rational seconds.
-/

namespace XcRos.Rpc

structure MonitoredSource where
  source : Nat
  mask : Mask
deriving DecidableEq, Repr

/-- `RobotRpcDispatch` -/
structure Dispatcher where
  sources : List MonitoredSource
  endTime : ℚ
  doClear : Bool
  inWork : Bool
deriving DecidableEq

inductive Call where
  | addSource (source : Nat) (mask : Mask)
  | removeSource (source : Nat)
  | setSourceEvents (source : Nat) (mask : Mask)
  | exit
  | clear
deriving DecidableEq, Repr

namespace Dispatcher

def addSource (d : Dispatcher) (source : Nat) (mask : Mask) : Dispatcher :=
  { d with sources := d.sources ++ [⟨source, mask⟩] }

def removeSource (d : Dispatcher) (source : Nat) : Dispatcher :=
  { d with sources := d.sources.eraseP (·.source == source) }

def replaceMask (source : Nat) (mask : Mask) : List MonitoredSource → List MonitoredSource
  | [] => []
  | it :: rest => if it.source = source then { it with mask := mask } :: rest else it :: replaceMask source mask rest

def setSourceEvents (d : Dispatcher) (source : Nat) (mask : Mask) : Dispatcher :=
  { d with sources := replaceMask source mask d.sources }

def exit (d : Dispatcher) : Dispatcher := { d with endTime := 0 }

/-- `clear`, with the sources that it closes. -/
def clear (d : Dispatcher) : Dispatcher × List Nat :=
  if d.inWork then ({ d with doClear := true }, []) else ({ d with sources := [] }, d.sources.map (·.source))

def call (d : Dispatcher) : Call → Dispatcher
  | .addSource source mask => d.addSource source mask
  | .removeSource source => d.removeSource source
  | .setSourceEvents source mask => d.setSourceEvents source mask
  | .exit => d.exit
  | .clear => d.clear.1

/-- The system clock is read in builds that define `USE_FTIME`, those for Windows. -/
def getTime (useFtime : Bool) (clock : ℚ) : ℚ := if useFtime then clock else 0

/-- The state in which `work` begins its loop. -/
def enter (useFtime : Bool) (clock timeout : ℚ) (sources : List MonitoredSource) : Dispatcher where
  sources := sources
  endTime := if timeout < 0 then -1 else getTime useFtime clock + timeout
  doClear := false
  inWork := true

/-- `0 <= _endTime && getTime() > _endTime` -/
def stops (d : Dispatcher) (now : ℚ) : Prop := 0 ≤ d.endTime ∧ d.endTime < now

instance (d : Dispatcher) (now : ℚ) : Decidable (d.stops now) :=
  inferInstanceAs (Decidable (0 ≤ d.endTime ∧ d.endTime < now))

end Dispatcher

/-- What happens in a pass, by the position of the source in the list that was polled. -/
structure PassInput where
  /-- The answer of `poll`, or `none` when it fails. -/
  revents : Option (Nat → Mask)
  handleEvent : Nat → EventType → List Call × Mask
  keepOpen : Nat → Bool
  /-- What the `close` of a source that is dropped calls. -/
  close : Nat → List Call
  /-- What the `close`s of the sources that `clear` leaves behind call. -/
  closeAll : List Call
  /-- The system clock at the end of the pass. -/
  clock : ℚ

structure Progress where
  dispatcher : Dispatcher
  made : List Call

namespace Progress

def make (p : Progress) (calls : List Call) : Progress where
  dispatcher := calls.foldl Dispatcher.call p.dispatcher
  made := p.made ++ calls

def handleSource (input : PassInput) (p : Progress) (i : Nat) (src : MonitoredSource) (revents : Mask) : Progress :=
  match src.mask.answered revents with
  -- `newMask` is still `(unsigned) -1`
  | [] => p
  | event :: events =>
    let results := (event :: events).map (input.handleEvent i)
    let newMask := results.foldl (fun mask r => mask.inter r.2) .all
    let p := p.make (results.flatMap (·.1))
    if p.dispatcher.sources.all (·.source != src.source) then p
    else if newMask = .none then
      let p := { p with dispatcher := p.dispatcher.removeSource src.source }
      if input.keepOpen i then p else p.make (input.close i)
    else { p with dispatcher := p.dispatcher.setSourceEvents src.source newMask }

def handleSources (input : PassInput) (revents : Nat → Mask) : List MonitoredSource → Nat → Progress → Progress
  | [], _, p => p
  | src :: rest, i, p => handleSources input revents rest (i + 1) (p.handleSource input i src (revents i))

/-- `if (_doClear)` -/
def clearPending (input : PassInput) (p : Progress) : Progress :=
  if p.dispatcher.doClear then
    let p := { p with dispatcher := { p.dispatcher with sources := [] } }
    let p := p.make input.closeAll
    { p with dispatcher := { p.dispatcher with doClear := false } }
  else p

end Progress

/-- A pass up to the look at the clock, or `none` if `poll` fails. -/
def pass (input : PassInput) (d : Dispatcher) : Option Progress :=
  input.revents.map fun revents =>
    (Progress.handleSources input revents d.sources 0 ⟨d, []⟩).clearPending input

def nextPass (useFtime : Bool) (input : PassInput) (d : Dispatcher) : Option Dispatcher :=
  match pass input d with
  | none => none
  | some p =>
    if p.dispatcher.stops (Dispatcher.getTime useFtime input.clock) then none
    else if p.dispatcher.sources = [] then none
    else some p.dispatcher

/-- A run of `work`: what it is called with and the inputs of its passes. -/
structure WorkRun where
  sources : List MonitoredSource
  timeout : ℚ
  /-- The system clock when `work` is entered. -/
  start : ℚ
  input : Nat → PassInput
  monitored : sources ≠ []
  timeout_nonneg : 0 ≤ timeout
  start_pos : 0 < start
  clock_pos : ∀ n, 0 < (input n).clock

namespace WorkRun

variable (run : WorkRun)

def clockBefore : Nat → ℚ
  | 0 => run.start
  | n + 1 => (run.input n).clock

/-- A poll without events lasts for `floor(timeout * 1000.)` milliseconds. -/
def PollsLast : Prop :=
  ∀ n revents, (run.input n).revents = some revents → (∀ i, revents i = .none) →
    run.clockBefore n + (⌊run.timeout * 1000⌋ : ℚ) / 1000 ≤ (run.input n).clock

def begun (useFtime : Bool) : Nat → Option Dispatcher
  | 0 => some (.enter useFtime run.start run.timeout run.sources)
  | n + 1 => (begun useFtime n).bind (nextPass useFtime (run.input n))

/-- After this pass `work` has to return. -/
def Due (n : Nat) (d : Dispatcher) : Prop :=
  (∃ p, pass (run.input n) d = some p ∧ .exit ∈ p.made) ∨ run.timeout < (run.input n).clock - run.start

def Honoured (useFtime : Bool) : Prop :=
  ∀ n d, run.begun useFtime n = some d → run.Due n d → run.begun useFtime (n + 1) = none

/-- The handlers leave nothing to monitor, or `poll` has failed. -/
def Drained (n : Nat) (d : Dispatcher) : Prop :=
  ∀ p, pass (run.input n) d = some p → p.dispatcher.sources = []

end WorkRun

/-! ## The end time within a pass -/

/-- The end time is the one from before the pass until a handler exits. -/
def EndsAt (e : ℚ) (p : Progress) : Prop := p.dispatcher.endTime = if .exit ∈ p.made then 0 else e

theorem endTime_call (d : Dispatcher) (c : Call) :
    (d.call c).endTime = if c = .exit then 0 else d.endTime := by
  cases c with
  | clear =>
    rw [if_neg (by simp)]
    simp only [Dispatcher.call, Dispatcher.clear]
    split <;> rfl
  | _ => rfl

theorem endTime_calls (calls : List Call) (d : Dispatcher) :
    (calls.foldl Dispatcher.call d).endTime = if .exit ∈ calls then 0 else d.endTime := by
  induction calls generalizing d with
  | nil => rfl
  | cons c calls ih =>
    rw [List.foldl_cons, ih, endTime_call]
    by_cases hExit : c = .exit
    · simp [hExit]
    · simp [hExit, Ne.symm hExit]

theorem EndsAt.make {e : ℚ} {p : Progress} (h : EndsAt e p) (calls : List Call) : EndsAt e (p.make calls) := by
  rw [EndsAt, Progress.make, endTime_calls, h]
  by_cases hMade : Call.exit ∈ p.made
  · simp [hMade]
  · simp [hMade]

theorem EndsAt.handleSource {e : ℚ} {input : PassInput} {p : Progress} (h : EndsAt e p) (i : Nat)
    (src : MonitoredSource) (revents : Mask) : EndsAt e (p.handleSource input i src revents) := by
  rw [Progress.handleSource]
  split
  · exact h
  · rename_i event events _
    have hMade := h.make (((event :: events).map (input.handleEvent i)).flatMap (·.1))
    simp only
    split
    · exact hMade
    · split
      · split
        · exact hMade
        · apply EndsAt.make
          exact hMade
      · exact hMade

theorem EndsAt.handleSources {e : ℚ} {input : PassInput} {revents : Nat → Mask} {sources : List MonitoredSource}
    {i : Nat} {p : Progress} (h : EndsAt e p) : EndsAt e (p.handleSources input revents sources i) := by
  induction sources generalizing i p with
  | nil => exact h
  | cons src rest ih => exact ih (h.handleSource i src (revents i))

theorem EndsAt.clearPending {e : ℚ} {input : PassInput} {p : Progress} (h : EndsAt e p) :
    EndsAt e (p.clearPending input) := by
  rw [Progress.clearPending]
  split
  · have hEmpty : EndsAt e { p with dispatcher := { p.dispatcher with sources := [] } } := h
    exact hEmpty.make input.closeAll
  · exact h

theorem endsAt_pass {input : PassInput} {d : Dispatcher} {p : Progress} (h : pass input d = some p) :
    EndsAt d.endTime p := by
  obtain ⟨revents, _, rfl⟩ := Option.map_eq_some_iff.mp h
  have hEnter : EndsAt d.endTime ⟨d, []⟩ := rfl
  exact hEnter.handleSources.clearPending

/-! ## When the loop goes on -/

theorem nextPass_eq_some_iff {useFtime : Bool} {input : PassInput} {d next : Dispatcher} :
    nextPass useFtime input d = some next ↔
      ∃ p, pass input d = some p ∧ ¬ p.dispatcher.stops (Dispatcher.getTime useFtime input.clock) ∧
        p.dispatcher.sources ≠ [] ∧ p.dispatcher = next := by
  rw [nextPass]
  cases pass input d with
  | none => simp
  | some p =>
    simp only [Option.some.injEq, exists_eq_left']
    split
    · rename_i hStops
      simp [hStops]
    · rename_i hGoes
      split
      · rename_i hNone
        simp [hNone]
      · rename_i hSome
        simp [hGoes, hSome]

theorem not_stops_stub (d : Dispatcher) (clock : ℚ) : ¬ d.stops (Dispatcher.getTime false clock) := by
  rintro ⟨hEnd, hPast⟩
  exact absurd hEnd (not_le.mpr hPast)

theorem nextPass_stub_eq_none_iff {input : PassInput} {d : Dispatcher} :
    nextPass false input d = none ↔ ∀ p, pass input d = some p → p.dispatcher.sources = [] := by
  rw [Option.eq_none_iff_forall_ne_some]
  constructor
  · intro hNone p hPass
    by_contra hSome
    exact hNone p.dispatcher (nextPass_eq_some_iff.mpr ⟨p, hPass, not_stops_stub _ _, hSome, rfl⟩)
  · intro hDrained next hNext
    obtain ⟨p, hPass, _, hSome, _⟩ := nextPass_eq_some_iff.mp hNext
    exact hSome (hDrained p hPass)

namespace WorkRun

variable {run : WorkRun}

theorem endTime_begun {n : Nat} {d : Dispatcher} (h : run.begun true n = some d) :
    d.endTime = run.start + run.timeout := by
  induction n generalizing d with
  | zero =>
    cases h
    simp [Dispatcher.enter, Dispatcher.getTime, not_lt.mpr run.timeout_nonneg]
  | succ n ih =>
    obtain ⟨before, hBefore, hNext⟩ := Option.bind_eq_some_iff.mp h
    obtain ⟨p, hPass, hGoes, _, rfl⟩ := nextPass_eq_some_iff.mp hNext
    have hEnds := endsAt_pass hPass
    by_cases hExit : Call.exit ∈ p.made
    · rw [EndsAt, if_pos hExit] at hEnds
      refine absurd ⟨hEnds.ge, ?_⟩ hGoes
      rw [hEnds]
      exact run.clock_pos n
    · rw [EndsAt, if_neg hExit] at hEnds
      rw [hEnds, ih hBefore]

theorem honoured_ftime (run : WorkRun) : run.Honoured true := by
  intro n d hBegun hDue
  rw [begun, hBegun, Option.bind_some, Option.eq_none_iff_forall_ne_some]
  intro next hNext
  obtain ⟨p, hPass, hGoes, _, _⟩ := nextPass_eq_some_iff.mp hNext
  have hEnds := endsAt_pass hPass
  rw [EndsAt, endTime_begun hBegun] at hEnds
  apply hGoes
  have hStart := run.start_pos
  have hTimeout := run.timeout_nonneg
  by_cases hExit : Call.exit ∈ p.made
  · rw [if_pos hExit] at hEnds
    rw [Dispatcher.stops, hEnds]
    exact ⟨le_refl 0, run.clock_pos n⟩
  · rw [if_neg hExit] at hEnds
    rw [Dispatcher.stops, hEnds]
    constructor
    · linarith
    · obtain ⟨q, hSame, hMade⟩ | hPast := hDue
      · cases hPass.symm.trans hSame
        exact absurd hMade hExit
      · show _ < (run.input n).clock
        linarith

end WorkRun

/-! ## Runs of the stub -/

/-- One source that stays; its handler exits whenever it is called. The clock shows a second more
after each pass. -/
def oneSource (timeout : ℚ) (hTimeout : 0 ≤ timeout) (revents : Mask) : WorkRun where
  sources := [⟨0, .readableEvent⟩]
  timeout := timeout
  start := 1
  input n :=
    { revents := some fun _ => revents
      handleEvent := fun _ _ => ([.exit], .readableEvent)
      keepOpen := fun _ => true
      close := fun _ => []
      closeAll := []
      clock := n + 2 }
  monitored := by simp
  timeout_nonneg := hTimeout
  start_pos := by norm_num
  clock_pos n := by positivity

def idle : WorkRun := oneSource (1 / 10) (by norm_num) .none

def exiting : WorkRun := oneSource 1000 (by norm_num) .readableEvent

theorem idle_begun (n : Nat) : idle.begun false n = some ⟨[⟨0, .readableEvent⟩], 1 / 10, false, true⟩ := by
  induction n with
  | zero =>
    simp only [WorkRun.begun, Dispatcher.enter, Dispatcher.getTime, idle, oneSource]
    norm_num
  | succ n ih =>
    rw [WorkRun.begun, ih, Option.bind_some]
    exact nextPass_eq_some_iff.mpr ⟨_, rfl, not_stops_stub _ _, List.cons_ne_nil _ _, rfl⟩

theorem idle_pollsLast : idle.PollsLast := by
  intro n revents _ _
  have hFloor : ⌊idle.timeout * 1000⌋ = 100 := by
    rw [Int.floor_eq_iff]
    norm_num [idle, oneSource]
  rw [hFloor]
  cases n with
  | zero => norm_num [WorkRun.clockBefore, idle, oneSource]
  | succ n =>
    norm_num [WorkRun.clockBefore, idle, oneSource]
    linarith

theorem exiting_begun_zero :
    exiting.begun false 0 = some ⟨[⟨0, .readableEvent⟩], 1000, false, true⟩ := by
  simp only [WorkRun.begun, Dispatcher.enter, Dispatcher.getTime, exiting, oneSource]
  norm_num

theorem exiting_due_zero : exiting.Due 0 ⟨[⟨0, .readableEvent⟩], 1000, false, true⟩ :=
  .inl ⟨_, rfl, List.mem_singleton.mpr rfl⟩

end XcRos.Rpc
