import Mathlib
import XcRos.Foundation.Machine
import XcRos.Libros.TimerManager
import XcRos.Rpc.Socket

/-! # The reconnection of a publisher link

`TransportPublisherLink` over TCP with its `retry_timer_handle_`, and `TransportTCP::connect` with what the
system calls return to it as input. Times are nanoseconds.
-/

namespace XcRos.Libros.LinkRetry

open XcRos.Foundation XcRos.Rpc

open XcRos.Libros.Timers (addTime)

/-! ## `TransportTCP::connect` -/

inductive Family where
  | inet
  | inet6
  | other
deriving DecidableEq, Repr

/-- What becomes of the host: `inet_pton` takes it, `getaddrinfo` fails, or it gives addresses. -/
inductive Resolution where
  | literal
  | unresolved
  | addresses (families : List Family)
deriving DecidableEq, Repr

structure Attempt where
  host : Bytes
  onlyLocalhostAllowed : Bool
  allowedHosts : List Bytes
  useIpv6 : Bool
  sock : Int
  resolution : Resolution
  /-- The result of `::connect`, and whether the error is `ROS_SOCKETS_ASYNCHRONOUS_CONNECT_RETURN`. -/
  ret : Int
  inProgress : Bool
  /-- The result of `setNonBlocking` in `initializeSocket`. -/
  nonBlocking : Bool
deriving DecidableEq, Repr

namespace Attempt

variable (a : Attempt)

def isHostAllowed : Bool :=
  !a.onlyLocalhostAllowed || a.host.take 4 == bytes "127." || a.allowedHosts.contains a.host

def family : Family := if a.useIpv6 then .inet6 else .inet

def found : Bool :=
  match a.resolution with
  | .literal => true
  | .unresolved => false
  | .addresses families => families.any (· == a.family)

def connect (synchronous : Bool) : Bool :=
  if !a.isHostAllowed then false
  else if a.sock == -1 then false
  else if !a.found then false
  else if synchronous && a.ret != 0 || !synchronous && a.ret != 0 && !a.inProgress then false
  else a.nonBlocking

/-- Nothing that `connect` needs for an asynchronous socket is refused to it. -/
structure Succeeds : Prop where
  allowed : a.onlyLocalhostAllowed = true → a.host.take 4 = bytes "127." ∨ a.host ∈ a.allowedHosts
  socket : a.sock ≠ -1
  resolved : a.resolution = .literal ∨ ∃ families, a.resolution = .addresses families ∧ a.family ∈ families
  begun : a.ret = 0 ∨ a.inProgress = true
  nonBlocking : a.nonBlocking = true

theorem isHostAllowed_iff : a.isHostAllowed = true ↔
    (a.onlyLocalhostAllowed = true → a.host.take 4 = bytes "127." ∨ a.host ∈ a.allowedHosts) := by
  rw [isHostAllowed]
  cases a.onlyLocalhostAllowed with
  | false => simp
  | true => simp

theorem found_iff : a.found = true ↔
    a.resolution = .literal ∨ ∃ families, a.resolution = .addresses families ∧ a.family ∈ families := by
  rw [found]
  cases a.resolution with
  | literal => simp
  | unresolved => simp
  | addresses families => simp

theorem connect_iff : a.connect false = true ↔ a.Succeeds := by
  constructor
  · intro h
    rw [connect] at h
    split at h
    · cases h
    · rename_i hAllowed
      split at h
      · cases h
      · rename_i hSock
        split at h
        · cases h
        · rename_i hFound
          split at h
          · cases h
          · rename_i hRet
            have hBegun : a.ret = 0 ∨ a.inProgress = true := by
              by_contra hNot
              obtain ⟨hNe, hFail⟩ := not_or.mp hNot
              exact hRet (by simp [hNe, hFail])
            exact ⟨a.isHostAllowed_iff.mp (by simpa using hAllowed), by simpa using hSock,
              a.found_iff.mp (by simpa using hFound), hBegun, h⟩
  · intro h
    have hRet : (a.ret != 0 && !a.inProgress) = false := by
      obtain hZero | hProgress := h.begun
      · simp [hZero]
      · simp [hProgress]
    have hSock : (a.sock == -1) = false := beq_eq_false_iff_ne.mpr h.socket
    simp [connect, a.isHostAllowed_iff.mpr h.allowed, hSock, a.found_iff.mpr h.resolved, hRet, h.nonBlocking]

instance : Decidable a.Succeeds := decidable_of_iff _ a.connect_iff

end Attempt

/-! ## The link -/

/-- `timers` are those that the link has in the internal `TimerManager`. -/
structure Link where
  connectionDropped : Bool
  needsRetry : Bool
  nextRetry : Int
  retryPeriod : Int
  retryTimerHandle : Int
  dropping : Bool
  timers : List Int
deriving DecidableEq, Repr

def Link.start : Link := ⟨false, false, 0, 0, -1, false, []⟩

namespace Link

variable (s : Link)

def drop : Link := { s with dropping := true, connectionDropped := true }

def removeTimer : Link :=
  if s.retryTimerHandle ≠ -1 then { s with timers := s.timers.erase s.retryTimerHandle, retryTimerHandle := -1 } else s

def onHeaderReceived (accepted : Bool) : Link := if accepted then s.removeTimer else s.drop

def onMessageLength (success : Bool) (len : Nat) : Link :=
  if success ∧ len > 1000000000 then s.removeTimer.drop else s.removeTimer

/-- `onConnectionDropped` for a `TransportDisconnect`, with its readings of the clock and what `add` returns.
Nobody catches what `addTime` throws here, so the process ends. -/
def onConnectionDropped (now now' handle : Int) : Option Link :=
  match addTime now s.retryPeriod with
  | none => none
  | some nextRetry =>
    let s := { s with connectionDropped := true, needsRetry := true, nextRetry }
    if s.retryTimerHandle = -1 then
      match addTime now' 100000000 with
      | none => none
      | some nextRetry =>
        some { s with
          retryPeriod := 100000000, nextRetry, retryTimerHandle := handle, timers := s.timers ++ [handle] }
    else some s

/-- `onRetryTimer`; a new connection replaces the dropped one. -/
def onRetryTimer (now : Int) (attempt : Attempt) : Link :=
  if s.dropping then s
  else if s.needsRetry ∧ s.nextRetry < now then
    let s := { s with retryPeriod := min (s.retryPeriod * 2) 20000000000, needsRetry := false }
    if attempt.connect false then { s with connectionDropped := false } else s
  else s

end Link

inductive Label where
  | disconnect (now now' handle : Int)
  | headerError
  | headerReceived (accepted : Bool)
  | messageLength (success : Bool) (len : Nat)
  | retryTimer (handle now : Int) (attempt : Attempt)
  | drop
deriving DecidableEq, Repr

def Link.step (s : Link) : Label → Option Link
  | .disconnect now now' handle => if s.connectionDropped then none else s.onConnectionDropped now now' handle
  | .headerError => if s.connectionDropped then none else some s.drop
  | .headerReceived accepted => if s.connectionDropped then none else some (s.onHeaderReceived accepted)
  | .messageLength success len => if s.connectionDropped then none else some (s.onMessageLength success len)
  | .retryTimer handle now attempt => if handle ∈ s.timers then some (s.onRetryTimer now attempt) else none
  | .drop => some s.drop

def link : Machine Link Label where
  Init s := s = .start
  step := Link.step

/-- The connection stands, or a timer will try again. -/
def Armed (s : Link) : Prop :=
  s.dropping = false → s.connectionDropped = false ∨ s.needsRetry = true ∧ s.timers ≠ []

/-- Without a connection, and no retry to come. -/
def Stranded (s : Link) : Prop := s.connectionDropped = true ∧ s.needsRetry = false

instance (s : Link) : Decidable (Armed s) :=
  inferInstanceAs (Decidable (s.dropping = false → s.connectionDropped = false ∨ s.needsRetry = true ∧ s.timers ≠ []))

/-- A retry that is due succeeds in `connect`. -/
def RetrySucceeds (s : Link) : Label → Prop
  | .retryTimer _ now attempt =>
    s.dropping = false → s.needsRetry = true → s.nextRetry < now → attempt.Succeeds
  | _ => True

instance (s : Link) : ∀ a, Decidable (RetrySucceeds s a)
  | .retryTimer _ now attempt =>
    inferInstanceAs (Decidable (s.dropping = false → s.needsRetry = true → s.nextRetry < now → attempt.Succeeds))
  | .disconnect _ _ _ | .headerError | .headerReceived _ | .messageLength _ _ | .drop => .isTrue trivial

/-! ## What holds in every run -/

/-- `waits` is the assertion of `onConnectionDropped`. -/
structure Sound (s : Link) : Prop where
  waits : s.connectionDropped = false → s.needsRetry = false
  registered : s.retryTimerHandle ≠ -1 → s.retryTimerHandle ∈ s.timers
  waiting : s.needsRetry = true → s.timers ≠ []
  bounded : s.retryPeriod ≤ 20000000000

theorem Sound.start : Sound .start where
  waits _ := rfl
  registered h := absurd rfl h
  waiting h := by cases h
  bounded := by decide

namespace Sound

variable {s : Link}

theorem drop (h : Sound s) : Sound s.drop where
  waits hConnected := by cases hConnected
  registered := h.registered
  waiting := h.waiting
  bounded := h.bounded

theorem removeTimer (h : Sound s) (hConnected : s.connectionDropped = false) : Sound s.removeTimer := by
  rw [Link.removeTimer]
  split
  · constructor
    · exact h.waits
    · exact fun hHandle => absurd rfl hHandle
    · intro hNeeds
      cases (h.waits hConnected).symm.trans hNeeds
    · exact h.bounded
  · exact h

theorem removeTimer_connectionDropped : s.removeTimer.connectionDropped = s.connectionDropped := by
  rw [Link.removeTimer]
  split <;> rfl

theorem onConnectionDropped (h : Sound s) {now now' handle : Int} {s' : Link}
    (hStep : s.onConnectionDropped now now' handle = some s') : Sound s' ∧ s'.needsRetry = true := by
  rw [Link.onConnectionDropped] at hStep
  cases hNext : addTime now s.retryPeriod with
  | none =>
    rw [hNext] at hStep
    cases hStep
  | some nextRetry =>
    rw [hNext] at hStep
    dsimp only at hStep
    split at hStep
    · cases hFirst : addTime now' 100000000 with
      | none =>
        rw [hFirst] at hStep
        cases hStep
      | some first =>
        rw [hFirst] at hStep
        cases hStep
        refine ⟨⟨(fun hConnected => by cases hConnected), fun _ => ?_, fun _ => ?_, ?_⟩, rfl⟩
        · exact List.mem_append_right _ List.mem_cons_self
        · simp
        · dsimp only
          omega
    · rename_i hHandle
      cases hStep
      refine ⟨⟨(fun hConnected => by cases hConnected), h.registered, fun _ => ?_, h.bounded⟩, rfl⟩
      exact List.ne_nil_of_mem (h.registered hHandle)

theorem onRetryTimer (h : Sound s) (now : Int) (attempt : Attempt) : Sound (s.onRetryTimer now attempt) := by
  rw [Link.onRetryTimer]
  split
  · exact h
  · split
    · have hNone : ¬ (false = true) := by simp
      split
      · exact ⟨fun _ => rfl, h.registered, fun hNeeds => absurd hNeeds hNone, Int.min_le_right ..⟩
      · exact ⟨fun _ => rfl, h.registered, fun hNeeds => absurd hNeeds hNone, Int.min_le_right ..⟩
    · exact h

theorem step (h : Sound s) {a : Label} {s' : Link} (hStep : s.step a = some s') : Sound s' := by
  cases a with
  | disconnect now now' handle =>
    rw [Link.step] at hStep
    split at hStep
    · cases hStep
    · exact (h.onConnectionDropped hStep).1
  | headerError =>
    rw [Link.step] at hStep
    split at hStep
    · cases hStep
    · cases hStep
      exact h.drop
  | headerReceived accepted =>
    rw [Link.step] at hStep
    split at hStep
    · cases hStep
    · rename_i hConnected
      cases hStep
      rw [Link.onHeaderReceived]
      split
      · exact h.removeTimer (by simpa using hConnected)
      · exact h.drop
  | messageLength success len =>
    rw [Link.step] at hStep
    split at hStep
    · cases hStep
    · rename_i hConnected
      cases hStep
      have hRemoved := h.removeTimer (by simpa using hConnected)
      rw [Link.onMessageLength]
      split
      · exact hRemoved.drop
      · exact hRemoved
  | retryTimer handle now attempt =>
    obtain ⟨-, rfl⟩ := of_guard hStep
    exact h.onRetryTimer now attempt
  | drop =>
    cases hStep
    exact h.drop

end Sound

theorem sound {s : Link} (h : link.Reachable s) : Sound s :=
  h.invariant Sound (fun s (hInit : s = .start) => hInit ▸ .start) fun _ _ _ hSound _ hStep => hSound.step hStep

/-! ## Runs in which every retry succeeds in `connect` -/

theorem armed_of_dropping {s : Link} (h : s.dropping = true) : Armed s := by
  intro hNot
  cases h.symm.trans hNot

theorem armed_step {s s' : Link} {a : Label} (hSound : Sound s) (h : Armed s) (hOk : RetrySucceeds s a)
    (hStep : s.step a = some s') : Armed s' := by
  cases a with
  | disconnect now now' handle =>
    rw [Link.step] at hStep
    split at hStep
    · cases hStep
    · obtain ⟨hSound', hNeeds⟩ := hSound.onConnectionDropped hStep
      exact fun _ => .inr ⟨hNeeds, hSound'.waiting hNeeds⟩
  | headerError =>
    rw [Link.step] at hStep
    split at hStep
    · cases hStep
    · cases hStep
      exact armed_of_dropping rfl
  | headerReceived accepted =>
    rw [Link.step] at hStep
    split at hStep
    · cases hStep
    · rename_i hConnected
      cases hStep
      rw [Link.onHeaderReceived]
      split
      · exact fun _ => .inl (Sound.removeTimer_connectionDropped.trans (by simpa using hConnected))
      · exact armed_of_dropping rfl
  | messageLength success len =>
    rw [Link.step] at hStep
    split at hStep
    · cases hStep
    · rename_i hConnected
      cases hStep
      rw [Link.onMessageLength]
      split
      · exact armed_of_dropping rfl
      · exact fun _ => .inl (Sound.removeTimer_connectionDropped.trans (by simpa using hConnected))
  | retryTimer handle now attempt =>
    obtain ⟨-, rfl⟩ := of_guard hStep
    rw [Link.onRetryTimer]
    split
    · exact h
    · rename_i hDropping
      split
      · rename_i hDue
        have hConnect := attempt.connect_iff.mpr (hOk (by simpa using hDropping) hDue.1 hDue.2)
        rw [if_pos hConnect]
        exact fun _ => .inl rfl
      · exact h
  | drop =>
    cases hStep
    exact armed_of_dropping rfl

/-- Reconnection is not abandoned in a run in which no retry fails in `connect` itself. -/
theorem reconnects {s : Link} (h : link.ReachableWhen RetrySucceeds s) : Armed s := by
  have hBoth : Sound s ∧ Armed s := by
    refine h.invariant (fun s => Sound s ∧ Armed s) (fun s (hInit : s = .start) => ?_) ?_
    · subst hInit
      exact ⟨.start, fun _ => .inl rfl⟩
    · exact fun s a s' hInv hOk hStep => ⟨hInv.1.step hStep, armed_step hInv.1 hInv.2 hOk hStep⟩
  exact hBoth.2

/-! ## A retry that fails in `connect` -/

theorem stranded_of_failed {s s' : Link} {handle now : Int} {attempt : Attempt} (hSound : Sound s)
    (hFails : ¬ RetrySucceeds s (.retryTimer handle now attempt))
    (hStep : s.step (.retryTimer handle now attempt) = some s') : s'.dropping = false ∧ Stranded s' := by
  simp only [RetrySucceeds, Classical.not_imp] at hFails
  obtain ⟨hDropping, hNeeds, hDue, hFails⟩ := hFails
  have hConnect : ¬ attempt.connect false = true := fun hConnect => hFails (attempt.connect_iff.mp hConnect)
  obtain ⟨-, rfl⟩ := of_guard hStep
  rw [Link.onRetryTimer, if_neg (by simp [hDropping]), if_pos ⟨hNeeds, hDue⟩]
  dsimp only
  rw [if_neg hConnect]
  refine ⟨hDropping, ?_, rfl⟩
  by_contra hConnected
  cases (hSound.waits (by simpa using hConnected)).symm.trans hNeeds

theorem Stranded.step {s s' : Link} {a : Label} (h : Stranded s) (hStep : s.step a = some s') : Stranded s' := by
  obtain ⟨hDropped, hNeeds⟩ := h
  cases a with
  | retryTimer handle now attempt =>
    obtain ⟨-, rfl⟩ := of_guard hStep
    have hNot : ¬ (s.needsRetry = true ∧ s.nextRetry < now) := by simp [hNeeds]
    rw [Link.onRetryTimer, if_neg hNot, ite_self]
    exact ⟨hDropped, hNeeds⟩
  | drop =>
    cases hStep
    exact ⟨rfl, hNeeds⟩
  | disconnect now now' handle =>
    rw [Link.step, if_pos hDropped] at hStep
    cases hStep
  | headerError =>
    rw [Link.step, if_pos hDropped] at hStep
    cases hStep
  | headerReceived accepted =>
    rw [Link.step, if_pos hDropped] at hStep
    cases hStep
  | messageLength success len =>
    rw [Link.step, if_pos hDropped] at hStep
    cases hStep

theorem Stranded.run {s s' : Link} {as : List Label} (h : Stranded s) (hRun : link.run s as = some s') : Stranded s' := by
  induction as generalizing s with
  | nil =>
    cases hRun
    exact h
  | cons a as ih =>
    rw [Machine.run] at hRun
    split at hRun
    · rename_i hStep
      exact ih (h.step hStep) hRun
    · cases hRun

def unresolvable : Attempt :=
  ⟨bytes "robot", false, [], false, 7, .unresolved, 0, false, true⟩

def refusedLater : Attempt :=
  ⟨bytes "127.0.0.1", false, [], false, 7, .literal, -1, true, true⟩

theorem reconnection_abandoned :
    ∃ s, link.Reachable s ∧ s.dropping = false ∧ ¬ Armed s ∧
      ∀ as s', link.run s as = some s' → s'.connectionDropped = true := by
  refine ⟨_, Machine.Reachable.run (.init rfl)
    (rfl : link.run .start [.disconnect 0 0 1, .retryTimer 1 100000001 unresolvable] = some _), rfl, by decide, ?_⟩
  intro as s' hRun
  exact (Stranded.run ⟨rfl, rfl⟩ hRun).1

theorem reconnects_refusedLater :
    ∃ s, link.runWhen RetrySucceeds .start
        [.disconnect 0 0 1, .retryTimer 1 100000001 refusedLater, .disconnect 200000000 200000000 2,
          .retryTimer 1 400000000 refusedLater, .retryTimer 1 400000001 refusedLater, .headerReceived true,
          .disconnect 500000000 500000000 2] = some s ∧
      s.retryPeriod = 100000000 ∧ s.timers = [2] ∧ Armed s := by
  refine ⟨_, rfl, rfl, rfl, reconnects (Machine.ReachableWhen.runWhen (.init rfl)
    (rfl : link.runWhen RetrySucceeds .start
      [.disconnect 0 0 1, .retryTimer 1 100000001 refusedLater, .disconnect 200000000 200000000 2,
        .retryTimer 1 400000000 refusedLater, .retryTimer 1 400000001 refusedLater, .headerReceived true,
        .disconnect 500000000 500000000 2] = some _))⟩

end XcRos.Libros.LinkRetry
