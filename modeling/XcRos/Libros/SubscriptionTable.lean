import XcRos.Foundation.Machine
import XcRos.Libros.TopicManager

/-! # The table of subscriptions

Calls of `subscribe` and `unsubscribe` by any number of threads. `subscribe` holds `subs_mutex_` from
its first section to its end; `unsubscribe` takes it to find the subscription and once more to take it
out, and holds none while it removes the callback and counts what is left.
-/

namespace XcRos.Libros.SubscriptionTable

open XcRos.Foundation XcRos.Rpc Topics

inductive Call where
  | idle
  | joining (ops : Options) (sub : Nat)
  | creating (ops : Options)
  | removing (topic : Bytes) (helper sub : Nat)
  | counting (topic : Bytes) (sub : Nat)
  | emptied (topic : Bytes) (sub : Nat)
  | stopping (sub : Nat)
deriving DecidableEq, Repr

/-- The manager, the address of the next `Subscription`, the holder of `subs_mutex_` and the calls.
Kept beside: the helpers given to `subscribe`, those it returned `true` for and those given to
`unsubscribe`. -/
structure State where
  manager : TopicManager
  next : Nat
  subsMutex : Option Nat
  calls : Nat → Call
  used : List Nat
  subscribed : List (Nat × Bytes)
  unsubscribed : List Nat

inductive Label where
  | subscribe (thread : Nat) (ops : Options)
  | addCallback (thread : Nat)
  | registerSubscriber (thread : Nat) (accepted : Bool)
  | unsubscribe (thread : Nat) (topic : Bytes) (helper : Nat)
  | removeCallback (thread : Nat)
  | getNumCallbacks (thread : Nat)
  | erase (thread : Nat)
  | shutdown (thread : Nat)
deriving DecidableEq, Repr

namespace State

variable (s : State)

def start : State where
  manager := ⟨fun _ => ⟨[], [], [], [], false⟩, fun _ => ⟨[], [], [], [], false⟩, [], [], []⟩
  next := 0
  subsMutex := none
  calls _ := .idle
  used := []
  subscribed := []
  unsubscribed := []

def goto (thread : Nat) (call : Call) : State := { s with calls := Function.update s.calls thread call }

/-- The search of `unsubscribe`, which looks at the names only. -/
def stored (topic : Bytes) : Option Nat :=
  s.manager.subscriptions.find? fun r => (s.manager.subscription r).name == topic

/-- Up to where `addSubCallback` has found a subscription or none. A conflict is an exception, and so
is an empty md5sum. -/
def subscribe (thread : Nat) (ops : Options) : State :=
  let s := { s with used := ops.callback :: s.used }
  match s.manager.lookupSubscription ops.topic with
  | some r =>
    if md5sumsMatch ops.md5sum (s.manager.subscription r).md5sum then
      { s.goto thread (.joining ops r) with subsMutex := some thread }
    else s
  | none => if ops.md5sum = [] then s else { s.goto thread (.creating ops) with subsMutex := some thread }

/-- Without success `addSubCallback` returns `false`, and `subscribe` makes a new object. -/
def addCallback (thread : Nat) (ops : Options) (r : Nat) : State :=
  let (sub, added) := (s.manager.subscription r).addCallback ops.callback ops.md5sum
  let s := { s with manager := s.manager.setSubscription r sub }
  if added then
    { s.goto thread .idle with subsMutex := none, subscribed := (ops.callback, ops.topic) :: s.subscribed }
  else s.goto thread (.creating ops)

def newSubscription (ops : Options) : Subscription :=
  (Subscription.addCallback ⟨ops.topic, ops.md5sum, [], [], false⟩ ops.callback ops.md5sum).1

def registerSubscriber (thread : Nat) (ops : Options) (accepted : Bool) : State :=
  let manager := s.manager.setSubscription s.next (newSubscription ops)
  if accepted then
    { s.goto thread .idle with
      manager := { manager with subscriptions := manager.subscriptions ++ [s.next] }
      next := s.next + 1
      subsMutex := none
      subscribed := (ops.callback, ops.topic) :: s.subscribed }
  else
    { s.goto thread .idle with
      manager := manager.setSubscription s.next (newSubscription ops).shutdown
      next := s.next + 1
      subsMutex := none }

def unsubscribe (thread : Nat) (topic : Bytes) (helper : Nat) : State :=
  let s := { s with unsubscribed := helper :: s.unsubscribed }
  match s.stored topic with
  | some r => s.goto thread (.removing topic helper r)
  | none => s

def setSubscription (r : Nat) (sub : Subscription) : State :=
  { s with manager := s.manager.setSubscription r sub }

/-- The last section of `unsubscribe` under `subs_mutex_`. It goes by the name of the topic. -/
def erase (topic : Bytes) : State :=
  { s with manager := { s.manager with
      subscriptions := s.manager.subscriptions.eraseP fun r => (s.manager.subscription r).name == topic } }

def step (s : State) : Label → Option State
  | .subscribe thread ops =>
    if s.calls thread = .idle ∧ s.subsMutex = none ∧ ops.callback ∉ s.used then some (s.subscribe thread ops)
    else none
  | .addCallback thread =>
    match s.calls thread with
    | .joining ops r => some (s.addCallback thread ops r)
    | _ => none
  | .registerSubscriber thread accepted =>
    match s.calls thread with
    | .creating ops => some (s.registerSubscriber thread ops accepted)
    | _ => none
  | .unsubscribe thread topic helper =>
    if s.calls thread = .idle ∧ s.subsMutex = none then some (s.unsubscribe thread topic helper) else none
  | .removeCallback thread =>
    match s.calls thread with
    | .removing topic helper r =>
      some ((s.setSubscription r ((s.manager.subscription r).removeCallback helper)).goto thread (.counting topic r))
    | _ => none
  | .getNumCallbacks thread =>
    match s.calls thread with
    | .counting topic r =>
      some (s.goto thread (if (s.manager.subscription r).callbacks = [] then .emptied topic r else .idle))
    | _ => none
  | .erase thread =>
    match s.calls thread with
    | .emptied topic r => if s.subsMutex = none then some ((s.erase topic).goto thread (.stopping r)) else none
    | _ => none
  | .shutdown thread =>
    match s.calls thread with
    | .stopping r => some ((s.setSubscription r (s.manager.subscription r).shutdown).goto thread .idle)
    | _ => none

end State

def node : Machine State Label where
  Init s := s = .start
  step := State.step

/-- The subscription that `unsubscribe` takes out is the one that it found, and has no callback. -/
def TakesOwn (s : State) : Call → Prop
  | .emptied topic r => ∀ e ∈ s.stored topic, e = r ∧ (s.manager.subscription e).callbacks = []
  | _ => True

def StillEmpty (s : State) : Label → Prop
  | .erase thread => TakesOwn s (s.calls thread)
  | _ => True

instance (s : State) : ∀ call, Decidable (TakesOwn s call)
  | .emptied topic r => inferInstanceAs (Decidable (∀ e ∈ s.stored topic, e = r ∧ _))
  | .idle | .joining _ _ | .creating _ | .removing _ _ _ | .counting _ _ | .stopping _ => inferInstanceAs (Decidable True)

instance (s : State) : ∀ a, Decidable (StillEmpty s a)
  | .erase thread => inferInstanceAs (Decidable (TakesOwn s (s.calls thread)))
  | .subscribe _ _ | .addCallback _ | .registerSubscriber _ _ | .unsubscribe _ _ _ | .removeCallback _
  | .getNumCallbacks _ | .shutdown _ => inferInstanceAs (Decidable True)

structure Consistent (s : State) : Prop where
  kept : ∀ helper topic, (helper, topic) ∈ s.subscribed → helper ∉ s.unsubscribed →
    ∃ r ∈ s.manager.subscriptions, (s.manager.subscription r).name = topic ∧
      (s.manager.subscription r).dropped = false ∧ (s.manager.subscription r).callbacks.count helper = 1 ∧
      ∀ q, helper ∈ (s.manager.subscription q).callbacks → q = r
  oncePerTopic : s.manager.subscriptions.Pairwise fun r q =>
    (s.manager.subscription r).name ≠ (s.manager.subscription q).name
  nonempty : ∀ r ∈ s.manager.subscriptions, (s.manager.subscription r).callbacks ≠ []

/-! ## What each call relies on -/

def Placed (s : State) (thread : Nat) : Call → Prop
  | .idle => True
  | .joining ops r =>
    s.subsMutex = some thread ∧ r ∈ s.manager.subscriptions ∧ (s.manager.subscription r).name = ops.topic ∧
      md5sumsMatch ops.md5sum (s.manager.subscription r).md5sum = true ∧ ops.callback ∈ s.used ∧
      ∀ q, ops.callback ∉ (s.manager.subscription q).callbacks
  | .creating ops =>
    s.subsMutex = some thread ∧ (∀ r ∈ s.manager.subscriptions, (s.manager.subscription r).name ≠ ops.topic) ∧
      ops.callback ∈ s.used ∧ ∀ q, ops.callback ∉ (s.manager.subscription q).callbacks
  | .removing topic helper r =>
    helper ∈ s.unsubscribed ∧ r < s.next ∧ (s.manager.subscription r).name = topic
  | .counting topic r | .emptied topic r => r < s.next ∧ (s.manager.subscription r).name = topic
  | .stopping r => r < s.next ∧ r ∉ s.manager.subscriptions

structure Inv (s : State) : Prop where
  names : s.manager.subscriptions.Pairwise fun r q =>
    (s.manager.subscription r).name ≠ (s.manager.subscription q).name
  live : ∀ r ∈ s.manager.subscriptions, r < s.next ∧ (s.manager.subscription r).dropped = false
  fresh : ∀ r, s.next ≤ r → (s.manager.subscription r).callbacks = []
  watched : ∀ r ∈ s.manager.subscriptions, (s.manager.subscription r).callbacks = [] →
    ∃ t topic, s.calls t = .counting topic r ∨ s.calls t = .emptied topic r
  nodup : ∀ r, (s.manager.subscription r).callbacks.Nodup
  apart : ∀ h r q, h ∈ (s.manager.subscription r).callbacks → h ∈ (s.manager.subscription q).callbacks → q = r
  used : ∀ h r, h ∈ (s.manager.subscription r).callbacks → h ∈ s.used
  kept : ∀ h topic, (h, topic) ∈ s.subscribed → h ∉ s.unsubscribed →
    ∃ r ∈ s.manager.subscriptions, (s.manager.subscription r).name = topic ∧ h ∈ (s.manager.subscription r).callbacks
  placed : ∀ t, Placed s t (s.calls t)

theorem Inv.consistent {s : State} (h : Inv s) (hIdle : ∀ t, s.calls t = .idle) : Consistent s := by
  refine ⟨fun helper topic hSubscribed hWanted => ?_, h.names, fun r hr hNone => ?_⟩
  · obtain ⟨r, hr, hName, hMem⟩ := h.kept helper topic hSubscribed hWanted
    exact ⟨r, hr, hName, (h.live r hr).2, List.count_eq_one_of_mem (h.nodup r) hMem, fun q hq => h.apart helper r q hMem hq⟩
  · obtain ⟨t, topic, hCall | hCall⟩ := h.watched r hr hNone
    · rw [hIdle t] at hCall
      cases hCall
    · rw [hIdle t] at hCall
      cases hCall

structure Respects (s s' : State) (thread : Nat) : Prop where
  next : s.next ≤ s'.next
  names : ∀ r < s.next, (s'.manager.subscription r).name = (s.manager.subscription r).name
  gone : ∀ r < s.next, r ∉ s.manager.subscriptions → r ∉ s'.manager.subscriptions
  unsubscribed : ∀ h ∈ s.unsubscribed, h ∈ s'.unsubscribed
  locked : ∀ t ≠ thread, s.subsMutex = some t → s'.subsMutex = some t ∧
    s'.manager.subscriptions = s.manager.subscriptions ∧
    (∀ r, (s'.manager.subscription r).name = (s.manager.subscription r).name) ∧
    (∀ r, (s'.manager.subscription r).md5sum = (s.manager.subscription r).md5sum) ∧
    (∀ h r, h ∈ (s'.manager.subscription r).callbacks → h ∈ (s.manager.subscription r).callbacks) ∧
    ∀ h ∈ s.used, h ∈ s'.used

theorem Respects.placed {s s' : State} {thread t : Nat} (h : Respects s s' thread) (ht : t ≠ thread) {call : Call}
    (hPlaced : Placed s t call) : Placed s' t call := by
  cases call with
  | idle => trivial
  | joining ops r =>
    obtain ⟨hMutex, hr, hName, hMatch, hUsed, hNowhere⟩ := hPlaced
    obtain ⟨hMutex', hSubs, hNames, hMd5sums, hCallbacks, hUses⟩ := h.locked t ht hMutex
    refine ⟨hMutex', hSubs ▸ hr, (hNames r).trans hName, ?_, hUses _ hUsed, fun q hq => hNowhere q (hCallbacks _ q hq)⟩
    rw [hMd5sums]
    exact hMatch
  | creating ops =>
    obtain ⟨hMutex, hNone, hUsed, hNowhere⟩ := hPlaced
    obtain ⟨hMutex', hSubs, hNames, -, hCallbacks, hUses⟩ := h.locked t ht hMutex
    refine ⟨hMutex', fun r hr => ?_, hUses _ hUsed, fun q hq => hNowhere q (hCallbacks _ q hq)⟩
    rw [hNames]
    exact hNone r (hSubs ▸ hr)
  | removing topic helper r =>
    obtain ⟨hHelper, hr, hName⟩ := hPlaced
    exact ⟨h.unsubscribed _ hHelper, Nat.lt_of_lt_of_le hr h.next, (h.names r hr).trans hName⟩
  | counting topic r | emptied topic r =>
    obtain ⟨hr, hName⟩ := hPlaced
    exact ⟨Nat.lt_of_lt_of_le hr h.next, (h.names r hr).trans hName⟩
  | stopping r =>
    obtain ⟨hr, hGone⟩ := hPlaced
    exact ⟨Nat.lt_of_lt_of_le hr h.next, h.gone r hr hGone⟩

theorem newSubscription_eq (ops : Options) :
    State.newSubscription ops = ⟨ops.topic, ops.md5sum, [ops.callback], [], false⟩ := by
  have hSelf : md5sumsMatch ops.md5sum ops.md5sum = true := by simp [md5sumsMatch]
  rw [State.newSubscription, Subscription.addCallback_of_match hSelf, Subscription.join, Subscription.decay]
  split <;> rfl

theorem stored_spec {s : State} {topic : Bytes} {r : Nat} (h : s.stored topic = some r) :
    r ∈ s.manager.subscriptions ∧ (s.manager.subscription r).name = topic :=
  ⟨List.mem_of_find?_eq_some h, by simpa using List.find?_some h⟩

theorem exists_stored {s : State} {topic : Bytes} {r : Nat} (hr : r ∈ s.manager.subscriptions)
    (hName : (s.manager.subscription r).name = topic) : ∃ e, s.stored topic = some e := by
  rw [← Option.isSome_iff_exists, State.stored, List.find?_isSome]
  exact ⟨r, hr, by simpa using hName⟩

namespace Inv

variable {s : State} {thread : Nat}

theorem placed_update (h : Inv s) {s' : State} {call : Call} (hRespects : Respects s s' thread)
    (hCalls : s'.calls = Function.update s.calls thread call) (hNew : Placed s' thread call) :
    ∀ t, Placed s' t (s'.calls t) := by
  intro t
  rw [hCalls]
  obtain rfl | ht := eq_or_ne t thread
  · rw [Function.update_self]
    exact hNew
  · rw [Function.update_of_ne ht]
    exact hRespects.placed ht (h.placed t)

theorem move (h : Inv s) {call : Call} {mutex : Option Nat} {used unsubscribed : List Nat}
    (hUsed : ∀ x ∈ s.used, x ∈ used) (hUnsubscribed : ∀ x ∈ s.unsubscribed, x ∈ unsubscribed)
    (hMutex : ∀ t ≠ thread, s.subsMutex = some t → mutex = some t)
    (hWatch : ∀ topic r, s.calls thread = .counting topic r ∨ s.calls thread = .emptied topic r →
      (s.manager.subscription r).callbacks = [] → call = .emptied topic r)
    (hNew : Placed { s with calls := s.calls, subsMutex := mutex, used := used, unsubscribed := unsubscribed }
      thread call) :
    Inv { s.goto thread call with subsMutex := mutex, used := used, unsubscribed := unsubscribed } where
  names := h.names
  live := h.live
  fresh := h.fresh
  watched r hr hNone := by
    obtain ⟨t, topic, hCall⟩ := h.watched r hr hNone
    obtain rfl | ht := eq_or_ne t thread
    · exact ⟨t, topic, .inr ((Function.update_self ..).trans (hWatch topic r hCall hNone))⟩
    · refine ⟨t, topic, ?_⟩
      show Function.update s.calls thread call t = _ ∨ Function.update s.calls thread call t = _
      rw [Function.update_of_ne ht]
      exact hCall
  nodup := h.nodup
  apart := h.apart
  used x r hx := hUsed x (h.used x r hx)
  kept x topic hx hWanted := h.kept x topic hx fun hGone => hWanted (hUnsubscribed x hGone)
  placed := by
    refine h.placed_update ⟨Nat.le_refl _, fun _ _ => rfl, fun _ _ hGone => hGone, hUnsubscribed, fun t ht hHolds => ?_⟩
      rfl hNew
    exact ⟨hMutex t ht hHolds, rfl, fun _ => rfl, fun _ => rfl, fun _ _ hx => hx, hUsed⟩

theorem use (h : Inv s) (hIdle : s.calls thread = .idle) {used unsubscribed : List Nat}
    (hUsed : ∀ x ∈ s.used, x ∈ used) (hUnsubscribed : ∀ x ∈ s.unsubscribed, x ∈ unsubscribed) :
    Inv { s with used := used, unsubscribed := unsubscribed } := by
  have hMove := h.move hUsed hUnsubscribed (fun _ _ hHolds => hHolds) (fun topic r hCall _ => by
    rw [hIdle] at hCall
    obtain hCall | hCall := hCall <;> cases hCall) (show Placed _ thread .idle from trivial)
  rw [State.goto, ← hIdle, Function.update_eq_self] at hMove
  exact hMove

theorem subscribe (h : Inv s) {ops : Options} (hIdle : s.calls thread = .idle) (hFree : s.subsMutex = none)
    (hNew : ops.callback ∉ s.used) : Inv (s.subscribe thread ops) := by
  have hUsed : ∀ x ∈ s.used, x ∈ ops.callback :: s.used := fun x hx => List.mem_cons_of_mem _ hx
  have hNowhere : ∀ q, ops.callback ∉ (s.manager.subscription q).callbacks := fun q hq => hNew (h.used _ q hq)
  have hMutex {mutex : Option Nat} : ∀ t ≠ thread, s.subsMutex = some t → mutex = some t := by
    intro t _ hHolds
    rw [hFree] at hHolds
    cases hHolds
  have hWatch {call : Call} : ∀ topic r, s.calls thread = .counting topic r ∨ s.calls thread = .emptied topic r →
      (s.manager.subscription r).callbacks = [] → call = .emptied topic r := by
    intro topic r hCall
    rw [hIdle] at hCall
    obtain hCall | hCall := hCall <;> cases hCall
  have hSame : Inv { s with used := ops.callback :: s.used } := by
    exact h.use hIdle hUsed fun _ hx => hx
  rw [State.subscribe]
  dsimp only
  cases hLookup : s.manager.lookupSubscription ops.topic with
  | some r =>
    dsimp only
    split
    · rename_i hMatch
      have hr := List.mem_of_find?_eq_some hLookup
      have hLive := List.find?_some hLookup
      simp only [Subscription.isLive, Bool.and_eq_true, beq_iff_eq] at hLive
      exact h.move hUsed (fun _ hx => hx) hMutex hWatch
        ⟨rfl, hr, hLive.2, hMatch, List.mem_cons_self, hNowhere⟩
    · exact hSame
  | none =>
    dsimp only
    split
    · exact hSame
    · refine h.move hUsed (fun _ hx => hx) hMutex hWatch ⟨rfl, fun r hr hName => ?_, List.mem_cons_self, hNowhere⟩
      have hName : (s.manager.subscription r).name = ops.topic := hName
      exact List.find?_eq_none.mp hLookup r hr (by simp [Subscription.isLive, hName, (h.live r hr).2])

theorem unsubscribe (h : Inv s) (hIdle : s.calls thread = .idle) (topic : Bytes) (helper : Nat) :
    Inv (s.unsubscribe thread topic helper) := by
  have hMore : ∀ x ∈ s.unsubscribed, x ∈ helper :: s.unsubscribed := fun x hx => List.mem_cons_of_mem _ hx
  have hWatch {call : Call} : ∀ topic r, s.calls thread = .counting topic r ∨ s.calls thread = .emptied topic r →
      (s.manager.subscription r).callbacks = [] → call = .emptied topic r := by
    intro topic r hCall
    rw [hIdle] at hCall
    obtain hCall | hCall := hCall <;> cases hCall
  rw [State.unsubscribe]
  split
  · rename_i r hStored
    obtain ⟨hr, hName⟩ := stored_spec hStored
    exact h.move (fun _ hx => hx) hMore (fun _ _ hHolds => hHolds) hWatch
      ⟨List.mem_cons_self, (h.live r hr).1, hName⟩
  · exact h.use hIdle (fun _ hx => hx) hMore

theorem getNumCallbacks (h : Inv s) {topic : Bytes} {r : Nat} (hCall : s.calls thread = .counting topic r) :
    Inv (s.goto thread (if (s.manager.subscription r).callbacks = [] then .emptied topic r else .idle)) := by
  have hPlaced := h.placed thread
  rw [hCall] at hPlaced
  refine h.move (fun _ hx => hx) (fun _ hx => hx) (fun _ _ hHolds => hHolds) (fun topic' q hWas hNone => ?_) ?_
  · rw [hCall] at hWas
    obtain hWas | hWas := hWas
    · cases hWas
      rw [if_pos hNone]
    · cases hWas
  · split
    · exact hPlaced
    · trivial

theorem shrink (h : Inv s) {r : Nat} {x : Subscription} {call : Call}
    (hName : x.name = (s.manager.subscription r).name) (hMd5sum : x.md5sum = (s.manager.subscription r).md5sum)
    (hCallbacks : x.callbacks.Sublist (s.manager.subscription r).callbacks)
    (hDropped : r ∈ s.manager.subscriptions → x.dropped = (s.manager.subscription r).dropped)
    (hWanted : ∀ k ∈ (s.manager.subscription r).callbacks, k ∉ s.unsubscribed → k ∈ x.callbacks)
    (hAway : ∀ topic q, s.calls thread ≠ .counting topic q ∧ s.calls thread ≠ .emptied topic q)
    (hCounts : r ∈ s.manager.subscriptions → ∃ topic, call = .counting topic r)
    (hNew : Placed (s.setSubscription r x) thread call) : Inv ((s.setSubscription r x).goto thread call) := by
  have hNames : ∀ q, ((s.manager.setSubscription r x).subscription q).name = (s.manager.subscription q).name :=
    TopicManager.forall_setSubscription (P := fun q y => y.name = (s.manager.subscription q).name) hName fun _ _ => rfl
  have hMd5sums : ∀ q, ((s.manager.setSubscription r x).subscription q).md5sum = (s.manager.subscription q).md5sum :=
    TopicManager.forall_setSubscription (P := fun q y => y.md5sum = (s.manager.subscription q).md5sum) hMd5sum
      fun _ _ => rfl
  have hSub : ∀ q, ((s.manager.setSubscription r x).subscription q).callbacks.Sublist
      (s.manager.subscription q).callbacks :=
    TopicManager.forall_setSubscription (P := fun q y => y.callbacks.Sublist (s.manager.subscription q).callbacks)
      hCallbacks fun _ _ => List.Sublist.refl _
  have hKept : ∀ q, ∀ k ∈ (s.manager.subscription q).callbacks, k ∉ s.unsubscribed →
      k ∈ ((s.manager.setSubscription r x).subscription q).callbacks :=
    TopicManager.forall_setSubscription
      (P := fun q y => ∀ k ∈ (s.manager.subscription q).callbacks, k ∉ s.unsubscribed → k ∈ y.callbacks)
      hWanted fun _ _ _ hk _ => hk
  refine ⟨?_, fun q hq => ⟨(h.live q hq).1, ?_⟩, fun q hq => ?_, fun q hq hNone => ?_, fun q => (h.nodup q).sublist (hSub q),
    fun k q q' hk hk' => h.apart k q q' ((hSub q).subset hk) ((hSub q').subset hk'),
    fun k q hk => h.used k q ((hSub q).subset hk), fun k topic hSubscribed hStays => ?_, ?_⟩
  · refine h.names.imp fun {q q'} hNe => ?_
    rw [State.goto, State.setSubscription, hNames, hNames]
    exact hNe
  · exact TopicManager.forall_setSubscription (P := fun q y => q ∈ s.manager.subscriptions → y.dropped = false)
      (fun hr => (hDropped hr).trans (h.live r hr).2) (fun q _ hq => (h.live q hq).2) q hq
  · exact List.sublist_nil.mp (h.fresh q hq ▸ hSub q)
  · obtain rfl | hNe := eq_or_ne q r
    · obtain ⟨topic, hCall⟩ := hCounts hq
      exact ⟨thread, topic, .inl ((Function.update_self ..).trans hCall)⟩
    · have hNone : ((s.manager.setSubscription r x).subscription q).callbacks = [] := hNone
      rw [TopicManager.subscription_setSubscription_of_ne hNe] at hNone
      obtain ⟨t, topic, hCall⟩ := h.watched q hq hNone
      obtain rfl | ht := eq_or_ne t thread
      · obtain hCall | hCall := hCall
        · exact absurd hCall (hAway topic q).1
        · exact absurd hCall (hAway topic q).2
      · refine ⟨t, topic, ?_⟩
        show Function.update s.calls thread call t = _ ∨ Function.update s.calls thread call t = _
        rw [Function.update_of_ne ht]
        exact hCall
  · obtain ⟨q, hq, hTopic, hk⟩ := h.kept k topic hSubscribed hStays
    exact ⟨q, hq, (hNames q).trans hTopic, hKept q k hk hStays⟩
  · refine h.placed_update ⟨Nat.le_refl _, fun q _ => hNames q, fun _ _ hGone => hGone, fun _ hk => hk,
      fun t _ hHolds => ?_⟩ rfl ?_
    · exact ⟨hHolds, rfl, hNames, hMd5sums, fun k q hk => (hSub q).subset hk, fun _ hk => hk⟩
    · cases call <;> exact hNew

theorem removeCallback (h : Inv s) {topic : Bytes} {helper r : Nat}
    (hCall : s.calls thread = .removing topic helper r) :
    Inv ((s.setSubscription r ((s.manager.subscription r).removeCallback helper)).goto thread (.counting topic r)) := by
  have hPlaced := h.placed thread
  rw [hCall] at hPlaced
  obtain ⟨hHelper, hr, hName⟩ := hPlaced
  refine h.shrink rfl rfl List.erase_sublist (fun _ => rfl) (fun k hk hStays => ?_) (fun topic' q => ?_)
    (fun _ => ⟨topic, rfl⟩) ⟨hr, ?_⟩
  · refine (List.mem_erase_of_ne ?_).mpr hk
    rintro rfl
    exact hStays hHelper
  · rw [hCall]
    exact ⟨by simp, by simp⟩
  · show ((s.manager.setSubscription r _).subscription r).name = topic
    rw [TopicManager.subscription_setSubscription]
    exact hName

theorem shutdown (h : Inv s) {r : Nat} (hCall : s.calls thread = .stopping r) :
    Inv ((s.setSubscription r (s.manager.subscription r).shutdown).goto thread .idle) := by
  have hPlaced := h.placed thread
  rw [hCall] at hPlaced
  have hName : (s.manager.subscription r).shutdown.name = (s.manager.subscription r).name := by
    rw [Subscription.shutdown]
    split <;> rfl
  have hMd5sum : (s.manager.subscription r).shutdown.md5sum = (s.manager.subscription r).md5sum := by
    rw [Subscription.shutdown]
    split <;> rfl
  have hCallbacks : (s.manager.subscription r).shutdown.callbacks = (s.manager.subscription r).callbacks := by
    rw [Subscription.shutdown]
    split <;> rfl
  refine h.shrink hName hMd5sum (hCallbacks ▸ List.Sublist.refl _) (fun hr => absurd hr hPlaced.2)
    (fun k hk _ => hCallbacks ▸ hk) (fun topic q => ?_) (fun hr => absurd hr hPlaced.2) trivial
  rw [hCall]
  exact ⟨by simp, by simp⟩

theorem erase (h : Inv s) {topic : Bytes} {r : Nat} (hCall : s.calls thread = .emptied topic r)
    (hFree : s.subsMutex = none) (hOk : ∀ e ∈ s.stored topic, e = r ∧ (s.manager.subscription e).callbacks = []) :
    Inv ((s.erase topic).goto thread (.stopping r)) := by
  have hPlaced := h.placed thread
  rw [hCall] at hPlaced
  have hSub : (s.erase topic).manager.subscriptions.Sublist s.manager.subscriptions := List.eraseP_sublist
  have hGone : ∀ q ∈ (s.erase topic).manager.subscriptions, (s.manager.subscription q).name ≠ topic :=
    fun q hq => not_of_mem_eraseP h.names hq
  have hStays : ∀ q ∈ s.manager.subscriptions, (s.manager.subscription q).callbacks ≠ [] →
      q ∈ (s.erase topic).manager.subscriptions := by
    intro q hq hSome
    refine (List.mem_eraseP_of_neg ?_).mpr hq
    rw [beq_iff_eq]
    intro hName
    obtain ⟨e, hStored⟩ := exists_stored hq hName
    obtain ⟨he, heName⟩ := stored_spec hStored
    have hSame : q = e := List.inj_on_of_nodup_map (List.pairwise_map.mpr h.names) hq he (hName.trans heName.symm)
    exact hSome (hSame ▸ (hOk e hStored).2)
  refine ⟨h.names.sublist hSub, fun q hq => h.live q (hSub.subset hq), h.fresh, fun q hq hNone => ?_, h.nodup, h.apart,
    h.used, fun k topic' hSubscribed hWanted => ?_, ?_⟩
  · obtain ⟨t, topic', hWatch⟩ := h.watched q (hSub.subset hq) hNone
    have ht : t ≠ thread := by
      rintro rfl
      rw [hCall] at hWatch
      obtain hWatch | hWatch := hWatch
      · cases hWatch
      · cases hWatch
        exact hGone r hq hPlaced.2
    refine ⟨t, topic', ?_⟩
    show Function.update s.calls thread _ t = _ ∨ Function.update s.calls thread _ t = _
    rw [Function.update_of_ne ht]
    exact hWatch
  · obtain ⟨q, hq, hName, hk⟩ := h.kept k topic' hSubscribed hWanted
    exact ⟨q, hStays q hq (List.ne_nil_of_mem hk), hName, hk⟩
  · refine h.placed_update ⟨Nat.le_refl _, fun _ _ => rfl, fun q _ hOld hq => hOld (hSub.subset hq), fun _ hk => hk,
      fun t _ hHolds => ?_⟩ rfl ⟨hPlaced.1, fun hr => hGone r hr hPlaced.2⟩
    rw [hFree] at hHolds
    cases hHolds

theorem add (h : Inv s) {ops : Options} {r next : Nat} {x : Subscription} (subs : List Nat)
    {subscribed : List (Nat × Bytes)} (hMutex : s.subsMutex = some thread)
    (hAway : ∀ topic q, s.calls thread ≠ .counting topic q ∧ s.calls thread ≠ .emptied topic q)
    (hUsed : ops.callback ∈ s.used) (hNowhere : ∀ q, ops.callback ∉ (s.manager.subscription q).callbacks)
    (hCallbacks : x.callbacks = (s.manager.subscription r).callbacks ++ [ops.callback])
    (hNext : s.next ≤ next) (hr : r < next)
    (hOld : r < s.next → r ∈ s.manager.subscriptions ∧ x.name = (s.manager.subscription r).name)
    (hKeeps : ∀ q ∈ s.manager.subscriptions, q ∈ subs) (hAdds : ∀ q ∈ subs, q ∈ s.manager.subscriptions ∨ q = r)
    (hNames : subs.Pairwise fun q q' =>
      ((s.manager.setSubscription r x).subscription q).name ≠ ((s.manager.setSubscription r x).subscription q').name)
    (hLive : r ∈ subs → x.dropped = false)
    (hSubscribed : ∀ p ∈ subscribed, p ∈ s.subscribed ∨ p = (ops.callback, x.name) ∧ r ∈ subs) :
    Inv { s.goto thread .idle with
      manager := { s.manager.setSubscription r x with subscriptions := subs }
      next := next
      subsMutex := none
      subscribed := subscribed } := by
  have hMem : ∀ k q, k ∈ ((s.manager.setSubscription r x).subscription q).callbacks ↔
      k ∈ (s.manager.subscription q).callbacks ∨ k = ops.callback ∧ q = r := by
    intro k q
    obtain rfl | hNe := eq_or_ne q r
    · rw [TopicManager.subscription_setSubscription, hCallbacks, List.mem_append, List.mem_singleton]
      simp
    · rw [TopicManager.subscription_setSubscription_of_ne hNe]
      simp [hNe]
  have hSameName : ∀ q < s.next, ((s.manager.setSubscription r x).subscription q).name = (s.manager.subscription q).name :=
    TopicManager.forall_setSubscription (P := fun q y => q < s.next → y.name = (s.manager.subscription q).name)
      (fun hr => (hOld hr).2) fun _ _ _ => rfl
  refine ⟨hNames, fun q hq => ?_, fun q hq => ?_, fun q hq hNone => ?_, ?_, fun k q q' hk hk' => ?_, fun k q hk => ?_,
    fun k topic hp hWanted => ?_, ?_⟩
  · obtain hq | rfl := hAdds q hq
    · refine ⟨Nat.lt_of_lt_of_le (h.live q hq).1 hNext, ?_⟩
      exact TopicManager.forall_setSubscription (P := fun q y => q ∈ s.manager.subscriptions → y.dropped = false)
        (fun hr => hLive (hKeeps r hr)) (fun q _ hq => (h.live q hq).2) q hq
    · refine ⟨hr, ?_⟩
      rw [TopicManager.subscription_setSubscription]
      exact hLive hq
  · have hNe : q ≠ r := by
      have hq : next ≤ q := hq
      omega
    have hq : s.next ≤ q := Nat.le_trans hNext hq
    show ((s.manager.setSubscription r x).subscription q).callbacks = []
    rw [TopicManager.subscription_setSubscription_of_ne hNe]
    exact h.fresh q hq
  · have hNone : ((s.manager.setSubscription r x).subscription q).callbacks = [] := hNone
    have hNe : q ≠ r := by
      rintro rfl
      have hSome := (hMem ops.callback q).mpr (.inr ⟨rfl, rfl⟩)
      rw [hNone] at hSome
      cases hSome
    rw [TopicManager.subscription_setSubscription_of_ne hNe] at hNone
    obtain ⟨t, topic, hWatch⟩ := h.watched q ((hAdds q hq).resolve_right hNe) hNone
    have ht : t ≠ thread := by
      rintro rfl
      obtain hWatch | hWatch := hWatch
      · exact (hAway topic q).1 hWatch
      · exact (hAway topic q).2 hWatch
    refine ⟨t, topic, ?_⟩
    show Function.update s.calls thread _ t = _ ∨ Function.update s.calls thread _ t = _
    rw [Function.update_of_ne ht]
    exact hWatch
  · refine TopicManager.forall_setSubscription (P := fun _ y => y.callbacks.Nodup) ?_ fun q _ => h.nodup q
    rw [hCallbacks]
    exact (h.nodup r).append (List.nodup_singleton _) (List.disjoint_singleton.mpr (hNowhere r))
  · obtain hk | ⟨rfl, rfl⟩ := (hMem k q).mp hk
    · obtain hk' | ⟨rfl, -⟩ := (hMem k q').mp hk'
      · exact h.apart k q q' hk hk'
      · exact absurd hk (hNowhere q)
    · obtain hk' | ⟨-, rfl⟩ := (hMem ops.callback q').mp hk'
      · exact absurd hk' (hNowhere q')
      · rfl
  · obtain hk | ⟨rfl, -⟩ := (hMem k q).mp hk
    · exact h.used k q hk
    · exact hUsed
  · obtain hOldPair | ⟨hPair, hStored⟩ := hSubscribed _ hp
    · obtain ⟨q, hq, hName, hk⟩ := h.kept k topic hOldPair hWanted
      exact ⟨q, hKeeps q hq, (hSameName q (h.live q hq).1).trans hName, (hMem k q).mpr (.inl hk)⟩
    · cases hPair
      refine ⟨r, hStored, ?_, (hMem _ r).mpr (.inr ⟨rfl, rfl⟩)⟩
      exact congrArg Subscription.name (TopicManager.subscription_setSubscription ..)
  · refine h.placed_update ⟨hNext, hSameName, fun q hq hGone hIn => ?_, fun _ hk => hk, fun t ht hHolds => ?_⟩ rfl trivial
    · obtain hIn | rfl := hAdds q hIn
      · exact hGone hIn
      · exact hGone (hOld hq).1
    · rw [hMutex] at hHolds
      cases hHolds
      exact absurd rfl ht

theorem addCallback (h : Inv s) {ops : Options} {r : Nat} (hCall : s.calls thread = .joining ops r) :
    Inv (s.addCallback thread ops r) := by
  have hPlaced := h.placed thread
  rw [hCall] at hPlaced
  obtain ⟨hMutex, hr, hName, hMatch, hUsed, hNowhere⟩ := hPlaced
  have hNext := (h.live r hr).1
  rw [State.addCallback, Subscription.addCallback_of_match hMatch]
  dsimp only
  rw [if_pos rfl]
  refine h.add s.manager.subscriptions hMutex (fun topic q => ?_) hUsed hNowhere rfl (Nat.le_refl _) hNext
    (fun _ => ⟨hr, Subscription.join_name ..⟩) (fun _ hq => hq) (fun _ hq => .inl hq) ?_ (fun _ => ?_) fun p hp => ?_
  · rw [hCall]
    exact ⟨by simp, by simp⟩
  · have hNames : ∀ q, ((s.manager.setSubscription r
        ((s.manager.subscription r).join ops.callback ops.md5sum)).subscription q).name =
          (s.manager.subscription q).name :=
      TopicManager.forall_setSubscription (P := fun q y => y.name = (s.manager.subscription q).name)
        (Subscription.join_name ..) fun _ _ => rfl
    refine h.names.imp fun {q q'} hNe => ?_
    rw [hNames, hNames]
    exact hNe
  · exact (Subscription.join_dropped ..).trans (h.live r hr).2
  · obtain rfl | hp := List.mem_cons.mp hp
    · exact .inr ⟨by rw [Subscription.join_name, hName], hr⟩
    · exact .inl hp

theorem registerSubscriber (h : Inv s) {ops : Options} (hCall : s.calls thread = .creating ops) (accepted : Bool) :
    Inv (s.registerSubscriber thread ops accepted) := by
  have hPlaced := h.placed thread
  rw [hCall] at hPlaced
  obtain ⟨hMutex, hNone, hUsed, hNowhere⟩ := hPlaced
  have hAway : ∀ topic q, s.calls thread ≠ .counting topic q ∧ s.calls thread ≠ .emptied topic q := by
    intro topic q
    rw [hCall]
    exact ⟨by simp, by simp⟩
  have hNew : s.next ∉ s.manager.subscriptions := fun hMem => Nat.lt_irrefl _ (h.live _ hMem).1
  have hOthers (x : Subscription) : ∀ q ∈ s.manager.subscriptions,
      (s.manager.setSubscription s.next x).subscription q = s.manager.subscription q := fun q hq =>
    TopicManager.subscription_setSubscription_of_ne (ne_of_mem_of_not_mem hq hNew) x
  have hNames (x : Subscription) : s.manager.subscriptions.Pairwise fun q q' =>
      ((s.manager.setSubscription s.next x).subscription q).name ≠
        ((s.manager.setSubscription s.next x).subscription q').name := by
    refine h.names.imp_of_mem fun {q q'} hq hq' hNe => ?_
    rw [hOthers x q hq, hOthers x q' hq']
    exact hNe
  have hLess : ¬ s.next < s.next := Nat.lt_irrefl _
  rw [State.registerSubscriber, newSubscription_eq]
  dsimp only
  cases accepted with
  | true =>
    rw [if_pos rfl]
    refine h.add (s.manager.subscriptions ++ [s.next]) hMutex hAway hUsed hNowhere
      (by rw [h.fresh _ (Nat.le_refl _), List.nil_append]) (Nat.le_succ _) (Nat.lt_succ_self _)
      (fun hLt => absurd hLt hLess) (fun q hq => List.mem_append_left _ hq)
      (fun q hq => (List.mem_append.mp hq).imp_right List.mem_singleton.mp) ?_ (fun _ => rfl) fun p hp => ?_
    · refine List.pairwise_append.mpr ⟨hNames _, List.pairwise_singleton .., fun q hq q' hq' => ?_⟩
      rw [List.mem_singleton.mp hq', hOthers _ q hq, TopicManager.subscription_setSubscription]
      exact hNone q hq
    · exact (List.mem_cons.mp hp).elim (fun hp => .inr ⟨hp, List.mem_append_right _ List.mem_cons_self⟩) .inl
  | false =>
    rw [if_neg (by simp), TopicManager.setSubscription_setSubscription]
    exact h.add s.manager.subscriptions hMutex hAway hUsed hNowhere
      (by rw [h.fresh _ (Nat.le_refl _), List.nil_append]; rfl) (Nat.le_succ _) (Nat.lt_succ_self _)
      (fun hLt => absurd hLt hLess) (fun _ hq => hq) (fun _ hq => .inl hq) (hNames _) (fun hMem => absurd hMem hNew)
      fun _ hp => .inl hp

theorem step (h : Inv s) {a : Label} {s' : State} (hOk : StillEmpty s a) (hStep : s.step a = some s') : Inv s' := by
  cases a with
  | subscribe thread ops =>
    obtain ⟨hReady, rfl⟩ := of_guard hStep
    exact h.subscribe hReady.1 hReady.2.1 hReady.2.2
  | addCallback thread =>
    rw [State.step] at hStep
    split at hStep
    · cases hStep
      exact h.addCallback ‹_›
    · cases hStep
  | registerSubscriber thread accepted =>
    rw [State.step] at hStep
    split at hStep
    · cases hStep
      exact h.registerSubscriber ‹_› accepted
    · cases hStep
  | unsubscribe thread topic helper =>
    obtain ⟨hReady, rfl⟩ := of_guard hStep
    exact h.unsubscribe hReady.1 topic helper
  | removeCallback thread =>
    rw [State.step] at hStep
    split at hStep
    · cases hStep
      exact h.removeCallback ‹_›
    · cases hStep
  | getNumCallbacks thread =>
    rw [State.step] at hStep
    split at hStep
    · cases hStep
      exact h.getNumCallbacks ‹_›
    · cases hStep
  | erase thread =>
    rw [State.step] at hStep
    split at hStep
    · rename_i topic r hCall
      split at hStep
      · cases hStep
        rw [StillEmpty, hCall] at hOk
        exact h.erase hCall ‹_› hOk
      · cases hStep
    · cases hStep
  | shutdown thread =>
    rw [State.step] at hStep
    split at hStep
    · cases hStep
      exact h.shutdown ‹_›
    · cases hStep

theorem start : Inv .start := by
  refine ⟨List.Pairwise.nil, fun r hr => ?_, fun _ _ => rfl, fun r hr => ?_, fun _ => List.nodup_nil,
    fun k r q hk => ?_, fun k r hk => ?_, fun k topic hp => ?_, fun _ => trivial⟩
  · cases hr
  · cases hr
  · cases hk
  · cases hk
  · cases hp

end Inv

/-- As long as what `unsubscribe` takes out is the empty subscription that it found, no subscription is lost. -/
theorem subscriptions_consistent {s : State} (h : node.ReachableWhen StillEmpty s) (hIdle : ∀ t, s.calls t = .idle) :
    Consistent s :=
  (h.invariant Inv (fun s (hInit : s = State.start) => hInit ▸ Inv.start)
    fun _ _ _ hInv hOk hStep => hInv.step hOk hStep).consistent hIdle

/-! ## Two helpers of one topic -/

def chatter (helper : Nat) : Options := ⟨bytes "/chatter", bytes "992ce8a1687cec8c8bd883ec73ca41d1", helper⟩

/-- The second helper joins the subscription in between the count of the first one's call and its last section. -/
def overtaken : List Label :=
  [.subscribe 0 (chatter 0), .registerSubscriber 0 true, .unsubscribe 0 (bytes "/chatter") 0, .removeCallback 0,
    .getNumCallbacks 0, .subscribe 1 (chatter 1), .addCallback 1, .erase 0, .shutdown 0]

def inTime : List Label :=
  [.subscribe 0 (chatter 0), .registerSubscriber 0 true, .unsubscribe 0 (bytes "/chatter") 0, .subscribe 1 (chatter 1),
    .addCallback 1, .removeCallback 0, .getNumCallbacks 0, .subscribe 0 ⟨bytes "/rosout", bytes "*", 2⟩,
    .registerSubscriber 0 true, .unsubscribe 0 (bytes "/rosout") 2, .removeCallback 0, .getNumCallbacks 0, .erase 0,
    .shutdown 0]

theorem subscription_lost :
    ∃ s, node.Reachable s ∧ (∀ t, s.calls t = .idle) ∧ (1, bytes "/chatter") ∈ s.subscribed ∧ 1 ∉ s.unsubscribed ∧
      s.manager.subscriptions = [] ∧ ¬ Consistent s := by
  refine ⟨_, Machine.Reachable.run (.init rfl) (rfl : node.run .start overtaken = some _), fun t => ?_, by decide,
    by decide, rfl, fun h => ?_⟩
  · obtain _ | _ | t := t <;> rfl
  · obtain ⟨r, hr, -⟩ := h.kept 1 (bytes "/chatter") (by decide) (by decide)
    cases hr

theorem subscriptions_consistent_inTime :
    ∃ s, node.runWhen StillEmpty .start inTime = some s ∧ s.manager.subscriptions = [0] ∧ Consistent s := by
  refine ⟨_, rfl, rfl, subscriptions_consistent (Machine.ReachableWhen.runWhen (.init rfl)
    (rfl : node.runWhen StillEmpty .start inTime = some _)) fun t => ?_⟩
  obtain _ | _ | t := t <;> rfl

end XcRos.Libros.SubscriptionTable
