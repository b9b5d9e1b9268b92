import XcRos.Foundation.Machine
import XcRos.Libros.TopicManager

/-! # The table of advertised topics

Calls of `advertise` and `unadvertise` by any number of threads. `unadvertise` holds
`advertised_topics_mutex_` to find the publication and again to take it out, and keeps an iterator into
the vector from the one to the other; the names have a mutex of their own, and `registerPublisher` is
sent without any.
-/

namespace XcRos.Libros.AdvertisedTopics

open XcRos.Foundation XcRos.Rpc Topics

structure Iterator where
  buffer : Nat
  index : Nat
deriving DecidableEq, Repr

inductive Call where
  | idle
  | naming (topic : Bytes) (callbacks : Nat)
  | registering (topic : Bytes) (callbacks : Nat)
  | removing (callbacks pub : Nat) (it : Iterator)
  | testing (pub : Nat) (it : Iterator)
  | dropping (pub : Nat) (it : Iterator)
  | unnaming (topic : Bytes)
deriving DecidableEq, Repr

/-- The manager, the address of the next `Publication`, the buffer of the vector, the holder of
`advertised_topics_mutex_`, the calls, what was sent to the master, and whether an iterator was used that
does not point into the vector. Kept beside: the callbacks given to `advertise`, those it returned `true`
for and those given to `unadvertise`. -/
structure State where
  manager : TopicManager
  next : Nat
  buffer : Nat
  mutex : Option Nat
  calls : Nat → Call
  sent : List (Bytes × Bool)
  undefined : Bool
  used : List Nat
  advertised : List (Nat × Bytes)
  unadvertised : List Nat

inductive Label where
  | advertise (thread : Nat) (ops : Options) (reallocates : Bool)
  | pushName (thread : Nat)
  | registerPublisher (thread : Nat)
  | unadvertise (thread : Nat) (topic : Bytes) (callbacks : Nat)
  | removeCallbacks (thread : Nat)
  | getNumCallbacks (thread : Nat)
  | dropAndErase (thread : Nat)
  | removeName (thread : Nat)
deriving DecidableEq, Repr

namespace State

variable (s : State)

def start : State where
  manager := ⟨fun _ => ⟨[], [], [], [], false⟩, fun _ => ⟨[], [], [], [], false⟩, [], [], []⟩
  next := 0
  buffer := 0
  mutex := none
  calls _ := .idle
  sent := []
  undefined := false
  used := []
  advertised := []
  unadvertised := []

def goto (thread : Nat) (call : Call) : State := { s with calls := Function.update s.calls thread call }

/-- The first section of `advertise`. A new publication is pushed into the vector, which may move. -/
def advertise (thread : Nat) (ops : Options) (reallocates : Bool) : State :=
  let s := { s with used := ops.callback :: s.used }
  match s.manager.advertise ops s.next with
  | (_, .refused) => s
  | (manager, .joined) => { s with manager := manager, advertised := (ops.callback, ops.topic) :: s.advertised }
  | (manager, .created) =>
    { s.goto thread (.naming ops.topic ops.callback) with
      manager := manager
      next := s.next + 1
      buffer := if reallocates then s.buffer + 1 else s.buffer }

/-- The search of `unadvertise`. -/
def find (topic : Bytes) : Option (Nat × Nat) :=
  (s.manager.advertisedTopics.findIdx? fun p => (s.manager.publication p).isLive topic).bind fun i =>
    (s.manager.advertisedTopics[i]?).map fun p => (i, p)

def unadvertise (thread : Nat) (topic : Bytes) (callbacks : Nat) : State :=
  let s := { s with unadvertised := callbacks :: s.unadvertised }
  match s.find topic with
  | some (i, p) => s.goto thread (.removing callbacks p ⟨s.buffer, i⟩)
  | none => s

def setPublication (p : Nat) (pub : Publication) : State := { s with manager := s.manager.setPublication p pub }

/-- `unregisterPublisher` is called under the mutex, and no other test of this publication's can come between. -/
def getNumCallbacks (thread p : Nat) (it : Iterator) : State :=
  if (s.manager.publication p).callbacks = [] then
    { s.goto thread (.dropping p it) with
      mutex := some thread
      sent := s.sent ++ [((s.manager.publication p).name, false)] }
  else s.goto thread .idle

/-- `erase` of an iterator into an old buffer, or past the elements, is undefined. -/
def dropAndErase (thread p : Nat) (it : Iterator) : State :=
  let s := s.setPublication p (s.manager.publication p).drop
  let s := s.goto thread (.unnaming (s.manager.publication p).name)
  if it.buffer = s.buffer ∧ it.index < s.manager.advertisedTopics.length then
    { s with manager := { s.manager with advertisedTopics := s.manager.advertisedTopics.eraseIdx it.index } }
  else { s with undefined := true }

def step (s : State) : Label → Option State
  | .advertise thread ops reallocates =>
    if s.calls thread = .idle ∧ s.mutex = none ∧ ops.callback ∉ s.used then
      some (s.advertise thread ops reallocates)
    else none
  | .pushName thread =>
    match s.calls thread with
    | .naming topic callbacks =>
      some { s.goto thread (.registering topic callbacks) with
        manager := { s.manager with advertisedTopicNames := s.manager.advertisedTopicNames ++ [topic] } }
    | _ => none
  | .registerPublisher thread =>
    match s.calls thread with
    | .registering topic callbacks =>
      some { s.goto thread .idle with
        sent := s.sent ++ [(topic, true)]
        advertised := (callbacks, topic) :: s.advertised }
    | _ => none
  | .unadvertise thread topic callbacks =>
    if s.calls thread = .idle ∧ s.mutex = none ∧ (callbacks, topic) ∈ s.advertised ∧ callbacks ∉ s.unadvertised then
      some (s.unadvertise thread topic callbacks)
    else none
  | .removeCallbacks thread =>
    match s.calls thread with
    | .removing callbacks p it =>
      some ((s.setPublication p ((s.manager.publication p).removeCallbacks callbacks)).goto thread (.testing p it))
    | _ => none
  | .getNumCallbacks thread =>
    match s.calls thread with
    | .testing p it => if s.mutex = none then some (s.getNumCallbacks thread p it) else none
    | _ => none
  | .dropAndErase thread =>
    match s.calls thread with
    | .dropping p it => some (s.dropAndErase thread p it)
    | _ => none
  | .removeName thread =>
    match s.calls thread with
    | .unnaming topic =>
      some { s.goto thread .idle with
        manager := { s.manager with
          advertisedTopicNames := s.manager.advertisedTopicNames.filter fun name => !(name == topic) }
        mutex := none }
    | _ => none

def lastSent (topic : Bytes) : Option Bool := (s.sent.reverse.find? fun m => m.1 == topic).map Prod.snd

def StillAdvertised (topic : Bytes) : Prop := ∃ c, (c, topic) ∈ s.advertised ∧ c ∉ s.unadvertised

end State

def node : Machine State Label where
  Init s := s = .start
  step := State.step

/-- A publication whose last callbacks have gone is still where the iterator points. -/
def PointsToOwn (s : State) : Call → Prop
  | .testing p it =>
    (s.manager.publication p).callbacks = [] →
      (s.manager.publication p).dropped = false ∧ it.buffer = s.buffer ∧ s.manager.advertisedTopics[it.index]? = some p
  | _ => True

/-- `advertise` passes over no publication without callbacks, and `unadvertise` erases its own. -/
def Undisturbed (s : State) : Label → Prop
  | .advertise _ ops _ =>
    ∀ p ∈ s.manager.lookupPublicationWithoutLock ops.topic, (s.manager.publication p).callbacks ≠ []
  | .getNumCallbacks thread => PointsToOwn s (s.calls thread)
  | _ => True

instance (s : State) : ∀ call, Decidable (PointsToOwn s call)
  | .testing p _ => inferInstanceAs (Decidable ((s.manager.publication p).callbacks = [] → _ ∧ _ ∧ _))
  | .idle | .naming _ _ | .registering _ _ | .removing _ _ _ | .dropping _ _ | .unnaming _ =>
    inferInstanceAs (Decidable True)

instance (s : State) : ∀ a, Decidable (Undisturbed s a)
  | .advertise _ ops _ => inferInstanceAs (Decidable (∀ p ∈ s.manager.lookupPublicationWithoutLock ops.topic, _ ≠ []))
  | .getNumCallbacks thread => inferInstanceAs (Decidable (PointsToOwn s (s.calls thread)))
  | .pushName _ | .registerPublisher _ | .unadvertise _ _ _ | .removeCallbacks _ | .dropAndErase _ | .removeName _ =>
    inferInstanceAs (Decidable True)

/-- The table, the names and what the master was told last agree with what is still advertised. -/
structure Consistent (s : State) : Prop where
  once : ∀ topic, s.StillAdvertised topic →
    (s.manager.advertisedTopics.filter fun p => (s.manager.publication p).isLive topic).length = 1
  none : ∀ topic, ¬ s.StillAdvertised topic →
    ∀ p ∈ s.manager.advertisedTopics, (s.manager.publication p).isLive topic = false
  names : s.manager.advertisedTopicNames.Nodup ∧
    ∀ topic, topic ∈ s.manager.advertisedTopicNames ↔ s.StillAdvertised topic
  told : ∀ topic, s.lastSent topic = some true ↔ s.StillAdvertised topic
  defined : s.undefined = false

/-! ## What the threads are at -/

namespace Call

/-- The topic and the callbacks of an `advertise` that has stored its publication and not returned. -/
def creating : Call → Option (Bytes × Nat)
  | naming topic callbacks | registering topic callbacks => some (topic, callbacks)
  | _ => none

def toName : Call → Option Bytes
  | naming topic _ => some topic
  | _ => none

def toUnname : Call → Option Bytes
  | unnaming topic => some topic
  | _ => none

def toDrop : Call → Option Nat
  | dropping pub _ => some pub
  | _ => none

def toRemove : Call → Option (Nat × Nat)
  | removing callbacks pub _ => some (callbacks, pub)
  | _ => none

/-- The publication that a thread is to test for callbacks, or has found to have none. -/
def watching : Call → Option Nat
  | testing pub _ | dropping pub _ => some pub
  | _ => none

end Call

namespace State

def Stored (s : State) (topic : Bytes) : Prop :=
  ∃ p ∈ s.manager.advertisedTopics, (s.manager.publication p).name = topic

/-- A publication that is stored for callbacks for which `advertise` has not returned. -/
def Created (s : State) (topic : Bytes) (callbacks : Nat) : Prop :=
  (∃ p ∈ s.manager.advertisedTopics, (s.manager.publication p).name = topic ∧
    callbacks ∈ (s.manager.publication p).callbacks) ∧
  callbacks ∉ s.unadvertised ∧ ∀ other, (callbacks, other) ∉ s.advertised

end State

def Placed (s : State) (thread : Nat) : Call → Prop
  | .idle => True
  | .naming topic callbacks | .registering topic callbacks => s.Created topic callbacks
  | .removing callbacks p _ => callbacks ∈ s.unadvertised ∧ p < s.next
  | .testing p _ => p < s.next
  | .dropping p it =>
    s.mutex = some thread ∧ (s.manager.publication p).callbacks = [] ∧ it.buffer = s.buffer ∧
      s.manager.advertisedTopics[it.index]? = some p
  | .unnaming topic => s.mutex = some thread ∧ ¬ s.Stored topic

structure Objects (s : State) : Prop where
  names : s.manager.advertisedTopics.Pairwise fun p q => (s.manager.publication p).name ≠ (s.manager.publication q).name
  live : ∀ p ∈ s.manager.advertisedTopics, p < s.next ∧ (s.manager.publication p).dropped = false
  fresh : ∀ p, s.next ≤ p → (s.manager.publication p).callbacks = []
  watched : ∀ p ∈ s.manager.advertisedTopics, (s.manager.publication p).callbacks = [] →
    ∃ t, (s.calls t).watching = some p
  nodup : ∀ p, (s.manager.publication p).callbacks.Nodup
  apart : ∀ c p q, c ∈ (s.manager.publication p).callbacks → c ∈ (s.manager.publication q).callbacks → q = p
  used : ∀ c p, c ∈ (s.manager.publication p).callbacks → c ∈ s.used
  advertisedUsed : ∀ c topic, (c, topic) ∈ s.advertised → c ∈ s.used
  unadvertisedUsed : ∀ c ∈ s.unadvertised, c ∈ s.used
  kept : ∀ c topic, (c, topic) ∈ s.advertised → c ∉ s.unadvertised →
    ∃ p ∈ s.manager.advertisedTopics, (s.manager.publication p).name = topic ∧ c ∈ (s.manager.publication p).callbacks
  leaving : ∀ p ∈ s.manager.advertisedTopics, ∀ c ∈ (s.manager.publication p).callbacks, c ∈ s.unadvertised →
    ∃ t, (s.calls t).toRemove = some (c, p)
  origin : ∀ p ∈ s.manager.advertisedTopics, ∀ c ∈ (s.manager.publication p).callbacks,
    (c, (s.manager.publication p).name) ∈ s.advertised ∨
      ∃ t, (s.calls t).creating = some ((s.manager.publication p).name, c)

structure Lists (s : State) : Prop where
  nodup : s.manager.advertisedTopicNames.Nodup
  names : ∀ topic, topic ∈ s.manager.advertisedTopicNames ↔
    (s.Stored topic ∧ ¬ ∃ t, (s.calls t).toName = some topic) ∨ ∃ t, (s.calls t).toUnname = some topic
  told : ∀ topic, s.lastSent topic = some true ↔
    s.Stored topic ∧ (¬ ∃ t, (s.calls t).creating.map Prod.fst = some topic) ∧
      ¬ ∃ t, (s.calls t).toDrop.map (fun p => (s.manager.publication p).name) = some topic

structure Inv (s : State) : Prop where
  objects : Objects s
  lists : Lists s
  creators : ∀ t t' topic c c', (s.calls t).creating = some (topic, c) → (s.calls t').creating = some (topic, c') → t = t'
  placed : ∀ t, Placed s t (s.calls t)
  defined : s.undefined = false

theorem Inv.consistent {s : State} (h : Inv s) (hIdle : ∀ t, s.calls t = .idle) : Consistent s := by
  have hNot {β : Type} {f : Call → Option β} (hf : f .idle = none) (b : β) : ¬ ∃ t, f (s.calls t) = some b := by
    rintro ⟨t, ht⟩
    rw [hIdle t, hf] at ht
    cases ht
  have hStored : ∀ topic, s.Stored topic ↔ s.StillAdvertised topic := by
    intro topic
    constructor
    · rintro ⟨p, hp, rfl⟩
      cases hCallbacks : (s.manager.publication p).callbacks with
      | nil => exact absurd (h.objects.watched p hp hCallbacks) (hNot rfl p)
      | cons c rest =>
        have hc : c ∈ (s.manager.publication p).callbacks := hCallbacks ▸ List.mem_cons_self
        refine ⟨c, (h.objects.origin p hp c hc).resolve_right (hNot rfl _), fun hGone => ?_⟩
        exact hNot rfl _ (h.objects.leaving p hp c hc hGone)
    · rintro ⟨c, hAdvertised, hStays⟩
      obtain ⟨p, hp, hName, -⟩ := h.objects.kept c topic hAdvertised hStays
      exact ⟨p, hp, hName⟩
  refine ⟨fun topic hStill => ?_, fun topic hNone p hp => ?_, ⟨h.lists.nodup, fun topic => ?_⟩, fun topic => ?_, h.defined⟩
  · obtain ⟨p, hp, hName⟩ := (hStored topic).mpr hStill
    have hFilter : s.manager.advertisedTopics.filter (fun p => (s.manager.publication p).isLive topic) = [p] := by
      refine List.perm_singleton.mp ((List.perm_ext_iff_of_nodup ?_ (List.nodup_singleton p)).mpr fun q => ?_)
      · exact (List.Nodup.of_map _ (List.pairwise_map.mpr h.objects.names)).filter _
      · rw [List.mem_filter, List.mem_singleton]
        constructor
        · rintro ⟨hq, hLive⟩
          simp only [Publication.isLive, Bool.and_eq_true, beq_iff_eq] at hLive
          exact List.inj_on_of_nodup_map (List.pairwise_map.mpr h.objects.names) hq hp (hLive.1.trans hName.symm)
        · rintro rfl
          exact ⟨hp, by simp [Publication.isLive, hName, (h.objects.live q hp).2]⟩
    rw [hFilter]
    rfl
  · rw [Publication.isLive, Bool.and_eq_false_iff]
    refine .inl ?_
    rw [beq_eq_false_iff_ne]
    exact fun hName => hNone ((hStored topic).mp ⟨p, hp, hName⟩)
  · rw [h.lists.names, ← hStored]
    exact ⟨fun hIn => (hIn.resolve_right (hNot rfl _)).1, fun hIn => .inl ⟨hIn, hNot rfl _⟩⟩
  · rw [h.lists.told, ← hStored]
    exact ⟨fun hTold => hTold.1, fun hTold => ⟨hTold, hNot (f := fun call => call.creating.map Prod.fst) rfl topic,
      hNot (f := fun call => call.toDrop.map fun p => (s.manager.publication p).name) rfl topic⟩⟩

structure Respects (s s' : State) (thread : Nat) : Prop where
  next : s.next ≤ s'.next
  unadvertised : ∀ c ∈ s.unadvertised, c ∈ s'.unadvertised
  created : ∀ t ≠ thread, ∀ topic c, (s.calls t).creating = some (topic, c) → s.Created topic c → s'.Created topic c
  locked : ∀ t ≠ thread, s.mutex = some t → s'.mutex = some t ∧ s'.buffer = s.buffer ∧
    s'.manager.advertisedTopics = s.manager.advertisedTopics ∧
    (∀ p, (s'.manager.publication p).name = (s.manager.publication p).name) ∧
    ∀ p, (s.manager.publication p).callbacks = [] → (s'.manager.publication p).callbacks = []

theorem Respects.placed {s s' : State} {thread t : Nat} (h : Respects s s' thread) (ht : t ≠ thread)
    (hPlaced : Placed s t (s.calls t)) : Placed s' t (s.calls t) := by
  cases hCall : s.calls t with
  | idle => trivial
  | naming topic c | registering topic c =>
    rw [hCall] at hPlaced
    exact h.created t ht topic c (by rw [hCall]; rfl) hPlaced
  | removing c p it =>
    rw [hCall] at hPlaced
    exact ⟨h.unadvertised c hPlaced.1, Nat.lt_of_lt_of_le hPlaced.2 h.next⟩
  | testing p it =>
    rw [hCall] at hPlaced
    exact Nat.lt_of_lt_of_le hPlaced h.next
  | dropping p it =>
    rw [hCall] at hPlaced
    obtain ⟨hMutex, hNone, hBuffer, hAt⟩ := hPlaced
    obtain ⟨hMutex', hBuffer', hTopics, -, hCallbacks⟩ := h.locked t ht hMutex
    refine ⟨hMutex', hCallbacks p hNone, hBuffer.trans hBuffer'.symm, ?_⟩
    rw [hTopics]
    exact hAt
  | unnaming topic =>
    rw [hCall] at hPlaced
    obtain ⟨hMutex, hGone⟩ := hPlaced
    obtain ⟨hMutex', -, hTopics, hNames, -⟩ := h.locked t ht hMutex
    refine ⟨hMutex', fun hStored => hGone ?_⟩
    obtain ⟨p, hp, hName⟩ := hStored
    rw [hTopics] at hp
    rw [hNames] at hName
    exact ⟨p, hp, hName⟩

structure Call.Quiet (call : Call) : Prop where
  creating : call.creating = none
  toName : call.toName = none
  toUnname : call.toUnname = none
  toDrop : call.toDrop = none

theorem lastSent_append (s : State) (m : Bytes × Bool) (topic : Bytes) :
    State.lastSent { s with sent := s.sent ++ [m] } topic = if m.1 = topic then some m.2 else s.lastSent topic := by
  rw [State.lastSent, List.reverse_append, List.reverse_singleton, List.singleton_append, List.find?_cons]
  by_cases hEq : m.1 = topic
  · rw [if_pos hEq, beq_iff_eq.mpr hEq]
    rfl
  · rw [if_neg hEq, beq_eq_false_iff_ne.mpr hEq]
    rfl

section

variable {s s' : State} {thread : Nat} {call : Call}

theorem Lists.quiet (h : Lists s) (hNames : s'.manager.advertisedTopicNames = s.manager.advertisedTopicNames)
    (hSent : s'.sent = s.sent) (hStored : ∀ topic, s'.Stored topic ↔ s.Stored topic)
    (hPublication : ∀ p, (s'.manager.publication p).name = (s.manager.publication p).name)
    (hCalls : s'.calls = Function.update s.calls thread call) (hOld : (s.calls thread).Quiet) (hNew : call.Quiet) :
    Lists s' where
  nodup := by
    rw [hNames]
    exact h.nodup
  names topic := by
    rw [hNames, hCalls, hStored, exists_update_iff (by rw [hOld.toName, hNew.toName]),
      exists_update_iff (by rw [hOld.toUnname, hNew.toUnname])]
    exact h.names topic
  told topic := by
    have hCreating : (∃ t, (Function.update s.calls thread call t).creating.map Prod.fst = some topic) ↔
        ∃ t, (s.calls t).creating.map Prod.fst = some topic :=
      exists_update_iff (f := fun call : Call => call.creating.map Prod.fst) (by simp only [hOld.creating, hNew.creating])
    have hDrop : (∃ t, (Function.update s.calls thread call t).toDrop.map (fun p => (s.manager.publication p).name) =
        some topic) ↔ ∃ t, (s.calls t).toDrop.map (fun p => (s.manager.publication p).name) = some topic :=
      exists_update_iff (f := fun call : Call => call.toDrop.map fun p => (s.manager.publication p).name)
        (by simp only [hOld.toDrop, hNew.toDrop])
    rw [State.lastSent, hSent, hCalls, hStored]
    simp only [hPublication]
    rw [hCreating, hDrop]
    exact h.told topic

theorem Inv.creators_quiet (h : Inv s) (hNew : call.creating = none) :
    ∀ t t' topic c c', (Function.update s.calls thread call t).creating = some (topic, c) →
      (Function.update s.calls thread call t').creating = some (topic, c') → t = t' := by
  have hOther : ∀ t topic c, (Function.update s.calls thread call t).creating = some (topic, c) →
      (s.calls t).creating = some (topic, c) := fun t =>
    forall_update (P := fun t (call : Call) => ∀ topic c, call.creating = some (topic, c) →
      (s.calls t).creating = some (topic, c))
      (fun topic c hc => by rw [hNew] at hc; cases hc) (fun _ _ _ _ hc => hc) t
  intro t t' topic c c' ht ht'
  exact h.creators t t' topic c c' (hOther t topic c ht) (hOther t' topic c' ht')

theorem Inv.placed_update (h : Inv s) (hRespects : Respects s s' thread)
    (hCalls : s'.calls = Function.update s.calls thread call) (hNew : Placed s' thread call) :
    ∀ t, Placed s' t (s'.calls t) := by
  rw [hCalls]
  exact forall_update (P := fun t call => Placed s' t call) hNew fun t ht => hRespects.placed ht (h.placed t)

end

/-! ## Calls of `unadvertise` -/

theorem quiet_idle : Call.Quiet .idle := ⟨rfl, rfl, rfl, rfl⟩

theorem quiet_removing (c p : Nat) (it : Iterator) : Call.Quiet (.removing c p it) := ⟨rfl, rfl, rfl, rfl⟩

theorem quiet_testing (p : Nat) (it : Iterator) : Call.Quiet (.testing p it) := ⟨rfl, rfl, rfl, rfl⟩

theorem Objects.eq_of_name {s : State} (h : Objects s) {p q : Nat} (hp : p ∈ s.manager.advertisedTopics)
    (hq : q ∈ s.manager.advertisedTopics) (hName : (s.manager.publication p).name = (s.manager.publication q).name) :
    p = q := List.inj_on_of_nodup_map (List.pairwise_map.mpr h.names) hp hq hName

theorem Objects.exists_find {s : State} (h : Objects s) {p : Nat} (hp : p ∈ s.manager.advertisedTopics) :
    ∃ i, s.find (s.manager.publication p).name = some (i, p) := by
  have hLive : (s.manager.publication p).isLive (s.manager.publication p).name = true := by
    simp [Publication.isLive, (h.live p hp).2]
  have hAny : s.manager.advertisedTopics.any
      (fun q => (s.manager.publication q).isLive (s.manager.publication p).name) = true :=
    List.any_eq_true.mpr ⟨p, hp, hLive⟩
  obtain ⟨i, hIndex⟩ := Option.isSome_iff_exists.mp (List.findIdx?_isSome.trans hAny)
  obtain ⟨hi, hFound, -⟩ := List.findIdx?_eq_some_iff_getElem.mp hIndex
  have hSame : s.manager.advertisedTopics[i] = p := by
    simp only [Publication.isLive, Bool.and_eq_true, beq_iff_eq] at hFound
    exact h.eq_of_name (List.getElem_mem hi) hp hFound.1
  refine ⟨i, ?_⟩
  rw [State.find, hIndex, Option.bind_some, List.getElem?_eq_getElem hi, hSame]
  rfl

namespace Inv

variable {s : State} {thread : Nat}

theorem unadvertise (h : Inv s) {topic : Bytes} {c : Nat} (hIdle : s.calls thread = .idle)
    (hAdvertised : (c, topic) ∈ s.advertised) (hNew : c ∉ s.unadvertised) : Inv (s.unadvertise thread topic c) := by
  have hObjects := h.objects
  obtain ⟨p, hp, hName, hc⟩ := hObjects.kept c topic hAdvertised hNew
  obtain ⟨i, hFind⟩ := hObjects.exists_find hp
  have hState : s.unadvertise thread topic c =
      { s.goto thread (.removing c p ⟨s.buffer, i⟩) with unadvertised := c :: s.unadvertised } := by
    rw [hName] at hFind
    have hFind : State.find { s with unadvertised := c :: s.unadvertised } topic = some (i, p) := hFind
    rw [State.unadvertise, hFind]
    rfl
  have hNot {β : Type} {f : Call → Option β} {b : β} {call : Call} (hf : f .idle = none) :
      f (s.calls thread) = some b → f call = some b := by
    intro hWas
    rw [hIdle, hf] at hWas
    cases hWas
  rw [hState]
  refine ⟨⟨hObjects.names, hObjects.live, hObjects.fresh, fun q hq hNone => ?_, hObjects.nodup, hObjects.apart,
    hObjects.used, hObjects.advertisedUsed, fun c' hc' => ?_, fun c' topic' hc' hStays => ?_, fun q hq c' hc' hGone => ?_,
    fun q hq c' hc' => ?_⟩, ?_, h.creators_quiet rfl, ?_, h.defined⟩
  · exact exists_update (hObjects.watched q hq hNone) (hNot rfl)
  · obtain rfl | hc' := List.mem_cons.mp hc'
    · exact hObjects.advertisedUsed _ _ hAdvertised
    · exact hObjects.unadvertisedUsed c' hc'
  · exact hObjects.kept c' topic' hc' fun hGone => hStays (List.mem_cons_of_mem _ hGone)
  · obtain rfl | hGone := List.mem_cons.mp hGone
    · obtain rfl := hObjects.apart c' p q hc hc'
      exact exists_update_self rfl
    · exact exists_update (hObjects.leaving q hq c' hc' hGone) (hNot rfl)
  · exact (hObjects.origin q hq c' hc').imp_right fun hCreating => exists_update hCreating (hNot rfl)
  · exact h.lists.quiet rfl rfl (fun _ => Iff.rfl) (fun _ => rfl) rfl (by rw [hIdle]; exact quiet_idle)
      (quiet_removing ..)
  · refine h.placed_update ⟨Nat.le_refl _, fun c' hc' => List.mem_cons_of_mem _ hc', fun t ht topic' c' hc' hCreated => ?_,
      fun t ht hHolds => ⟨hHolds, rfl, rfl, fun _ => rfl, fun _ hNone => hNone⟩⟩ rfl
      ⟨List.mem_cons_self, (hObjects.live p hp).1⟩
    refine ⟨hCreated.1, fun hGone => ?_, hCreated.2.2⟩
    obtain rfl | hGone := List.mem_cons.mp hGone
    · exact hCreated.2.2 topic hAdvertised
    · exact hCreated.2.1 hGone

theorem removeCallbacks (h : Inv s) {c p : Nat} {it : Iterator} (hCall : s.calls thread = .removing c p it) :
    Inv ((s.setPublication p ((s.manager.publication p).removeCallbacks c)).goto thread (.testing p it)) := by
  have hObjects := h.objects
  have hPlaced := h.placed thread
  rw [hCall] at hPlaced
  obtain ⟨hGone, hp⟩ := hPlaced
  have hNot {β : Type} {f : Call → Option β} {b : β} {call : Call} (hf : f (.removing c p it) = none) :
      f (s.calls thread) = some b → f call = some b := by
    intro hWas
    rw [hCall, hf] at hWas
    cases hWas
  have hName : ∀ q, ((s.manager.setPublication p ((s.manager.publication p).removeCallbacks c)).publication q).name =
      (s.manager.publication q).name :=
    TopicManager.forall_setPublication (P := fun q x => x.name = (s.manager.publication q).name) rfl fun _ _ => rfl
  have hDropped : ∀ q, ((s.manager.setPublication p ((s.manager.publication p).removeCallbacks c)).publication q).dropped =
      (s.manager.publication q).dropped :=
    TopicManager.forall_setPublication (P := fun q x => x.dropped = (s.manager.publication q).dropped) rfl fun _ _ => rfl
  have hSub : ∀ q, ((s.manager.setPublication p ((s.manager.publication p).removeCallbacks c)).publication q).callbacks.Sublist
      (s.manager.publication q).callbacks :=
    TopicManager.forall_setPublication (P := fun q x => x.callbacks.Sublist (s.manager.publication q).callbacks)
      List.erase_sublist fun _ _ => List.Sublist.refl _
  have hStays : ∀ q, ∀ c' ∈ (s.manager.publication q).callbacks, c' ≠ c →
      c' ∈ ((s.manager.setPublication p ((s.manager.publication p).removeCallbacks c)).publication q).callbacks :=
    TopicManager.forall_setPublication
      (P := fun q x => ∀ c' ∈ (s.manager.publication q).callbacks, c' ≠ c → c' ∈ x.callbacks)
      (fun c' hc' hNe => (List.mem_erase_of_ne hNe).mpr hc') fun _ _ _ hc' _ => hc'
  have hAway : ∀ q, c ∉ ((s.manager.setPublication p ((s.manager.publication p).removeCallbacks c)).publication q).callbacks ∨
      q ≠ p := by
    refine TopicManager.forall_setPublication (P := fun q x => c ∉ x.callbacks ∨ q ≠ p) (.inl ?_) fun q hq => .inr hq
    exact (hObjects.nodup p).not_mem_erase
  refine ⟨⟨?_, fun q hq => ⟨(hObjects.live q hq).1, (hDropped q).trans (hObjects.live q hq).2⟩, fun q hq => ?_,
    fun q hq hNone => ?_, fun q => (hObjects.nodup q).sublist (hSub q),
    fun c' q r hq hr => hObjects.apart c' q r ((hSub q).subset hq) ((hSub r).subset hr),
    fun c' q hc' => hObjects.used c' q ((hSub q).subset hc'), hObjects.advertisedUsed, hObjects.unadvertisedUsed,
    fun c' topic hc' hStill => ?_, fun q hq c' hc' hLeaves => ?_, fun q hq c' hc' => ?_⟩, ?_, h.creators_quiet rfl, ?_,
    h.defined⟩
  · refine hObjects.names.imp fun {q r} hNe => ?_
    rw [State.goto, State.setPublication, hName, hName]
    exact hNe
  · exact List.sublist_nil.mp (hObjects.fresh q hq ▸ hSub q)
  · obtain rfl | hNe := eq_or_ne q p
    · exact exists_update_self rfl
    · have hNone : ((s.manager.setPublication p _).publication q).callbacks = [] := hNone
      rw [TopicManager.publication_setPublication_of_ne hNe] at hNone
      exact exists_update (hObjects.watched q hq hNone) (hNot rfl)
  · obtain ⟨q, hq, hTopic, hMem⟩ := hObjects.kept c' topic hc' hStill
    refine ⟨q, hq, (hName q).trans hTopic, hStays q c' hMem ?_⟩
    rintro rfl
    exact hStill hGone
  · refine exists_update (hObjects.leaving q hq c' ((hSub q).subset hc') hLeaves) fun hWas => ?_
    have hWas : (s.calls thread).toRemove = some (c', q) := hWas
    rw [hCall] at hWas
    cases hWas
    exact absurd hc' ((hAway p).resolve_right fun hNe => hNe rfl)
  · have hOrigin := hObjects.origin q hq c' ((hSub q).subset hc')
    have hName : ((s.setPublication p ((s.manager.publication p).removeCallbacks c)).manager.publication q).name = _ := hName q
    rw [State.goto, hName]
    exact hOrigin.imp_right fun hCreating => exists_update hCreating (hNot rfl)
  · refine h.lists.quiet rfl rfl (fun topic => exists_congr fun q => and_congr_right fun _ => ?_) hName rfl
      (by rw [hCall]; exact quiet_removing ..) (quiet_testing ..)
    exact Eq.congr_left (hName q)
  · refine h.placed_update ⟨Nat.le_refl _, fun _ hc' => hc', fun t ht topic c' hc' hCreated => ?_,
      fun t ht hHolds => ⟨hHolds, rfl, rfl, hName, fun q hNone => List.sublist_nil.mp (hNone ▸ hSub q)⟩⟩ rfl hp
    obtain ⟨⟨q, hq, hTopic, hMem⟩, hStill, hOpen⟩ := hCreated
    refine ⟨⟨q, hq, (hName q).trans hTopic, hStays q c' hMem ?_⟩, hStill, hOpen⟩
    rintro rfl
    exact hStill hGone

theorem getNumCallbacks (h : Inv s) {p : Nat} {it : Iterator} (hCall : s.calls thread = .testing p it)
    (hFree : s.mutex = none) (hOk : PointsToOwn s (.testing p it)) : Inv (s.getNumCallbacks thread p it) := by
  have hObjects := h.objects
  have hPlaced := h.placed thread
  rw [hCall] at hPlaced
  have hNot {β : Type} {f : Call → Option β} {b : β} {call : Call} (hf : f (.testing p it) = none) :
      f (s.calls thread) = some b → f call = some b := by
    intro hWas
    rw [hCall, hf] at hWas
    cases hWas
  have hOthers (mutex : Option Nat) : ∀ t ≠ thread, s.mutex = some t → mutex = some t := by
    intro t _ hHolds
    rw [hFree] at hHolds
    cases hHolds
  rw [State.getNumCallbacks]
  split
  · rename_i hEmpty
    obtain ⟨-, hBuffer, hAt⟩ := hOk hEmpty
    refine ⟨⟨hObjects.names, hObjects.live, hObjects.fresh, fun q hq hNone => ?_, hObjects.nodup, hObjects.apart,
      hObjects.used, hObjects.advertisedUsed, hObjects.unadvertisedUsed, hObjects.kept, fun q hq c hc hGone => ?_,
      fun q hq c hc => ?_⟩, ⟨h.lists.nodup, fun topic => ?_, fun topic => ?_⟩, h.creators_quiet rfl, ?_, h.defined⟩
    · refine exists_update (hObjects.watched q hq hNone) fun hWas => ?_
      rw [hCall] at hWas
      exact hWas
    · exact exists_update (hObjects.leaving q hq c hc hGone) (hNot rfl)
    · exact (hObjects.origin q hq c hc).imp_right fun hCreating => exists_update hCreating (hNot rfl)
    · have hNames := h.lists.names topic
      rw [← exists_update_iff (f := Call.toName) (u := thread) (c := .dropping p it) (by rw [hCall]; rfl),
        ← exists_update_iff (f := Call.toUnname) (u := thread) (c := .dropping p it) (by rw [hCall]; rfl)] at hNames
      exact hNames
    · have hTold := h.lists.told topic
      have hCreating : (∃ t, (Function.update s.calls thread (.dropping p it) t).creating.map Prod.fst = some topic) ↔
          ∃ t, (s.calls t).creating.map Prod.fst = some topic :=
        exists_update_iff (f := fun call : Call => call.creating.map Prod.fst) (by simp only [hCall]; rfl)
      have hLast := lastSent_append s ((s.manager.publication p).name, false) topic
      refine Iff.trans (Eq.congr_left hLast) ?_
      by_cases hName : (s.manager.publication p).name = topic
      · rw [if_pos hName]
        exact iff_of_false (by simp) fun hRight => hRight.2.2
          (exists_update_self (f := fun call : Call => call.toDrop.map fun p => (s.manager.publication p).name)
            (congrArg some hName))
      · have hDrop : (∃ t, (Function.update s.calls thread (.dropping p it) t).toDrop.map
            (fun p => (s.manager.publication p).name) = some topic) ↔
            ∃ t, (s.calls t).toDrop.map (fun p => (s.manager.publication p).name) = some topic :=
          exists_update_iff (f := fun call : Call => call.toDrop.map fun p => (s.manager.publication p).name)
            (iff_of_false (fun hSome => hName (Option.some.inj hSome)) (by simp only [hCall]; simp [Call.toDrop]))
        rw [if_neg hName, hTold, ← hCreating, ← hDrop]
        rfl
    · exact h.placed_update ⟨Nat.le_refl _, fun _ hc => hc, fun _ _ _ _ _ hCreated => hCreated,
        fun t ht hHolds => ⟨hOthers _ t ht hHolds, rfl, rfl, fun _ => rfl, fun _ hNone => hNone⟩⟩ rfl
        ⟨rfl, hEmpty, hBuffer, hAt⟩
  · rename_i hSome
    refine ⟨⟨hObjects.names, hObjects.live, hObjects.fresh, fun q hq hNone => ?_, hObjects.nodup, hObjects.apart,
      hObjects.used, hObjects.advertisedUsed, hObjects.unadvertisedUsed, hObjects.kept, fun q hq c hc hGone => ?_,
      fun q hq c hc => ?_⟩, ?_, h.creators_quiet rfl, ?_, h.defined⟩
    · refine exists_update (hObjects.watched q hq hNone) fun hWas => ?_
      rw [hCall] at hWas
      cases hWas
      exact absurd hNone hSome
    · exact exists_update (hObjects.leaving q hq c hc hGone) (hNot rfl)
    · exact (hObjects.origin q hq c hc).imp_right fun hCreating => exists_update hCreating (hNot rfl)
    · exact h.lists.quiet rfl rfl (fun _ => Iff.rfl) (fun _ => rfl) rfl (by rw [hCall]; exact quiet_testing ..) quiet_idle
    · exact h.placed_update ⟨Nat.le_refl _, fun _ hc => hc, fun _ _ _ _ _ hCreated => hCreated,
        fun t ht hHolds => ⟨hHolds, rfl, rfl, fun _ => rfl, fun _ hNone => hNone⟩⟩ rfl trivial

theorem dropAndErase (h : Inv s) {p : Nat} {it : Iterator} (hCall : s.calls thread = .dropping p it) :
    Inv (s.dropAndErase thread p it) := by
  have hObjects := h.objects
  have hPlaced := h.placed thread
  rw [hCall] at hPlaced
  obtain ⟨hMutex, hEmpty, hBuffer, hAt⟩ := hPlaced
  obtain ⟨hIndex, hElement⟩ := List.getElem?_eq_some_iff.mp hAt
  have hp : p ∈ s.manager.advertisedTopics := List.mem_of_getElem? hAt
  have hDrop : (s.manager.publication p).drop = { s.manager.publication p with dropped := true, subscriberLinks := [] } := by
    rw [Publication.drop, if_neg (by simp [(hObjects.live p hp).2])]
  have hNodup : s.manager.advertisedTopics.Nodup := List.Nodup.of_map _ (List.pairwise_map.mpr hObjects.names)
  have hErase : s.manager.advertisedTopics.eraseIdx it.index = s.manager.advertisedTopics.erase p := by
    rw [← hElement]
    exact (hNodup.erase_getElem it.index hIndex).symm
  have hState : s.dropAndErase thread p it =
      { s.goto thread (.unnaming (s.manager.publication p).name) with
        manager := { s.manager.setPublication p
            { s.manager.publication p with dropped := true, subscriberLinks := [] } with
          advertisedTopics := s.manager.advertisedTopics.erase p } } := by
    rw [State.dropAndErase, hDrop]
    dsimp only
    rw [if_pos ⟨hBuffer, hIndex⟩]
    simp only [State.goto, State.setPublication, TopicManager.advertisedTopics_setPublication, hErase,
      TopicManager.publication_setPublication]
  have hMem : ∀ q, q ∈ s.manager.advertisedTopics.erase p ↔ q ≠ p ∧ q ∈ s.manager.advertisedTopics := fun q =>
    hNodup.mem_erase_iff
  have hSame : ∀ q ≠ p, (s.manager.setPublication p { s.manager.publication p with
      dropped := true, subscriberLinks := [] }).publication q = s.manager.publication q := fun q hq =>
    TopicManager.publication_setPublication_of_ne hq _
  have hName : ∀ q, ((s.manager.setPublication p { s.manager.publication p with
      dropped := true, subscriberLinks := [] }).publication q).name = (s.manager.publication q).name :=
    TopicManager.forall_setPublication (P := fun q x => x.name = (s.manager.publication q).name) rfl fun _ _ => rfl
  have hCallbacks : ∀ q, ((s.manager.setPublication p { s.manager.publication p with
      dropped := true, subscriberLinks := [] }).publication q).callbacks = (s.manager.publication q).callbacks :=
    TopicManager.forall_setPublication (P := fun q x => x.callbacks = (s.manager.publication q).callbacks) rfl
      fun _ _ => rfl
  have hNot {β : Type} {f : Call → Option β} {b : β} {call : Call} (hf : f (.dropping p it) = none) :
      f (s.calls thread) = some b → f call = some b := by
    intro hWas
    rw [hCall, hf] at hWas
    cases hWas
  have hStored : ∀ topic, (∃ q ∈ s.manager.advertisedTopics.erase p,
      ((s.manager.setPublication p { s.manager.publication p with
        dropped := true, subscriberLinks := [] }).publication q).name = topic) ↔
      (s.manager.publication p).name ≠ topic ∧ s.Stored topic := by
    intro topic
    constructor
    · rintro ⟨q, hq, hTopic⟩
      obtain ⟨hNe, hq⟩ := (hMem q).mp hq
      rw [hName] at hTopic
      refine ⟨fun hEq => hNe ?_, q, hq, hTopic⟩
      exact hObjects.eq_of_name hq hp (hTopic.trans hEq.symm)
    · rintro ⟨hNe, q, hq, hTopic⟩
      refine ⟨q, (hMem q).mpr ⟨?_, hq⟩, (hName q).trans hTopic⟩
      rintro rfl
      exact hNe hTopic
  rw [hState]
  refine ⟨⟨?_, fun q hq => ?_, fun q hq => (hCallbacks q).trans (hObjects.fresh q hq), fun q hq hNone => ?_, fun q => ?_,
    fun c q r hq hr => ?_, fun c q hc => ?_, hObjects.advertisedUsed, hObjects.unadvertisedUsed,
    fun c topic hc hStays => ?_, fun q hq c hc hGone => ?_, fun q hq c hc => ?_⟩,
    ⟨h.lists.nodup, fun topic => ?_, fun topic => ?_⟩, h.creators_quiet rfl, ?_, h.defined⟩
  · refine (hObjects.names.sublist List.erase_sublist).imp fun {q r} hNe => ?_
    rw [hName, hName]
    exact hNe
  · obtain ⟨hNe, hq⟩ := (hMem q).mp hq
    refine ⟨(hObjects.live q hq).1, ?_⟩
    rw [hSame q hNe]
    exact (hObjects.live q hq).2
  · obtain ⟨hNe, hq⟩ := (hMem q).mp hq
    refine exists_update (hObjects.watched q hq ((hCallbacks q).symm.trans hNone)) fun hWas => ?_
    rw [hCall] at hWas
    cases hWas
    exact absurd rfl hNe
  · rw [hCallbacks]
    exact hObjects.nodup q
  · rw [hCallbacks] at hq hr
    exact hObjects.apart c q r hq hr
  · rw [hCallbacks] at hc
    exact hObjects.used c q hc
  · obtain ⟨q, hq, hTopic, hIn⟩ := hObjects.kept c topic hc hStays
    refine ⟨q, (hMem q).mpr ⟨?_, hq⟩, (hName q).trans hTopic, ?_⟩
    · rintro rfl
      rw [hEmpty] at hIn
      cases hIn
    · rw [hCallbacks]
      exact hIn
  · rw [hCallbacks] at hc
    exact exists_update (hObjects.leaving q ((hMem q).mp hq).2 c hc hGone) (hNot rfl)
  · rw [hCallbacks] at hc
    rw [hName]
    exact (hObjects.origin q ((hMem q).mp hq).2 c hc).imp_right fun hCreating => exists_update hCreating (hNot rfl)
  · have hNames := h.lists.names topic
    have hToName : (∃ t, (Function.update s.calls thread (.unnaming (s.manager.publication p).name) t).toName = some topic) ↔
        ∃ t, (s.calls t).toName = some topic := exists_update_iff (by rw [hCall]; rfl)
    refine hNames.trans ?_
    refine Iff.trans ?_ (or_congr (and_congr (hStored topic).symm (not_congr hToName.symm)) Iff.rfl)
    by_cases hTopic : (s.manager.publication p).name = topic
    · refine iff_of_true (.inl ⟨⟨p, hp, hTopic⟩, ?_⟩) (.inr (exists_update_self (congrArg some hTopic)))
      rintro ⟨t, ht⟩
      have hCreated := h.placed t
      cases hNaming : s.calls t with
      | naming topic' c =>
        rw [hNaming] at hCreated ht
        cases ht
        obtain ⟨⟨q, hq, hq', hc⟩, -⟩ := hCreated
        rw [hObjects.eq_of_name hq hp (hq'.trans hTopic.symm), hEmpty] at hc
        cases hc
      | _ =>
        rw [hNaming] at ht
        cases ht
    · have hToUnname : (∃ t, (Function.update s.calls thread (.unnaming (s.manager.publication p).name) t).toUnname =
          some topic) ↔ ∃ t, (s.calls t).toUnname = some topic :=
        exists_update_iff (iff_of_false (fun hSome => hTopic (Option.some.inj hSome)) (by rw [hCall]; simp [Call.toUnname]))
      exact or_congr (and_congr_left fun _ => (and_iff_right hTopic).symm) hToUnname.symm
  · have hTold := h.lists.told topic
    have hCreating : (∃ t, (Function.update s.calls thread (.unnaming (s.manager.publication p).name) t).creating.map
        Prod.fst = some topic) ↔ ∃ t, (s.calls t).creating.map Prod.fst = some topic :=
      exists_update_iff (f := fun call : Call => call.creating.map Prod.fst) (by simp only [hCall]; rfl)
    refine hTold.trans ?_
    simp only [State.Stored, hName] at hStored ⊢
    by_cases hTopic : (s.manager.publication p).name = topic
    · refine iff_of_false (fun hLeft => hLeft.2.2 ⟨thread, ?_⟩) fun hRight => ((hStored topic).mp hRight.1).1 hTopic
      rw [hCall]
      exact congrArg some hTopic
    · have hToDrop : (∃ t, (Function.update s.calls thread (.unnaming (s.manager.publication p).name) t).toDrop.map
          (fun q => (s.manager.publication q).name) = some topic) ↔
          ∃ t, (s.calls t).toDrop.map (fun q => (s.manager.publication q).name) = some topic :=
        exists_update_iff (f := fun call : Call => call.toDrop.map fun q => (s.manager.publication q).name)
          (iff_of_false (by simp [Call.toDrop]) fun hSome => by
            simp only [hCall] at hSome
            exact hTopic (Option.some.inj hSome))
      exact and_congr ((hStored topic).trans (and_iff_right hTopic)).symm
        (and_congr (not_congr hCreating.symm) (not_congr hToDrop.symm))
  · refine h.placed_update ⟨Nat.le_refl _, fun _ hc => hc, fun t ht topic c _ hCreated => ?_, fun t ht hHolds => ?_⟩ rfl
      ⟨hMutex, fun hIn => ?_⟩
    · obtain ⟨⟨q, hq, hTopic, hc⟩, hStill⟩ := hCreated
      refine ⟨⟨q, (hMem q).mpr ⟨?_, hq⟩, (hName q).trans hTopic, ?_⟩, hStill⟩
      · rintro rfl
        rw [hEmpty] at hc
        cases hc
      · rw [hCallbacks]
        exact hc
    · rw [hMutex] at hHolds
      cases hHolds
      exact absurd rfl ht
    · exact ((hStored _).mp hIn).1 rfl

theorem removeName (h : Inv s) {topic : Bytes} (hCall : s.calls thread = .unnaming topic) :
    Inv { s.goto thread .idle with
      manager := { s.manager with
        advertisedTopicNames := s.manager.advertisedTopicNames.filter fun name => !(name == topic) }
      mutex := none } := by
  have hObjects := h.objects
  have hPlaced := h.placed thread
  rw [hCall] at hPlaced
  obtain ⟨hMutex, hGone⟩ := hPlaced
  have hNot {β : Type} {f : Call → Option β} {b : β} {call : Call} (hf : f (.unnaming topic) = none) :
      f (s.calls thread) = some b → f call = some b := by
    intro hWas
    rw [hCall, hf] at hWas
    cases hWas
  refine ⟨⟨hObjects.names, hObjects.live, hObjects.fresh, fun q hq hNone => ?_, hObjects.nodup, hObjects.apart,
    hObjects.used, hObjects.advertisedUsed, hObjects.unadvertisedUsed, hObjects.kept, fun q hq c hc hLeaves => ?_,
    fun q hq c hc => ?_⟩, ⟨h.lists.nodup.filter _, fun topic' => ?_, fun topic' => ?_⟩, h.creators_quiet rfl, ?_, h.defined⟩
  · exact exists_update (hObjects.watched q hq hNone) (hNot rfl)
  · exact exists_update (hObjects.leaving q hq c hc hLeaves) (hNot rfl)
  · exact (hObjects.origin q hq c hc).imp_right fun hCreating => exists_update hCreating (hNot rfl)
  · have hToName : (∃ t, (Function.update s.calls thread .idle t).toName = some topic') ↔
        ∃ t, (s.calls t).toName = some topic' := exists_update_iff (by rw [hCall]; rfl)
    show topic' ∈ s.manager.advertisedTopicNames.filter _ ↔
      (s.Stored topic' ∧ ¬ ∃ t, (Function.update s.calls thread .idle t).toName = some topic') ∨
        ∃ t, (Function.update s.calls thread .idle t).toUnname = some topic'
    rw [List.mem_filter, h.lists.names, hToName]
    by_cases hTopic : topic' = topic
    · refine iff_of_false (fun hLeft => by simp [hTopic] at hLeft) ?_
      rintro (hStored | hUnname)
      · exact hGone (hTopic ▸ hStored.1)
      · obtain ⟨t, ht, hUnname⟩ := exists_of_update hUnname (by simp [Call.toUnname])
        have hOther := h.placed t
        cases hOtherCall : s.calls t with
        | unnaming other =>
          rw [hOtherCall] at hOther
          exact ht (Option.some.inj (hOther.1.symm.trans hMutex))
        | _ =>
          rw [hOtherCall] at hUnname
          cases hUnname
    · have hToUnname : (∃ t, (Function.update s.calls thread .idle t).toUnname = some topic') ↔
          ∃ t, (s.calls t).toUnname = some topic' :=
        exists_update_iff (iff_of_false (by simp [Call.toUnname]) (by
          rw [hCall]
          exact fun hSome => hTopic (Option.some.inj hSome).symm))
      rw [hToUnname]
      exact and_iff_left (by simpa using hTopic)
  · have hTold := h.lists.told topic'
    rw [← exists_update_iff (f := fun call : Call => call.creating.map Prod.fst) (u := thread) (c := .idle)
        (by simp only [hCall]; rfl),
      ← exists_update_iff (f := fun call : Call => call.toDrop.map fun p => (s.manager.publication p).name)
        (u := thread) (c := .idle) (by simp only [hCall]; rfl)] at hTold
    exact hTold
  · refine h.placed_update ⟨Nat.le_refl _, fun _ hc => hc, fun _ _ _ _ _ hCreated => hCreated, fun t ht hHolds => ?_⟩ rfl
      trivial
    rw [hMutex] at hHolds
    cases hHolds
    exact absurd rfl ht

/-! ## Calls of `advertise` -/

theorem created_kept (h : Inv s) {topic : Bytes} {c : Nat} (hCreated : s.Created topic c) :
    (¬ ∃ t, (s.calls t).toUnname = some topic) ∧
      ¬ ∃ t, (s.calls t).toDrop.map (fun p => (s.manager.publication p).name) = some topic := by
  obtain ⟨⟨p, hp, hName, hc⟩, -⟩ := hCreated
  constructor
  · rintro ⟨t, ht⟩
    have hPlaced := h.placed t
    cases hCall : s.calls t with
    | unnaming other =>
      rw [hCall] at hPlaced ht
      cases ht
      exact hPlaced.2 ⟨p, hp, hName⟩
    | _ =>
      rw [hCall] at ht
      cases ht
  · rintro ⟨t, ht⟩
    have hPlaced := h.placed t
    cases hCall : s.calls t with
    | dropping q it =>
      rw [hCall] at hPlaced ht
      obtain ⟨-, hEmpty, -, hAt⟩ := hPlaced
      have hSame := h.objects.eq_of_name (List.mem_of_getElem? hAt) hp ((Option.some.inj ht).trans hName.symm)
      rw [hSame] at hEmpty
      rw [hEmpty] at hc
      cases hc
    | _ =>
      rw [hCall] at ht
      cases ht

theorem pushName (h : Inv s) {topic : Bytes} {c : Nat} (hCall : s.calls thread = .naming topic c) :
    Inv { s.goto thread (.registering topic c) with
      manager := { s.manager with advertisedTopicNames := s.manager.advertisedTopicNames ++ [topic] } } := by
  have hObjects := h.objects
  have hPlaced := h.placed thread
  rw [hCall] at hPlaced
  obtain ⟨hNotUnname, -⟩ := h.created_kept hPlaced
  have hNot {β : Type} {f : Call → Option β} {b : β} {call : Call} (hf : f (.naming topic c) = none) :
      f (s.calls thread) = some b → f call = some b := by
    intro hWas
    rw [hCall, hf] at hWas
    cases hWas
  have hSame : ∀ t, (Function.update s.calls thread (.registering topic c) t).creating = (s.calls t).creating :=
    forall_update (P := fun t (call : Call) => call.creating = (s.calls t).creating) (by rw [hCall]; rfl) fun _ _ => rfl
  have hToUnname : ∀ topic', (∃ t, (Function.update s.calls thread (.registering topic c) t).toUnname = some topic') ↔
      ∃ t, (s.calls t).toUnname = some topic' := fun topic' => exists_update_iff (by rw [hCall]; rfl)
  refine ⟨⟨hObjects.names, hObjects.live, hObjects.fresh, fun q hq hNone => ?_, hObjects.nodup, hObjects.apart,
    hObjects.used, hObjects.advertisedUsed, hObjects.unadvertisedUsed, hObjects.kept, fun q hq c' hc hLeaves => ?_,
    fun q hq c' hc => ?_⟩, ⟨?_, fun topic' => ?_, fun topic' => ?_⟩, fun t t' topic' c' c'' ht ht' => ?_, ?_, h.defined⟩
  · exact exists_update (hObjects.watched q hq hNone) (hNot rfl)
  · exact exists_update (hObjects.leaving q hq c' hc hLeaves) (hNot rfl)
  · refine (hObjects.origin q hq c' hc).imp_right fun hCreating => exists_update hCreating fun hWas => ?_
    rw [hCall] at hWas
    exact hWas
  · refine h.lists.nodup.append (List.nodup_singleton _) (List.disjoint_singleton.mpr fun hIn => ?_)
    obtain hStored | hUnname := (h.lists.names topic).mp hIn
    · exact hStored.2 ⟨thread, by rw [hCall]; rfl⟩
    · exact hNotUnname hUnname
  · show topic' ∈ s.manager.advertisedTopicNames ++ [topic] ↔
      (s.Stored topic' ∧ ¬ ∃ t, (Function.update s.calls thread (.registering topic c) t).toName = some topic') ∨
        ∃ t, (Function.update s.calls thread (.registering topic c) t).toUnname = some topic'
    rw [List.mem_append, List.mem_singleton, h.lists.names, hToUnname]
    by_cases hTopic : topic' = topic
    · refine iff_of_true (.inr hTopic) (.inl ⟨?_, fun hName => ?_⟩)
      · obtain ⟨p, hp, hName, -⟩ := hPlaced.1
        exact hTopic ▸ ⟨p, hp, hName⟩
      · obtain ⟨t, ht, hName⟩ := exists_of_update hName (by simp [Call.toName])
        cases hOther : s.calls t with
        | naming other c' =>
          rw [hOther] at hName
          cases hName
          exact ht (h.creators t thread topic' c' c (by rw [hOther]; rfl) (by rw [hCall, hTopic]; rfl))
        | _ =>
          rw [hOther] at hName
          cases hName
    · have hToName : (∃ t, (Function.update s.calls thread (.registering topic c) t).toName = some topic') ↔
          ∃ t, (s.calls t).toName = some topic' :=
        exists_update_iff (iff_of_false (by simp [Call.toName]) (by
          rw [hCall]
          exact fun hSome => hTopic (Option.some.inj hSome).symm))
      rw [hToName]
      exact or_iff_left hTopic
  · have hTold := h.lists.told topic'
    have hDrop : (∃ t, (Function.update s.calls thread (.registering topic c) t).toDrop.map
        (fun p => (s.manager.publication p).name) = some topic') ↔
          ∃ t, (s.calls t).toDrop.map (fun p => (s.manager.publication p).name) = some topic' :=
      exists_update_iff (f := fun call : Call => call.toDrop.map fun p => (s.manager.publication p).name)
        (by simp only [hCall]; rfl)
    refine hTold.trans (and_congr Iff.rfl (and_congr (not_congr (exists_congr fun t => ?_)) (not_congr hDrop.symm)))
    exact Eq.congr_left (congrArg (Option.map Prod.fst) (hSame t).symm)
  · exact h.creators t t' topic' c' c'' ((hSame t).symm.trans ht) ((hSame t').symm.trans ht')
  · exact h.placed_update ⟨Nat.le_refl _, fun _ hc => hc, fun _ _ _ _ _ hCreated => hCreated,
      fun t ht hHolds => ⟨hHolds, rfl, rfl, fun _ => rfl, fun _ hNone => hNone⟩⟩ rfl hPlaced

theorem registerPublisher (h : Inv s) {topic : Bytes} {c : Nat} (hCall : s.calls thread = .registering topic c) :
    Inv { s.goto thread .idle with
      sent := s.sent ++ [(topic, true)]
      advertised := (c, topic) :: s.advertised } := by
  have hObjects := h.objects
  have hPlaced := h.placed thread
  rw [hCall] at hPlaced
  obtain ⟨-, hNotDrop⟩ := h.created_kept hPlaced
  obtain ⟨⟨p, hp, hName, hc⟩, hStill, hOpen⟩ := hPlaced
  have hNot {β : Type} {f : Call → Option β} {b : β} {call : Call} (hf : f (.registering topic c) = none) :
      f (s.calls thread) = some b → f call = some b := by
    intro hWas
    rw [hCall, hf] at hWas
    cases hWas
  refine ⟨⟨hObjects.names, hObjects.live, hObjects.fresh, fun q hq hNone => ?_, hObjects.nodup, hObjects.apart,
    hObjects.used, fun c' topic' hc' => ?_, hObjects.unadvertisedUsed, fun c' topic' hc' hStays => ?_,
    fun q hq c' hc' hLeaves => ?_, fun q hq c' hc' => ?_⟩, ⟨h.lists.nodup, fun topic' => ?_, fun topic' => ?_⟩,
    h.creators_quiet rfl, ?_, h.defined⟩
  · exact exists_update (hObjects.watched q hq hNone) (hNot rfl)
  · obtain hNew | hOld := List.mem_cons.mp hc'
    · cases hNew
      exact hObjects.used c p hc
    · exact hObjects.advertisedUsed c' topic' hOld
  · obtain hNew | hOld := List.mem_cons.mp hc'
    · cases hNew
      exact ⟨p, hp, hName, hc⟩
    · exact hObjects.kept c' topic' hOld hStays
  · exact exists_update (hObjects.leaving q hq c' hc' hLeaves) (hNot rfl)
  · obtain hOld | ⟨t, ht⟩ := hObjects.origin q hq c' hc'
    · exact .inl (List.mem_cons_of_mem _ hOld)
    · obtain rfl | hNe := eq_or_ne t thread
      · rw [hCall] at ht
        cases ht
        exact .inl List.mem_cons_self
      · refine .inr ⟨t, ?_⟩
        show (Function.update s.calls thread .idle t).creating = _
        rw [Function.update_of_ne hNe]
        exact ht
  · have hNames := h.lists.names topic'
    rw [← exists_update_iff (f := Call.toName) (u := thread) (c := .idle) (by rw [hCall]; rfl),
      ← exists_update_iff (f := Call.toUnname) (u := thread) (c := .idle) (by rw [hCall]; rfl)] at hNames
    exact hNames
  · have hDrop : ∀ topic', (∃ t, (Function.update s.calls thread .idle t).toDrop.map
        (fun p => (s.manager.publication p).name) = some topic') ↔
          ∃ t, (s.calls t).toDrop.map (fun p => (s.manager.publication p).name) = some topic' := fun topic' =>
      exists_update_iff (f := fun call : Call => call.toDrop.map fun p => (s.manager.publication p).name)
        (by simp only [hCall]; rfl)
    refine Iff.trans (Eq.congr_left (lastSent_append s (topic, true) topic')) ?_
    by_cases hTopic : topic = topic'
    · rw [if_pos hTopic]
      refine iff_of_true rfl ⟨hTopic ▸ ⟨p, hp, hName⟩, fun hCreating => ?_, fun hDropping => ?_⟩
      · obtain ⟨t, ht, hCreating⟩ := exists_of_update (f := fun call : Call => call.creating.map Prod.fst) hCreating
          (by simp [Call.creating])
        obtain ⟨⟨other, c'⟩, hSome, rfl⟩ := Option.map_eq_some_iff.mp hCreating
        exact ht (h.creators t thread other c' c hSome (by rw [hCall, hTopic]; rfl))
      · exact hNotDrop (hTopic ▸ (hDrop topic').mp hDropping)
    · have hCreating : (∃ t, (Function.update s.calls thread .idle t).creating.map Prod.fst = some topic') ↔
          ∃ t, (s.calls t).creating.map Prod.fst = some topic' :=
        exists_update_iff (f := fun call : Call => call.creating.map Prod.fst)
          (iff_of_false (by simp [Call.creating]) fun hSome => by
            simp only [hCall] at hSome
            exact hTopic (Option.some.inj hSome))
      rw [if_neg hTopic]
      exact (h.lists.told topic').trans
        (and_congr Iff.rfl (and_congr (not_congr hCreating.symm) (not_congr (hDrop topic').symm)))
  · refine h.placed_update ⟨Nat.le_refl _, fun _ hc => hc, fun t ht topic' c' hCreating hCreated => ?_,
      fun t ht hHolds => ⟨hHolds, rfl, rfl, fun _ => rfl, fun _ hNone => hNone⟩⟩ rfl trivial
    obtain ⟨⟨q, hq, hName', hc'⟩, hStill', hOpen'⟩ := hCreated
    refine ⟨⟨q, hq, hName', hc'⟩, hStill', fun other hIn => ?_⟩
    obtain hNew | hOld := List.mem_cons.mp hIn
    · cases hNew
      have hSame := hObjects.apart c p q hc hc'
      rw [hSame] at hName'
      refine ht (h.creators t thread topic' c c hCreating ?_)
      rw [hCall, ← hName', hName]
      rfl
    · exact hOpen' other hOld

theorem use (h : Inv s) (c : Nat) : Inv { s with used := c :: s.used } where
  objects := { h.objects with
    used := fun c' p hc' => List.mem_cons_of_mem _ (h.objects.used c' p hc')
    advertisedUsed := fun c' topic hc' => List.mem_cons_of_mem _ (h.objects.advertisedUsed c' topic hc')
    unadvertisedUsed := fun c' hc' => List.mem_cons_of_mem _ (h.objects.unadvertisedUsed c' hc') }
  lists := ⟨h.lists.nodup, h.lists.names, h.lists.told⟩
  creators := h.creators
  placed t := by
    have hPlaced := h.placed t
    cases hCall : s.calls t <;> rw [hCall] at hPlaced <;> exact hPlaced
  defined := h.defined

theorem join (h : Inv s) {c p : Nat} (hFree : s.mutex = none) (hp : p ∈ s.manager.advertisedTopics) (hNew : c ∉ s.used) :
    Inv { s with
      manager := s.manager.setPublication p ((s.manager.publication p).addCallbacks c)
      used := c :: s.used
      advertised := (c, (s.manager.publication p).name) :: s.advertised } := by
  have hObjects := h.objects
  have hNowhere : ∀ q, c ∉ (s.manager.publication q).callbacks := fun q hc => hNew (hObjects.used c q hc)
  have hName : ∀ q, ((s.manager.setPublication p ((s.manager.publication p).addCallbacks c)).publication q).name =
      (s.manager.publication q).name :=
    TopicManager.forall_setPublication (P := fun q x => x.name = (s.manager.publication q).name) rfl fun _ _ => rfl
  have hDropped : ∀ q, ((s.manager.setPublication p ((s.manager.publication p).addCallbacks c)).publication q).dropped =
      (s.manager.publication q).dropped :=
    TopicManager.forall_setPublication (P := fun q x => x.dropped = (s.manager.publication q).dropped) rfl fun _ _ => rfl
  have hMem : ∀ c' q, c' ∈ ((s.manager.setPublication p ((s.manager.publication p).addCallbacks c)).publication q).callbacks ↔
      c' ∈ (s.manager.publication q).callbacks ∨ c' = c ∧ q = p := by
    intro c' q
    obtain rfl | hNe := eq_or_ne q p
    · rw [TopicManager.publication_setPublication, Publication.addCallbacks, List.mem_append, List.mem_singleton]
      simp
    · rw [TopicManager.publication_setPublication_of_ne hNe]
      simp [hNe]
  have hNotGone : c ∉ s.unadvertised := fun hc => hNew (hObjects.unadvertisedUsed c hc)
  refine ⟨⟨?_, fun q hq => ⟨(hObjects.live q hq).1, (hDropped q).trans (hObjects.live q hq).2⟩, fun q hq => ?_,
    fun q hq hNone => ?_, ?_, fun c' q r hq hr => ?_, fun c' q hc' => ?_, fun c' topic hc' => ?_,
    fun c' hc' => List.mem_cons_of_mem _ (hObjects.unadvertisedUsed c' hc'), fun c' topic hc' hStays => ?_,
    fun q hq c' hc' hLeaves => ?_, fun q hq c' hc' => ?_⟩, ?_, h.creators, fun t => ?_, h.defined⟩
  · refine hObjects.names.imp fun {q r} hNe => ?_
    rw [hName, hName]
    exact hNe
  · have hNe : q ≠ p := by
      have hLess := (hObjects.live p hp).1
      have hq : s.next ≤ q := hq
      omega
    show ((s.manager.setPublication p _).publication q).callbacks = []
    rw [TopicManager.publication_setPublication_of_ne hNe]
    exact hObjects.fresh q hq
  · refine hObjects.watched q hq (List.eq_nil_iff_forall_not_mem.mpr fun c' hc' => ?_)
    have hIn := (hMem c' q).mpr (.inl hc')
    rw [hNone] at hIn
    cases hIn
  · refine TopicManager.forall_setPublication (P := fun _ x => x.callbacks.Nodup) ?_ fun q _ => hObjects.nodup q
    exact (hObjects.nodup p).append (List.nodup_singleton _) (List.disjoint_singleton.mpr (hNowhere p))
  · obtain hOld | ⟨rfl, rfl⟩ := (hMem c' q).mp hq
    · obtain hOther | ⟨rfl, -⟩ := (hMem c' r).mp hr
      · exact hObjects.apart c' q r hOld hOther
      · exact absurd hOld (hNowhere q)
    · obtain hOther | ⟨-, rfl⟩ := (hMem c' r).mp hr
      · exact absurd hOther (hNowhere r)
      · rfl
  · obtain hc' | ⟨rfl, -⟩ := (hMem c' q).mp hc'
    · exact List.mem_cons_of_mem _ (hObjects.used c' q hc')
    · exact List.mem_cons_self
  · obtain hPair | hOld := List.mem_cons.mp hc'
    · cases hPair
      exact List.mem_cons_self
    · exact List.mem_cons_of_mem _ (hObjects.advertisedUsed c' topic hOld)
  · obtain hPair | hOld := List.mem_cons.mp hc'
    · cases hPair
      exact ⟨p, hp, hName p, (hMem c p).mpr (.inr ⟨rfl, rfl⟩)⟩
    · obtain ⟨q, hq, hTopic, hIn⟩ := hObjects.kept c' topic hOld hStays
      exact ⟨q, hq, (hName q).trans hTopic, (hMem c' q).mpr (.inl hIn)⟩
  · obtain hc' | ⟨rfl, -⟩ := (hMem c' q).mp hc'
    · exact hObjects.leaving q hq c' hc' hLeaves
    · exact absurd hLeaves hNotGone
  · rw [hName]
    obtain hc' | ⟨rfl, rfl⟩ := (hMem c' q).mp hc'
    · exact (hObjects.origin q hq c' hc').imp_left (List.mem_cons_of_mem _)
    · exact .inl List.mem_cons_self
  · have hStored : ∀ topic, (∃ q ∈ s.manager.advertisedTopics,
        ((s.manager.setPublication p ((s.manager.publication p).addCallbacks c)).publication q).name = topic) ↔
        s.Stored topic := fun topic => exists_congr fun q => and_congr_right fun _ => Eq.congr_left (hName q)
    refine ⟨h.lists.nodup, fun topic => ?_, fun topic => ?_⟩
    · exact (h.lists.names topic).trans (or_congr (and_congr (hStored topic).symm Iff.rfl) Iff.rfl)
    · simp only [State.Stored, hName] at hStored ⊢
      exact h.lists.told topic
  · have hPlaced := h.placed t
    cases hCall : s.calls t with
    | idle => trivial
    | naming topic c' | registering topic c' =>
      rw [hCall] at hPlaced
      obtain ⟨⟨q, hq, hTopic, hc'⟩, hStill, hOpen⟩ := hPlaced
      refine ⟨⟨q, hq, (hName q).trans hTopic, (hMem c' q).mpr (.inl hc')⟩, hStill, fun other hIn => ?_⟩
      obtain hPair | hOld := List.mem_cons.mp hIn
      · cases hPair
        exact hNowhere q hc'
      · exact hOpen other hOld
    | removing c' q it | testing q it =>
      rw [hCall] at hPlaced
      exact hPlaced
    | dropping q it =>
      rw [hCall] at hPlaced
      have hMutex := hPlaced.1
      rw [hFree] at hMutex
      cases hMutex
    | unnaming topic =>
      rw [hCall] at hPlaced
      exact ⟨hPlaced.1, fun ⟨q, hq, hTopic⟩ => hPlaced.2 ⟨q, hq, (hName q).symm.trans hTopic⟩⟩

theorem create (h : Inv s) {ops : Options} {buffer : Nat} (hIdle : s.calls thread = .idle) (hFree : s.mutex = none)
    (hNew : ops.callback ∉ s.used) (hNone : ¬ s.Stored ops.topic) :
    Inv { s.goto thread (.naming ops.topic ops.callback) with
      manager := { s.manager.setPublication s.next ⟨ops.topic, ops.md5sum, [ops.callback], [], false⟩ with
        advertisedTopics := s.manager.advertisedTopics ++ [s.next] }
      used := ops.callback :: s.used
      next := s.next + 1
      buffer := buffer } := by
  have hObjects := h.objects
  have hNowhere : ∀ q, ops.callback ∉ (s.manager.publication q).callbacks := fun q hc => hNew (hObjects.used _ q hc)
  have hNot {β : Type} {f : Call → Option β} {b : β} {call : Call} (hf : f .idle = none) :
      f (s.calls thread) = some b → f call = some b := by
    intro hWas
    rw [hIdle, hf] at hWas
    cases hWas
  have hSame : ∀ q ≠ s.next, (s.manager.setPublication s.next
      ⟨ops.topic, ops.md5sum, [ops.callback], [], false⟩).publication q = s.manager.publication q := fun q hq =>
    TopicManager.publication_setPublication_of_ne hq _
  have hThis : (s.manager.setPublication s.next ⟨ops.topic, ops.md5sum, [ops.callback], [], false⟩).publication s.next =
      ⟨ops.topic, ops.md5sum, [ops.callback], [], false⟩ := TopicManager.publication_setPublication ..
  have hOld : ∀ q ∈ s.manager.advertisedTopics, q ≠ s.next := fun q hq => Nat.ne_of_lt (hObjects.live q hq).1
  have hMem : ∀ c q, c ∈ ((s.manager.setPublication s.next
      ⟨ops.topic, ops.md5sum, [ops.callback], [], false⟩).publication q).callbacks ↔
      c ∈ (s.manager.publication q).callbacks ∨ c = ops.callback ∧ q = s.next := by
    intro c q
    obtain rfl | hNe := eq_or_ne q s.next
    · rw [hThis, hObjects.fresh _ (Nat.le_refl _)]
      simp
    · rw [hSame q hNe]
      simp [hNe]
  have hStored : ∀ topic, (∃ q ∈ s.manager.advertisedTopics ++ [s.next], ((s.manager.setPublication s.next
      ⟨ops.topic, ops.md5sum, [ops.callback], [], false⟩).publication q).name = topic) ↔
      s.Stored topic ∨ topic = ops.topic := by
    intro topic
    constructor
    · rintro ⟨q, hq, hTopic⟩
      obtain hq | hq := List.mem_append.mp hq
      · rw [hSame q (hOld q hq)] at hTopic
        exact .inl ⟨q, hq, hTopic⟩
      · rw [List.mem_singleton.mp hq, hThis] at hTopic
        exact .inr hTopic.symm
    · rintro (⟨q, hq, hTopic⟩ | rfl)
      · exact ⟨q, List.mem_append_left _ hq, by rw [hSame q (hOld q hq)]; exact hTopic⟩
      · exact ⟨s.next, List.mem_append_right _ List.mem_cons_self, by rw [hThis]⟩
  have hNotCreating : ∀ t c, (s.calls t).creating ≠ some (ops.topic, c) := by
    intro t c ht
    have hPlaced := h.placed t
    cases hCall : s.calls t with
    | naming topic c' | registering topic c' =>
      rw [hCall] at hPlaced ht
      cases ht
      obtain ⟨⟨q, hq, hTopic, -⟩, -⟩ := hPlaced
      exact hNone ⟨q, hq, hTopic⟩
    | _ =>
      rw [hCall] at ht
      cases ht
  have hNotDropping : ∀ t, (s.calls t).toDrop = none := by
    intro t
    have hPlaced := h.placed t
    cases hCall : s.calls t with
    | dropping q it =>
      rw [hCall] at hPlaced
      have hMutex := hPlaced.1
      rw [hFree] at hMutex
      cases hMutex
    | _ => rfl
  refine ⟨⟨?_, fun q hq => ?_, fun q hq => ?_, fun q hq hEmpty => ?_, ?_, fun c q r hq hr => ?_, fun c q hc => ?_,
    fun c topic hc => List.mem_cons_of_mem _ (hObjects.advertisedUsed c topic hc),
    fun c hc => List.mem_cons_of_mem _ (hObjects.unadvertisedUsed c hc), fun c topic hc hStays => ?_,
    fun q hq c hc hLeaves => ?_, fun q hq c hc => ?_⟩, ⟨h.lists.nodup, fun topic => ?_, fun topic => ?_⟩,
    fun t t' topic c c' ht ht' => ?_, ?_, h.defined⟩
  · refine List.pairwise_append.mpr ⟨?_, List.pairwise_singleton .., fun q hq r hr => ?_⟩
    · refine hObjects.names.imp_of_mem fun {q r} hq hr hNe => ?_
      rw [hSame q (hOld q hq), hSame r (hOld r hr)]
      exact hNe
    · rw [List.mem_singleton.mp hr, hSame q (hOld q hq), hThis]
      exact fun hTopic => hNone ⟨q, hq, hTopic⟩
  · obtain hq | hq := List.mem_append.mp hq
    · refine ⟨Nat.lt_succ_of_lt (hObjects.live q hq).1, ?_⟩
      rw [hSame q (hOld q hq)]
      exact (hObjects.live q hq).2
    · rw [List.mem_singleton.mp hq]
      exact ⟨Nat.lt_succ_self _, by rw [hThis]⟩
  · have hq : s.next + 1 ≤ q := hq
    rw [hSame q (by omega)]
    exact hObjects.fresh q (by omega)
  · obtain hq | hq := List.mem_append.mp hq
    · rw [hSame q (hOld q hq)] at hEmpty
      exact exists_update (hObjects.watched q hq hEmpty) (hNot rfl)
    · rw [List.mem_singleton.mp hq, hThis] at hEmpty
      cases hEmpty
  · exact TopicManager.forall_setPublication (P := fun _ x => x.callbacks.Nodup) (List.nodup_singleton _)
      fun q _ => hObjects.nodup q
  · obtain hBefore | ⟨rfl, rfl⟩ := (hMem c q).mp hq
    · obtain hOther | ⟨rfl, -⟩ := (hMem c r).mp hr
      · exact hObjects.apart c q r hBefore hOther
      · exact absurd hBefore (hNowhere q)
    · obtain hOther | ⟨-, hLast⟩ := (hMem _ r).mp hr
      · exact absurd hOther (hNowhere r)
      · exact hLast
  · obtain hc | ⟨rfl, -⟩ := (hMem c q).mp hc
    · exact List.mem_cons_of_mem _ (hObjects.used c q hc)
    · exact List.mem_cons_self
  · obtain ⟨q, hq, hTopic, hIn⟩ := hObjects.kept c topic hc hStays
    refine ⟨q, List.mem_append_left _ hq, ?_, (hMem c q).mpr (.inl hIn)⟩
    rw [hSame q (hOld q hq)]
    exact hTopic
  · obtain hc | ⟨rfl, -⟩ := (hMem c q).mp hc
    · obtain hq | hq := List.mem_append.mp hq
      · exact exists_update (hObjects.leaving q hq c hc hLeaves) (hNot rfl)
      · rw [List.mem_singleton.mp hq, hObjects.fresh _ (Nat.le_refl _)] at hc
        cases hc
    · exact absurd (hObjects.unadvertisedUsed _ hLeaves) hNew
  · obtain hq | hq := List.mem_append.mp hq
    · rw [hSame q (hOld q hq)] at hc ⊢
      exact (hObjects.origin q hq c hc).imp_right fun hCreating => exists_update hCreating (hNot rfl)
    · rw [List.mem_singleton.mp hq, hThis] at hc ⊢
      refine .inr (exists_update_self ?_)
      rw [List.mem_singleton.mp hc]
      rfl
  · have hToUnname : (∃ t, (Function.update s.calls thread (.naming ops.topic ops.callback) t).toUnname = some topic) ↔
        ∃ t, (s.calls t).toUnname = some topic := exists_update_iff (by rw [hIdle]; rfl)
    refine (h.lists.names topic).trans (or_congr ?_ hToUnname.symm)
    refine Iff.trans ?_ (and_congr (hStored topic).symm Iff.rfl)
    by_cases hTopic : topic = ops.topic
    · exact iff_of_false (fun hLeft => hNone (hTopic ▸ hLeft.1)) fun hRight =>
        hRight.2 (exists_update_self (congrArg some hTopic.symm))
    · have hToName : (∃ t, (Function.update s.calls thread (.naming ops.topic ops.callback) t).toName = some topic) ↔
          ∃ t, (s.calls t).toName = some topic :=
        exists_update_iff (iff_of_false (fun hSome => hTopic (Option.some.inj hSome).symm) (by rw [hIdle]; simp [Call.toName]))
      exact and_congr (or_iff_left hTopic).symm (not_congr hToName.symm)
  · refine (h.lists.told topic).trans (Iff.trans ?_ (and_congr (hStored topic).symm Iff.rfl))
    by_cases hTopic : topic = ops.topic
    · exact iff_of_false (fun hLeft => hNone (hTopic ▸ hLeft.1)) fun hRight => hRight.2.1
        (exists_update_self (f := fun call : Call => call.creating.map Prod.fst) (congrArg some hTopic.symm))
    · have hCreating : (∃ t, (Function.update s.calls thread (.naming ops.topic ops.callback) t).creating.map Prod.fst =
          some topic) ↔ ∃ t, (s.calls t).creating.map Prod.fst = some topic :=
        exists_update_iff (f := fun call : Call => call.creating.map Prod.fst)
          (iff_of_false (fun hSome => hTopic (Option.some.inj hSome).symm) (by simp only [hIdle]; simp [Call.creating]))
      refine and_congr (or_iff_left hTopic).symm (and_congr (not_congr hCreating.symm) (not_congr (iff_of_false ?_ ?_)))
      · rintro ⟨t, ht⟩
        rw [hNotDropping t] at ht
        cases ht
      · rintro ⟨t, ht⟩
        have hNow : (Function.update s.calls thread (.naming ops.topic ops.callback) t).toDrop = none :=
          forall_update (P := fun _ (call : Call) => call.toDrop = none) rfl (fun t _ => hNotDropping t) t
        have ht : (Function.update s.calls thread (.naming ops.topic ops.callback) t).toDrop.map _ = some topic := ht
        rw [hNow] at ht
        cases ht
  · have hOther : ∀ t, t ≠ thread → (Function.update s.calls thread (.naming ops.topic ops.callback) t).creating =
        (s.calls t).creating := fun t ht => by rw [Function.update_of_ne ht]
    have hThread : (Function.update s.calls thread (.naming ops.topic ops.callback) thread).creating =
        some (ops.topic, ops.callback) := by rw [Function.update_self]; rfl
    have ht : (Function.update s.calls thread (.naming ops.topic ops.callback) t).creating = some (topic, c) := ht
    have ht' : (Function.update s.calls thread (.naming ops.topic ops.callback) t').creating = some (topic, c') := ht'
    obtain rfl | hNe := eq_or_ne t thread
    · obtain rfl | hNe' := eq_or_ne t' t
      · rfl
      · rw [hThread] at ht
        cases ht
        exact absurd ((hOther t' hNe').symm.trans ht') (hNotCreating t' c')
    · obtain rfl | hNe' := eq_or_ne t' thread
      · rw [hThread] at ht'
        cases ht'
        exact absurd ((hOther t hNe).symm.trans ht) (hNotCreating t c)
      · exact h.creators t t' topic c c' ((hOther t hNe).symm.trans ht) ((hOther t' hNe').symm.trans ht')
  · refine h.placed_update ⟨Nat.le_succ _, fun _ hc => hc, fun t _ topic c _ hCreated => ?_, fun t _ hHolds => ?_⟩ rfl
      ⟨⟨s.next, List.mem_append_right _ List.mem_cons_self, ?_, ?_⟩, fun hc => ?_, fun other hc => ?_⟩
    · obtain ⟨⟨q, hq, hTopic, hc⟩, hStill⟩ := hCreated
      refine ⟨⟨q, List.mem_append_left _ hq, ?_, (hMem c q).mpr (.inl hc)⟩, hStill⟩
      rw [hSame q (hOld q hq)]
      exact hTopic
    · rw [hFree] at hHolds
      cases hHolds
    · rw [hThis]
    · rw [hThis]
      exact List.mem_cons_self
    · exact hNew (hObjects.unadvertisedUsed _ hc)
    · exact hNew (hObjects.advertisedUsed _ other hc)

theorem advertise (h : Inv s) {ops : Options} {reallocates : Bool} (hIdle : s.calls thread = .idle)
    (hFree : s.mutex = none) (hNew : ops.callback ∉ s.used)
    (hOk : ∀ p ∈ s.manager.lookupPublicationWithoutLock ops.topic, (s.manager.publication p).callbacks ≠ []) :
    Inv (s.advertise thread ops reallocates) := by
  rw [State.advertise, TopicManager.advertise]
  dsimp only
  cases hLookup : s.manager.lookupPublicationWithoutLock ops.topic with
  | some p =>
    have hSome := hOk p hLookup
    have hp := List.mem_of_find?_eq_some hLookup
    have hLive := List.find?_some hLookup
    simp only [Publication.isLive, Bool.and_eq_true, beq_iff_eq] at hLive
    have hFilter : (some p).filter (fun q => decide ((s.manager.publication q).callbacks ≠ [])) = some p := by
      rw [Option.filter_some, if_pos (by simpa using hSome)]
    rw [hFilter]
    dsimp only
    by_cases hMd5sum : (s.manager.publication p).md5sum = ops.md5sum
    · rw [if_neg (not_not.mpr hMd5sum), ← hLive.1]
      exact h.join hFree hp hNew
    · rw [if_pos hMd5sum]
      exact h.use ops.callback
  | none =>
    rw [Option.filter_none]
    refine h.create hIdle hFree hNew ?_
    rintro ⟨p, hp, hTopic⟩
    exact List.find?_eq_none.mp hLookup p hp (by simp [Publication.isLive, hTopic, (h.objects.live p hp).2])

theorem step (h : Inv s) {a : Label} {s' : State} (hOk : Undisturbed s a) (hStep : s.step a = some s') : Inv s' := by
  cases a with
  | advertise thread ops reallocates =>
    obtain ⟨hReady, rfl⟩ := of_guard hStep
    exact h.advertise hReady.1 hReady.2.1 hReady.2.2 hOk
  | pushName thread =>
    rw [State.step] at hStep
    split at hStep
    · cases hStep
      exact h.pushName ‹_›
    · cases hStep
  | registerPublisher thread =>
    rw [State.step] at hStep
    split at hStep
    · cases hStep
      exact h.registerPublisher ‹_›
    · cases hStep
  | unadvertise thread topic callbacks =>
    obtain ⟨hReady, rfl⟩ := of_guard hStep
    exact h.unadvertise hReady.1 hReady.2.2.1 hReady.2.2.2
  | removeCallbacks thread =>
    rw [State.step] at hStep
    split at hStep
    · cases hStep
      exact h.removeCallbacks ‹_›
    · cases hStep
  | getNumCallbacks thread =>
    rw [State.step] at hStep
    split at hStep
    · rename_i p it hCall
      split at hStep
      · cases hStep
        rw [Undisturbed, hCall] at hOk
        exact h.getNumCallbacks hCall ‹_› hOk
      · cases hStep
    · cases hStep
  | dropAndErase thread =>
    rw [State.step] at hStep
    split at hStep
    · cases hStep
      exact h.dropAndErase ‹_›
    · cases hStep
  | removeName thread =>
    rw [State.step] at hStep
    split at hStep
    · cases hStep
      exact h.removeName ‹_›
    · cases hStep

theorem start : Inv .start where
  objects := {
    names := List.Pairwise.nil
    live := fun p hp => by cases hp
    fresh := fun _ _ => rfl
    watched := fun p hp => by cases hp
    nodup := fun _ => List.nodup_nil
    apart := fun c p q hc => by cases hc
    used := fun c p hc => by cases hc
    advertisedUsed := fun c topic hc => by cases hc
    unadvertisedUsed := fun c hc => by cases hc
    kept := fun c topic hc => by cases hc
    leaving := fun p hp => by cases hp
    origin := fun p hp => by cases hp }
  lists := {
    nodup := List.nodup_nil
    names := fun topic => by simp [State.start, State.Stored, Call.toUnname]
    told := fun topic => by simp [State.start, State.Stored, State.lastSent] }
  creators t t' topic c c' ht := by cases ht
  placed _ := trivial
  defined := rfl

end Inv

/-- As long as `advertise` passes over no publication that has lost its callbacks, and `unadvertise` erases
its own, the table, the names and the master agree with what is advertised. -/
theorem advertised_consistent {s : State} (h : node.ReachableWhen Undisturbed s) (hIdle : ∀ t, s.calls t = .idle) :
    Consistent s :=
  (h.invariant Inv (fun s (hInit : s = State.start) => hInit ▸ Inv.start)
    fun _ _ _ hInv hOk hStep => hInv.step hOk hStep).consistent hIdle

/-! ## Two callbacks for one topic -/

def chatter (callbacks : Nat) : Options := ⟨bytes "/chatter", bytes "992ce8a1687cec8c8bd883ec73ca41d1", callbacks⟩

/-- The second `advertise` finds the publication without callbacks and passes over it. -/
def passedOver : List Label :=
  [.advertise 0 (chatter 0) true, .pushName 0, .registerPublisher 0, .unadvertise 0 (bytes "/chatter") 0,
    .removeCallbacks 0, .advertise 1 (chatter 1) false, .pushName 1, .registerPublisher 1, .getNumCallbacks 0,
    .dropAndErase 0, .removeName 0]

/-- The second `advertise` joins the publication before the first callbacks go. -/
def joined : List Label :=
  [.advertise 0 (chatter 0) true, .pushName 0, .registerPublisher 0, .unadvertise 0 (bytes "/chatter") 0,
    .advertise 1 (chatter 1) false, .removeCallbacks 0, .getNumCallbacks 0,
    .advertise 0 ⟨bytes "/rosout", bytes "acffd30cd6b6de30f120938c17c593fb", 2⟩ true, .pushName 0, .registerPublisher 0,
    .unadvertise 0 (bytes "/rosout") 2, .removeCallbacks 0, .getNumCallbacks 0, .dropAndErase 0, .removeName 0]

theorem names_lost :
    ∃ s, node.Reachable s ∧ (∀ t, s.calls t = .idle) ∧ (1, bytes "/chatter") ∈ s.advertised ∧ 1 ∉ s.unadvertised ∧
      s.manager.advertisedTopics = [1] ∧ s.manager.advertisedTopicNames = [] ∧
      s.lastSent (bytes "/chatter") = some false ∧ ¬ Consistent s := by
  refine ⟨_, Machine.Reachable.run (.init rfl) (rfl : node.run .start passedOver = some _), fun t => ?_, by decide,
    by decide, rfl, rfl, by decide, fun h => ?_⟩
  · obtain _ | _ | t := t <;> rfl
  · have hIn := (h.names.2 (bytes "/chatter")).mpr ⟨1, by decide, by decide⟩
    cases hIn

theorem advertised_consistent_joined :
    ∃ s, node.runWhen Undisturbed .start joined = some s ∧ s.manager.advertisedTopics = [0] ∧ Consistent s := by
  refine ⟨_, rfl, rfl, advertised_consistent (Machine.ReachableWhen.runWhen (.init rfl)
    (rfl : node.runWhen Undisturbed .start joined = some _)) fun t => ?_⟩
  obtain _ | _ | t := t <;> rfl

end XcRos.Libros.AdvertisedTopics
