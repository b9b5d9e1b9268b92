import Mathlib.Data.List.Nodup
import XcRos.Foundation.Machine

/-! # Latched publications

`Publication::publish`, `processPublishQueue` with its `enqueueMessage`, and `addSubscriberLink`, interleaved at their
critical sections and, where a loop holds `subscriber_links_mutex_`, at every link. Messages are numbered in the order
in which they are published; calls of `publish` follow one another, and so do those of `processPublishQueue`, since
`TopicManager` makes both under `advertised_topics_mutex_`.
-/

namespace XcRos.Libros.Publication

open XcRos.Foundation

/-- One call of `SubscriberLink::enqueueMessage`. -/
structure Handed where
  message : Nat
  ser : Bool
  nocopy : Bool
deriving DecidableEq, Repr

/-- Where the call of `addSubscriberLink` for a link is. -/
inductive Adding where
  | inserted
  | latching
  | done
deriving DecidableEq, Repr

structure SubscriberLink where
  intraprocess : Bool
  adding : Adding
  handed : List Handed
deriving DecidableEq, Repr

/-- A loop over the links that is in progress, with those that it has not come to yet. It holds
`subscriber_links_mutex_`. -/
inductive Sweep where
  | publish (message : Nat) (links : List Nat)
  | enqueueMessage (message : Nat) (links : List Nat)
deriving DecidableEq, Repr

/-- A link is its place in `links`, which has all links ever added. `publishing` is the message of a call of
`publish` in progress, with whether it has a buffer, and `queue` the local queue of `processPublishQueue`. -/
structure State where
  links : List SubscriberLink
  subscriberLinks : List Nat
  sweep : Option Sweep
  publishing : Option (Nat × Bool)
  publishQueue : List Nat
  queue : List Nat
  lastMessage : Option Nat
  dropped : Bool
  published : Nat
deriving DecidableEq, Repr

inductive Label where
  | publish (message buf : Bool)
  | push
  | processPublishQueue
  | enqueueMessage
  | visit
  | leave
  | addSubscriberLink (intraprocess : Bool)
  | checkLatched (link : Nat)
  | sendLatched (link : Nat)
  | removeSubscriberLink (link : Nat)
  | drop
  | dropAllConnections
deriving DecidableEq, Repr

namespace State

def start : State where
  links := []
  subscriberLinks := []
  sweep := none
  publishing := none
  publishQueue := []
  queue := []
  lastMessage := none
  dropped := false
  published := 0

/-- `subscriber_links_mutex_` is free. -/
def free (s : State) : Bool := s.sweep.isNone

def setLink (s : State) (link : Nat) (f : SubscriberLink → SubscriberLink) : State :=
  { s with links := s.links.modify link f }

end State

namespace SubscriberLink

def hand (entry : Handed) (link : SubscriberLink) : SubscriberLink := { link with handed := link.handed ++ [entry] }

/-- `publish` hands the message itself to the links inside the process. -/
def handMessage (message : Nat) (link : SubscriberLink) : SubscriberLink :=
  if link.intraprocess then link.hand ⟨message, false, true⟩ else link

def serialized (link : SubscriberLink) : List Nat := (link.handed.filter Handed.ser).map Handed.message

def uncopied (link : SubscriberLink) : List Nat := (link.handed.filter Handed.nocopy).map Handed.message

end SubscriberLink

namespace State

def step (latch : Bool) (s : State) : Label → Option State
  | .publish message buf =>
    if s.publishing = none then
      let s' := { s with publishing := some (s.published, buf), published := s.published + 1 }
      if message then
        if s.free then some { s' with sweep := some (.publish s.published s.subscriberLinks) } else none
      else some s'
    else none
  | .push =>
    match s.publishing, s.sweep with
    | some _, some (.publish ..) => none
    | some (message, buf), _ =>
      some { s with
        publishing := none
        publishQueue := if buf then s.publishQueue ++ [message] else s.publishQueue }
    | none, _ => none
  | .processPublishQueue =>
    match s.queue, s.sweep with
    | [], some (.enqueueMessage ..) => none
    | [], _ => some (if s.dropped then s else { s with queue := s.publishQueue, publishQueue := [] })
    | _ :: _, _ => none
  | .enqueueMessage =>
    match s.queue with
    | message :: queue =>
      if s.free then
        if s.dropped then some { s with queue := queue }
        else some { s with queue := queue, sweep := some (.enqueueMessage message s.subscriberLinks) }
      else none
    | [] => none
  | .visit =>
    match s.sweep with
    | some (.publish message (link :: links)) =>
      some ({ s with sweep := some (.publish message links) }.setLink link (SubscriberLink.handMessage message))
    | some (.enqueueMessage message (link :: links)) =>
      some ({ s with sweep := some (.enqueueMessage message links) }.setLink link
        (SubscriberLink.hand ⟨message, true, false⟩))
    | _ => none
  | .leave =>
    match s.sweep with
    | some (.publish _ []) => some { s with sweep := none }
    | some (.enqueueMessage message []) =>
      some { s with sweep := none, lastMessage := if latch then some message else s.lastMessage }
    | _ => none
  | .addSubscriberLink intraprocess =>
    if s.free then
      some (if s.dropped then s
        else { s with
          links := s.links ++ [⟨intraprocess, .inserted, []⟩]
          subscriberLinks := s.subscriberLinks ++ [s.links.length] })
    else none
  | .checkLatched link =>
    -- The check and the sending are made without the lock.
    if s.links[link]?.any fun l => l.adding = .inserted then
      some (s.setLink link fun l =>
        { l with adding := if latch && s.lastMessage.isSome then .latching else .done })
    else none
  | .sendLatched link =>
    if s.links[link]?.any fun l => l.adding = .latching then
      s.lastMessage.map fun message =>
        s.setLink link fun l => { l.hand ⟨message, true, true⟩ with adding := .done }
    else none
  | .removeSubscriberLink link =>
    if s.free then
      some (if s.dropped then s else { s with subscriberLinks := s.subscriberLinks.erase link })
    else none
  | .drop => if s.free then some { s with dropped := true } else none
  | .dropAllConnections => if s.free && s.dropped then some { s with subscriberLinks := [] } else none

end State

def system (latch : Bool) : Machine State Label where
  Init s := s = .start
  step := State.step latch

/-! ## The property, and when it holds -/

/-- No message twice, and no older one after a newer one: in each of the two forms, and altogether for a link to
another process. -/
structure InOrder (link : SubscriberLink) : Prop where
  serialized : link.serialized.Pairwise (· < ·)
  uncopied : link.uncopied.Pairwise (· < ·)
  transport : link.intraprocess = false → (link.handed.map Handed.message).Pairwise (· < ·)

/-- The latched message goes only to a link that has been handed nothing since it was inserted. -/
def first (s : State) : Label → Bool
  | .sendLatched link => s.links[link]?.all fun l => l.handed.isEmpty
  | _ => true

abbrev First (s : State) (a : Label) : Prop := first s a = true

/-! ## The invariant -/

/-- The messages that are still to be enqueued, in their order, and the next one to be published. -/
def State.coming (s : State) : List Nat :=
  s.queue ++ (s.publishQueue ++ ((s.publishing.map Prod.fst).toList ++ [s.published]))

structure LinkInv (s : State) (id : Nat) (link : SubscriberLink) : Prop where
  serialized : link.serialized.Pairwise (· < ·)
  uncopied : link.uncopied.Pairwise (· < ·)
  transport : link.intraprocess = false → ∀ e ∈ link.handed, e.ser = true
  old : ∀ m ∈ link.serialized, ∀ next ∈ s.coming, m < next
  enqueuing : ∀ message links, s.sweep = some (.enqueueMessage message links) → id ∈ links →
    ∀ m ∈ link.serialized, m < message
  oldUncopied : ∀ m ∈ link.uncopied, m < s.published
  publishing : ∀ message links, s.sweep = some (.publish message links) → id ∈ links →
    ∀ m ∈ link.uncopied, m < message

structure Inv (s : State) : Prop where
  coming : s.coming.Pairwise (· < ·)
  nodup : s.subscriberLinks.Nodup
  known : ∀ id ∈ s.subscriberLinks, id < s.links.length
  sweepNodup : ∀ message links, s.sweep = some (.enqueueMessage message links) ∨
    s.sweep = some (.publish message links) → links.Nodup
  enqueuing : ∀ message links, s.sweep = some (.enqueueMessage message links) → ∀ next ∈ s.coming, message < next
  publishing : ∀ message links, s.sweep = some (.publish message links) →
    message ∈ s.coming ∧ message < s.published
  last : ∀ m, s.lastMessage = some m → (∀ next ∈ s.coming, m < next) ∧
    ∀ message links, s.sweep = some (.enqueueMessage message links) → m < message
  links : ∀ id link, s.links[id]? = some link → LinkInv s id link

theorem published_mem_coming (s : State) : s.published ∈ s.coming := by
  simp [State.coming]

theorem Inv.le_published {s : State} (h : Inv s) {m : Nat} (hm : m ∈ s.coming) : m ≤ s.published := by
  have hSplit : s.coming = (s.queue ++ (s.publishQueue ++ (s.publishing.map Prod.fst).toList)) ++ [s.published] := by
    simp [State.coming]
  have hPairwise := h.coming
  rw [hSplit] at hm hPairwise
  obtain hOld | hLast := List.mem_append.mp hm
  · exact Nat.le_of_lt ((List.pairwise_append.mp hPairwise).2.2 m hOld _ List.mem_cons_self)
  · exact Nat.le_of_eq (List.mem_singleton.mp hLast)

structure Leads (s s' : State) : Prop where
  coming : ∀ next ∈ s'.coming, ∃ y ∈ s.coming, y ≤ next
  published : s.published ≤ s'.published
  enqueuing : ∀ message links, s'.sweep = some (.enqueueMessage message links) →
    (∃ links', s.sweep = some (.enqueueMessage message links') ∧ links ⊆ links') ∨ message ∈ s.coming
  publishing : ∀ message links, s'.sweep = some (.publish message links) →
    (∃ links', s.sweep = some (.publish message links') ∧ links ⊆ links') ∨ message = s.published

theorem LinkInv.mono {s s' : State} {id : Nat} {link : SubscriberLink} (h : LinkInv s id link) (hLeads : Leads s s') :
    LinkInv s' id link where
  serialized := h.serialized
  uncopied := h.uncopied
  transport := h.transport
  old m hm next hNext := by
    obtain ⟨y, hy, hLe⟩ := hLeads.coming next hNext
    exact Nat.lt_of_lt_of_le (h.old m hm y hy) hLe
  enqueuing message links hSweep hMem m hm := by
    obtain ⟨links', hOld, hSubset⟩ | hComing := hLeads.enqueuing message links hSweep
    · exact h.enqueuing message links' hOld (hSubset hMem) m hm
    · exact h.old m hm message hComing
  oldUncopied m hm := Nat.lt_of_lt_of_le (h.oldUncopied m hm) hLeads.published
  publishing message links hSweep hMem m hm := by
    obtain ⟨links', hOld, hSubset⟩ | hNew := hLeads.publishing message links hSweep
    · exact h.publishing message links' hOld (hSubset hMem) m hm
    · rw [hNew]
      exact h.oldUncopied m hm

theorem Inv.advance {s s' : State} (h : Inv s) (hComing : s'.coming.Sublist s.coming)
    (hPublished : s'.published = s.published) (hSweep : s'.sweep = s.sweep)
    (hPublishing : ∀ message links, s.sweep = some (.publish message links) → message ∈ s'.coming)
    (hLinks : s'.links = s.links) (hSubscribers : s'.subscriberLinks.Sublist s.subscriberLinks)
    (hLast : s'.lastMessage = s.lastMessage) : Inv s' where
  coming := h.coming.sublist hComing
  nodup := h.nodup.sublist hSubscribers
  known id hId := hLinks ▸ h.known id (hSubscribers.subset hId)
  sweepNodup message links hSome := h.sweepNodup message links (hSweep ▸ hSome)
  enqueuing message links hSome next hNext :=
    h.enqueuing message links (hSweep ▸ hSome) next (hComing.subset hNext)
  publishing message links hSome :=
    ⟨hPublishing message links (hSweep ▸ hSome), hPublished ▸ (h.publishing message links (hSweep ▸ hSome)).2⟩
  last m hm := by
    obtain ⟨hNext, hEnqueuing⟩ := h.last m (hLast ▸ hm)
    exact ⟨fun next hMem => hNext next (hComing.subset hMem),
      fun message links hSome => hEnqueuing message links (hSweep ▸ hSome)⟩
  links id link hLink := by
    refine (h.links id link (hLinks ▸ hLink)).mono ⟨fun next hNext => ?_, Nat.le_of_eq hPublished.symm, ?_, ?_⟩
    · exact ⟨next, hComing.subset hNext, Nat.le_refl next⟩
    · exact fun message links hSome => .inl ⟨links, hSweep ▸ hSome, List.Subset.refl links⟩
    · exact fun message links hSome => .inl ⟨links, hSweep ▸ hSome, List.Subset.refl links⟩

theorem Inv.setLink {s : State} (h : Inv s) (id : Nat) (f : SubscriberLink → SubscriberLink)
    (hLink : ∀ link, s.links[id]? = some link → LinkInv s id (f link)) : Inv (s.setLink id f) where
  coming := h.coming
  nodup := h.nodup
  known i hi := by
    rw [State.setLink, List.length_modify]
    exact h.known i hi
  sweepNodup := h.sweepNodup
  enqueuing := h.enqueuing
  publishing := h.publishing
  last := h.last
  links i link hNew := by
    rw [State.setLink, List.getElem?_modify] at hNew
    obtain ⟨old, hOld, rfl⟩ := Option.map_eq_some_iff.mp hNew
    have hInv : LinkInv s i ((if id = i then f else fun l => l) old) := by
      split
      · rename_i hHere
        subst hHere
        exact hLink old hOld
      · exact h.links i old hOld
    have hSame : (if id = i then f else fun l => l) old = if id = i then f old else old := by
      split <;> rfl
    rw [hSame] at hInv
    exact ⟨hInv.serialized, hInv.uncopied, hInv.transport, hInv.old, hInv.enqueuing, hInv.oldUncopied,
      hInv.publishing⟩

/-! ## The steps -/

section Steps

variable {s s' : State}

theorem inv_publish {message buf latch : Bool} (h : Inv s) (hStep : s.step latch (.publish message buf) = some s') :
    Inv s' := by
  simp only [State.step] at hStep
  split at hStep
  · rename_i hIdle
    have hComing (sweep : Option Sweep) : State.coming { s with
        publishing := some (s.published, buf), published := s.published + 1, sweep := sweep } =
        s.coming ++ [s.published + 1] := by
      simp [State.coming, hIdle]
    have hNext : (s.coming ++ [s.published + 1]).Pairwise (· < ·) :=
      List.pairwise_append.mpr ⟨h.coming, List.pairwise_singleton _ _, fun m hm next hMem =>
        List.mem_singleton.mp hMem ▸ Nat.lt_succ_of_le (h.le_published hm)⟩
    have hLess {m : Nat} (hm : ∀ next ∈ s.coming, m < next) (next : Nat) (hMem : next ∈ s.coming ++ [s.published + 1]) :
        m < next := by
      obtain hOld | hNew := List.mem_append.mp hMem
      · exact hm next hOld
      · rw [List.mem_singleton.mp hNew]
        exact Nat.lt_succ_of_lt (hm _ (published_mem_coming s))
    have hCases (sweep : Option Sweep) (hSweep : sweep = s.sweep ∨
        s.sweep = none ∧ sweep = some (.publish s.published s.subscriberLinks)) :
        Inv { s with publishing := some (s.published, buf), published := s.published + 1, sweep := sweep } := by
      have hEnqueue {m : Nat} {links : List Nat} (hSome : sweep = some (.enqueueMessage m links)) :
          s.sweep = some (.enqueueMessage m links) := by
        obtain rfl | ⟨-, rfl⟩ := hSweep
        · exact hSome
        · cases hSome
      have hPublish {m : Nat} {links : List Nat} (hSome : sweep = some (.publish m links)) :
          s.sweep = some (.publish m links) ∨ m = s.published ∧ links = s.subscriberLinks := by
        obtain rfl | ⟨-, rfl⟩ := hSweep
        · exact .inl hSome
        · cases hSome
          exact .inr ⟨rfl, rfl⟩
      constructor
      · rw [hComing]
        exact hNext
      · exact h.nodup
      · exact h.known
      · rintro m links (hSome | hSome)
        · exact h.sweepNodup m links (.inl (hEnqueue hSome))
        · obtain hOld | ⟨-, rfl⟩ := hPublish hSome
          · exact h.sweepNodup m links (.inr hOld)
          · exact h.nodup
      · intro m links hSome
        rw [hComing]
        exact hLess (h.enqueuing m links (hEnqueue hSome))
      · intro m links hSome
        rw [hComing]
        obtain hOld | ⟨rfl, -⟩ := hPublish hSome
        · exact ⟨List.mem_append_left _ (h.publishing m links hOld).1,
            Nat.lt_succ_of_lt (h.publishing m links hOld).2⟩
        · exact ⟨List.mem_append_left _ (published_mem_coming s), Nat.lt_succ_self _⟩
      · intro m hm
        rw [hComing]
        exact ⟨hLess (h.last m hm).1, fun message links hSome => (h.last m hm).2 message links (hEnqueue hSome)⟩
      · intro id link hLink
        refine (h.links id link hLink).mono ⟨?_, Nat.le_succ _, ?_, ?_⟩
        · rw [hComing]
          intro next hMem
          obtain hOld | hNew := List.mem_append.mp hMem
          · exact ⟨next, hOld, Nat.le_refl next⟩
          · rw [List.mem_singleton.mp hNew]
            exact ⟨s.published, published_mem_coming s, Nat.le_succ _⟩
        · exact fun m links hSome => .inl ⟨links, hEnqueue hSome, List.Subset.refl links⟩
        · intro m links hSome
          obtain hOld | ⟨hNew, -⟩ := hPublish hSome
          · exact .inl ⟨links, hOld, List.Subset.refl links⟩
          · exact .inr hNew
    split at hStep
    · split at hStep
      · cases hStep
        exact hCases _ (.inr ⟨Option.isNone_iff_eq_none.mp ‹_›, rfl⟩)
      · cases hStep
    · cases hStep
      exact hCases _ (.inl rfl)
  · cases hStep

theorem inv_push {latch : Bool} (h : Inv s) (hStep : s.step latch .push = some s') : Inv s' := by
  simp only [State.step] at hStep
  split at hStep
  · cases hStep
  · rename_i message buf hPublishing hSweep
    cases hStep
    refine h.advance ?_ rfl rfl (fun m links hSome => absurd hSome (hSweep m links)) rfl (List.Sublist.refl _) rfl
    cases buf with
    | true => simp [State.coming, hPublishing]
    | false =>
      simp only [State.coming, hPublishing, Bool.false_eq_true, ↓reduceIte, Option.map_none, Option.toList_none,
        List.nil_append, Option.map_some, Option.toList_some]
      exact ((List.sublist_append_right [message] [s.published]).append_left _).append_left _
  · cases hStep

theorem inv_processPublishQueue {latch : Bool} (h : Inv s) (hStep : s.step latch .processPublishQueue = some s') :
    Inv s' := by
  simp only [State.step] at hStep
  split at hStep
  · cases hStep
  · rename_i hQueue hSweep
    cases hStep
    split
    · exact h
    · have hComing : State.coming { s with queue := s.publishQueue, publishQueue := [] } = s.coming := by
        simp [State.coming, hQueue]
      refine h.advance ?_ rfl rfl (fun m links hSome => ?_) rfl (List.Sublist.refl _) rfl
      · rw [hComing]
      · rw [hComing]
        exact (h.publishing m links hSome).1
  · cases hStep

theorem inv_enqueueMessage {latch : Bool} (h : Inv s) (hStep : s.step latch .enqueueMessage = some s') : Inv s' := by
  simp only [State.step] at hStep
  split at hStep
  · rename_i message queue hQueue
    split at hStep
    · rename_i hFree
      have hNone : s.sweep = none := Option.isNone_iff_eq_none.mp hFree
      have hComing : s.coming =
          message :: (queue ++ (s.publishQueue ++ ((s.publishing.map Prod.fst).toList ++ [s.published]))) := by
        rw [State.coming, hQueue, List.cons_append]
      have hAdvanced : Inv { s with queue := queue } := by
        refine h.advance ?_ rfl rfl (fun m links hSome => ?_) rfl (List.Sublist.refl _) rfl
        · rw [hComing]
          exact List.sublist_cons_self _ _
        · rw [hNone] at hSome
          cases hSome
      split at hStep
      · cases hStep
        exact hAdvanced
      · cases hStep
        have hPairwise := h.coming
        rw [hComing] at hPairwise
        refine ⟨hAdvanced.coming, h.nodup, h.known, ?_, ?_, ?_, ?_, ?_⟩
        · rintro m links (hSome | hSome)
          · cases hSome
            exact h.nodup
          · cases hSome
        · intro m links hSome
          cases hSome
          exact (List.pairwise_cons.mp hPairwise).1
        · intro m links hSome
          cases hSome
        · intro m hm
          refine ⟨(hAdvanced.last m hm).1, fun _ links hSome => ?_⟩
          cases hSome
          exact (h.last m hm).1 message (hComing ▸ List.mem_cons_self)
        · intro id link hLink
          refine (h.links id link hLink).mono ⟨?_, Nat.le_refl _, ?_, ?_⟩
          · intro next hNext
            exact ⟨next, hComing ▸ List.mem_cons_of_mem message hNext, Nat.le_refl next⟩
          · intro m links hSome
            cases hSome
            exact .inr (hComing ▸ List.mem_cons_self)
          · intro m links hSome
            cases hSome
    · cases hStep
  · cases hStep

theorem inv_next {sweep : Sweep} (h : Inv s) (hNodup : ∀ message links, sweep = .enqueueMessage message links ∨
      sweep = .publish message links → links.Nodup)
    (hEnqueue : ∀ message links, sweep = .enqueueMessage message links →
      ∃ links', s.sweep = some (.enqueueMessage message links') ∧ links ⊆ links')
    (hPublish : ∀ message links, sweep = .publish message links →
      ∃ links', s.sweep = some (.publish message links') ∧ links ⊆ links') : Inv { s with sweep := some sweep } where
  coming := h.coming
  nodup := h.nodup
  known := h.known
  sweepNodup message links hSome := hNodup message links (hSome.imp Option.some.inj Option.some.inj)
  enqueuing message links hSome := by
    obtain ⟨links', hOld, -⟩ := hEnqueue message links (Option.some.inj hSome)
    exact h.enqueuing message links' hOld
  publishing message links hSome := by
    obtain ⟨links', hOld, -⟩ := hPublish message links (Option.some.inj hSome)
    exact h.publishing message links' hOld
  last m hm := by
    refine ⟨(h.last m hm).1, fun message links hSome => ?_⟩
    obtain ⟨links', hOld, -⟩ := hEnqueue message links (Option.some.inj hSome)
    exact (h.last m hm).2 message links' hOld
  links id link hLink := (h.links id link hLink).mono
    ⟨fun next hNext => ⟨next, hNext, Nat.le_refl next⟩, Nat.le_refl _,
      fun message links hSome => .inl (hEnqueue message links (Option.some.inj hSome)),
      fun message links hSome => .inl (hPublish message links (Option.some.inj hSome))⟩

theorem serialized_hand (link : SubscriberLink) (e : Handed) :
    (link.hand e).serialized = link.serialized ++ if e.ser then [e.message] else [] := by
  rw [SubscriberLink.serialized, SubscriberLink.hand, List.filter_append, List.map_append, SubscriberLink.serialized]
  cases hSer : e.ser <;> simp [hSer]

theorem uncopied_hand (link : SubscriberLink) (e : Handed) :
    (link.hand e).uncopied = link.uncopied ++ if e.nocopy then [e.message] else [] := by
  rw [SubscriberLink.uncopied, SubscriberLink.hand, List.filter_append, List.map_append, SubscriberLink.uncopied]
  cases hNocopy : e.nocopy <;> simp [hNocopy]

theorem pairwise_append_last {l : List Nat} {m : Nat} (h : l.Pairwise (· < ·)) (hLess : ∀ x ∈ l, x < m) :
    (l ++ [m]).Pairwise (· < ·) :=
  List.pairwise_append.mpr ⟨h, List.pairwise_singleton _ m, fun x hx _ hy => List.mem_singleton.mp hy ▸ hLess x hx⟩

theorem linkInv_enqueue {id message : Nat} {links : List Nat} {link : SubscriberLink} (h : Inv s)
    (hSweep : s.sweep = some (.enqueueMessage message (id :: links))) (hLink : LinkInv s id link) :
    LinkInv { s with sweep := some (.enqueueMessage message links) } id (link.hand ⟨message, true, false⟩) := by
  have hOld := hLink.enqueuing message (id :: links) hSweep List.mem_cons_self
  have hSerialized : (link.hand ⟨message, true, false⟩).serialized = link.serialized ++ [message] :=
    serialized_hand link _
  have hUncopied : (link.hand ⟨message, true, false⟩).uncopied = link.uncopied :=
    (uncopied_hand link _).trans (List.append_nil _)
  refine ⟨?_, ?_, ?_, ?_, ?_, ?_, ?_⟩
  · rw [hSerialized]
    exact pairwise_append_last hLink.serialized hOld
  · rw [hUncopied]
    exact hLink.uncopied
  · intro hTransport e he
    obtain hBefore | hNew := List.mem_append.mp he
    · exact hLink.transport hTransport e hBefore
    · rw [List.mem_singleton.mp hNew]
  · intro m hm next hNext
    rw [hSerialized] at hm
    obtain hBefore | hNew := List.mem_append.mp hm
    · exact hLink.old m hBefore next hNext
    · rw [List.mem_singleton.mp hNew]
      exact h.enqueuing message (id :: links) hSweep next hNext
  · intro _ _ hSome hMem
    cases hSome
    have hNodup := h.sweepNodup message (id :: links) (.inl hSweep)
    exact absurd hMem (List.nodup_cons.mp hNodup).1
  · rw [hUncopied]
    exact hLink.oldUncopied
  · intro _ _ hSome
    cases hSome

theorem linkInv_publish {id message : Nat} {links : List Nat} {link : SubscriberLink} (h : Inv s)
    (hSweep : s.sweep = some (.publish message (id :: links))) (hLink : LinkInv s id link) :
    LinkInv { s with sweep := some (.publish message links) } id (link.handMessage message) := by
  have hNodup := h.sweepNodup message (id :: links) (.inr hSweep)
  have hOld := hLink.publishing message (id :: links) hSweep List.mem_cons_self
  rw [SubscriberLink.handMessage]
  split
  · rename_i hIntraprocess
    have hSerialized : (link.hand ⟨message, false, true⟩).serialized = link.serialized :=
      (serialized_hand link _).trans (List.append_nil _)
    have hUncopied : (link.hand ⟨message, false, true⟩).uncopied = link.uncopied ++ [message] :=
      uncopied_hand link _
    refine ⟨?_, ?_, ?_, ?_, ?_, ?_, ?_⟩
    · rw [hSerialized]
      exact hLink.serialized
    · rw [hUncopied]
      exact pairwise_append_last hLink.uncopied hOld
    · intro hTransport
      rw [SubscriberLink.hand, hIntraprocess] at hTransport
      cases hTransport
    · rw [hSerialized]
      exact hLink.old
    · intro _ _ hSome
      cases hSome
    · intro m hm
      rw [hUncopied] at hm
      obtain hBefore | hNew := List.mem_append.mp hm
      · exact hLink.oldUncopied m hBefore
      · rw [List.mem_singleton.mp hNew]
        exact (h.publishing message (id :: links) hSweep).2
    · intro _ _ hSome hMem
      cases hSome
      exact absurd hMem (List.nodup_cons.mp hNodup).1
  · refine ⟨hLink.serialized, hLink.uncopied, hLink.transport, hLink.old, ?_, hLink.oldUncopied, ?_⟩
    · intro _ _ hSome
      cases hSome
    · intro _ _ hSome hMem
      cases hSome
      exact absurd hMem (List.nodup_cons.mp hNodup).1

theorem inv_visit {latch : Bool} (h : Inv s) (hStep : s.step latch .visit = some s') : Inv s' := by
  simp only [State.step] at hStep
  split at hStep
  · rename_i message id links hSweep
    cases hStep
    have hNext : Inv { s with sweep := some (.publish message links) } := by
      refine inv_next h (fun _ _ hSome => ?_) (fun _ _ hSome => ?_) fun _ _ hSome => ?_
      · obtain hOther | hSame := hSome
        · cases hOther
        · cases hSame
          exact (List.nodup_cons.mp (h.sweepNodup message (id :: links) (.inr hSweep))).2
      · cases hSome
      · cases hSome
        exact ⟨id :: links, hSweep, List.subset_cons_self _ _⟩
    exact hNext.setLink id _ fun link hLink => linkInv_publish h hSweep (h.links id link hLink)
  · rename_i message id links hSweep
    cases hStep
    have hNext : Inv { s with sweep := some (.enqueueMessage message links) } := by
      refine inv_next h (fun _ _ hSome => ?_) (fun _ _ hSome => ?_) fun _ _ hSome => ?_
      · obtain hSame | hOther := hSome
        · cases hSame
          exact (List.nodup_cons.mp (h.sweepNodup message (id :: links) (.inl hSweep))).2
        · cases hOther
      · cases hSome
        exact ⟨id :: links, hSweep, List.subset_cons_self _ _⟩
      · cases hSome
    exact hNext.setLink id _ fun link hLink => linkInv_enqueue h hSweep (h.links id link hLink)
  · cases hStep

theorem inv_end {lastMessage : Option Nat} (h : Inv s)
    (hLast : lastMessage = s.lastMessage ∨ ∃ message links, s.sweep = some (.enqueueMessage message links) ∧
      lastMessage = some message) : Inv { s with sweep := none, lastMessage := lastMessage } where
  coming := h.coming
  nodup := h.nodup
  known := h.known
  sweepNodup _ _ hSome := by
    obtain hSome | hSome := hSome <;> cases hSome
  enqueuing _ _ hSome := by cases hSome
  publishing _ _ hSome := by cases hSome
  last m hm := by
    refine ⟨?_, fun _ _ hSome => by cases hSome⟩
    obtain rfl | ⟨message, links, hSweep, rfl⟩ := hLast
    · exact (h.last m hm).1
    · cases hm
      exact h.enqueuing m links hSweep
  links id link hLink := (h.links id link hLink).mono
    ⟨fun next hNext => ⟨next, hNext, Nat.le_refl next⟩, Nat.le_refl _, (fun _ _ hSome => by cases hSome),
      (fun _ _ hSome => by cases hSome)⟩

theorem inv_leave {latch : Bool} (h : Inv s) (hStep : s.step latch .leave = some s') : Inv s' := by
  simp only [State.step] at hStep
  split at hStep
  · cases hStep
    exact inv_end h (.inl rfl)
  · rename_i message hSweep
    cases hStep
    cases latch with
    | true => exact inv_end h (.inr ⟨message, [], hSweep, rfl⟩)
    | false => exact inv_end h (.inl rfl)
  · cases hStep

theorem inv_addSubscriberLink {latch intraprocess : Bool} (h : Inv s)
    (hStep : s.step latch (.addSubscriberLink intraprocess) = some s') : Inv s' := by
  simp only [State.step] at hStep
  split at hStep
  · rename_i hFree
    have hNone : s.sweep = none := Option.isNone_iff_eq_none.mp hFree
    cases hStep
    split
    · exact h
    · have hFresh : s.links.length ∉ s.subscriberLinks := fun hMem => Nat.lt_irrefl _ (h.known _ hMem)
      refine ⟨h.coming, ?_, ?_, h.sweepNodup, h.enqueuing, h.publishing, h.last, ?_⟩
      · exact List.nodup_append.mpr ⟨h.nodup, List.nodup_singleton _, fun a ha b hb hEq =>
          hFresh (List.mem_singleton.mp hb ▸ hEq ▸ ha)⟩
      · intro id hId
        rw [List.length_append]
        obtain hOld | hNew := List.mem_append.mp hId
        · exact Nat.lt_succ_of_lt (h.known id hOld)
        · rw [List.mem_singleton.mp hNew]
          exact Nat.lt_succ_self _
      · intro id link hLink
        have hKeep {link : SubscriberLink} (hInv : LinkInv s id link) : LinkInv { s with
            links := s.links ++ [⟨intraprocess, .inserted, []⟩]
            subscriberLinks := s.subscriberLinks ++ [s.links.length] } id link :=
          ⟨hInv.serialized, hInv.uncopied, hInv.transport, hInv.old, hInv.enqueuing, hInv.oldUncopied, hInv.publishing⟩
        rcases Nat.lt_or_ge id s.links.length with hOld | hNew
        · rw [List.getElem?_append_left hOld] at hLink
          exact hKeep (h.links id link hLink)
        · rw [List.getElem?_append_right hNew] at hLink
          obtain rfl := List.mem_singleton.mp (List.mem_of_getElem? hLink)
          refine hKeep ⟨.nil, .nil, ?_, ?_, ?_, ?_, ?_⟩
          · exact fun _ _ he => absurd he List.not_mem_nil
          · exact fun _ hm => absurd hm List.not_mem_nil
          · exact fun _ _ _ _ _ hm => absurd hm List.not_mem_nil
          · exact fun _ hm => absurd hm List.not_mem_nil
          · exact fun _ _ _ _ _ hm => absurd hm List.not_mem_nil
  · cases hStep

theorem inv_checkLatched {latch : Bool} {id : Nat} (h : Inv s) (hStep : s.step latch (.checkLatched id) = some s') :
    Inv s' := by
  simp only [State.step] at hStep
  split at hStep
  · cases hStep
    refine h.setLink id _ fun link hLink => ?_
    have hInv := h.links id link hLink
    exact ⟨hInv.serialized, hInv.uncopied, hInv.transport, hInv.old, hInv.enqueuing, hInv.oldUncopied, hInv.publishing⟩
  · cases hStep

theorem inv_sendLatched {latch : Bool} {id : Nat} (h : Inv s) (hFirst : First s (.sendLatched id))
    (hStep : s.step latch (.sendLatched id) = some s') : Inv s' := by
  simp only [State.step] at hStep
  split at hStep
  · obtain ⟨message, hLast, rfl⟩ := Option.map_eq_some_iff.mp hStep
    obtain ⟨hNext, hEnqueuing⟩ := h.last message hLast
    refine h.setLink id _ fun link hLink => ?_
    have hInv := h.links id link hLink
    have hNone : link.handed = [] := by
      rw [First, first, hLink] at hFirst
      exact List.isEmpty_iff.mp hFirst
    -- The link has the latched message alone.
    have hHanded : ({ link.hand ⟨message, true, true⟩ with adding := .done } : SubscriberLink).handed =
        [⟨message, true, true⟩] := by
      rw [SubscriberLink.hand, hNone]
      rfl
    have hSerialized : ({ link.hand ⟨message, true, true⟩ with adding := .done } : SubscriberLink).serialized =
        [message] := by
      rw [SubscriberLink.serialized, hHanded]
      rfl
    have hUncopied : ({ link.hand ⟨message, true, true⟩ with adding := .done } : SubscriberLink).uncopied =
        [message] := by
      rw [SubscriberLink.uncopied, hHanded]
      rfl
    refine ⟨?_, ?_, ?_, ?_, ?_, ?_, ?_⟩
    · rw [hSerialized]
      exact List.pairwise_singleton _ _
    · rw [hUncopied]
      exact List.pairwise_singleton _ _
    · intro _ e he
      rw [hHanded] at he
      rw [List.mem_singleton.mp he]
    · intro m hm
      rw [hSerialized] at hm
      rw [List.mem_singleton.mp hm]
      exact hNext
    · intro other links hSweep _ m hm
      rw [hSerialized] at hm
      rw [List.mem_singleton.mp hm]
      exact hEnqueuing other links hSweep
    · intro m hm
      rw [hUncopied] at hm
      rw [List.mem_singleton.mp hm]
      exact hNext _ (published_mem_coming s)
    · intro other links hSweep _ m hm
      rw [hUncopied] at hm
      rw [List.mem_singleton.mp hm]
      exact hNext other (h.publishing other links hSweep).1
  · cases hStep

theorem inv_links {subscriberLinks : List Nat} {dropped : Bool} (h : Inv s)
    (hSublist : subscriberLinks.Sublist s.subscriberLinks) :
    Inv { s with subscriberLinks := subscriberLinks, dropped := dropped } :=
  h.advance (List.Sublist.refl _) rfl rfl (fun message links hSome => (h.publishing message links hSome).1) rfl
    hSublist rfl

theorem inv_step {latch : Bool} {a : Label} (h : Inv s) (hFirst : First s a) (hStep : s.step latch a = some s') :
    Inv s' := by
  cases a with
  | publish message buf => exact inv_publish h hStep
  | push => exact inv_push h hStep
  | processPublishQueue => exact inv_processPublishQueue h hStep
  | enqueueMessage => exact inv_enqueueMessage h hStep
  | visit => exact inv_visit h hStep
  | leave => exact inv_leave h hStep
  | addSubscriberLink intraprocess => exact inv_addSubscriberLink h hStep
  | checkLatched id => exact inv_checkLatched h hStep
  | sendLatched id => exact inv_sendLatched h hFirst hStep
  | removeSubscriberLink id =>
    simp only [State.step] at hStep
    split at hStep
    · cases hStep
      split
      · exact h
      · exact inv_links h List.erase_sublist
    · cases hStep
  | drop =>
    simp only [State.step] at hStep
    split at hStep
    · cases hStep
      exact inv_links h (List.Sublist.refl _)
    · cases hStep
  | dropAllConnections =>
    simp only [State.step] at hStep
    split at hStep
    · cases hStep
      exact inv_links h (List.nil_sublist _)
    · cases hStep

end Steps

theorem inv_start : Inv .start where
  coming := List.pairwise_singleton _ _
  nodup := List.nodup_nil
  known _ h := absurd h List.not_mem_nil
  sweepNodup _ _ h := by
    obtain h | h := h <;> cases h
  enqueuing _ _ h := by cases h
  publishing _ _ h := by cases h
  last _ h := by cases h
  links _ _ h := by cases h

theorem LinkInv.inOrder {s : State} {id : Nat} {link : SubscriberLink} (h : LinkInv s id link) : InOrder link where
  serialized := h.serialized
  uncopied := h.uncopied
  transport hTransport := by
    have hAll : link.handed.filter Handed.ser = link.handed := List.filter_eq_self.mpr (h.transport hTransport)
    rw [← hAll]
    exact h.serialized

def latchedRun : List Label :=
  [.publish false true, .push, .processPublishQueue, .enqueueMessage, .leave, .addSubscriberLink true,
    .checkLatched 0, .sendLatched 0, .addSubscriberLink false, .checkLatched 1, .sendLatched 1, .publish true true,
    .visit, .visit, .leave, .push, .processPublishQueue, .enqueueMessage, .visit, .visit, .leave]

def twiceRun : List Label :=
  [.publish false true, .push, .processPublishQueue, .addSubscriberLink false, .enqueueMessage, .visit, .leave,
    .checkLatched 0, .sendLatched 0]

def olderRun : List Label :=
  [.publish false true, .push, .processPublishQueue, .enqueueMessage, .leave, .addSubscriberLink false,
    .publish false true, .push, .processPublishQueue, .enqueueMessage, .visit, .checkLatched 0, .sendLatched 0]

end XcRos.Libros.Publication
