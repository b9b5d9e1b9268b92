import XcRos.Foundation.Machine
import XcRos.Libros.TopicManager

/-! # The link inside a node

One call of `advertise` and one of `subscribe` for the same topic, the first of each in the node. Each
registers its own object and looks for the other's, under a mutex of its own.
-/

namespace XcRos.Libros.LocalLink

open XcRos.Foundation XcRos.Rpc Topics

structure Calls where
  advertised : Options
  subscribed : Options
  pub : Nat
  sub : Nat
  sameTopic : subscribed.topic = advertised.topic
  matching : md5sumsMatch advertised.md5sum subscribed.md5sum = true

/-- Where `advertise` is; `sub` is its local variable. -/
inductive AdvertiseCall where
  | idle
  | stored
  | named
  | looked (sub : Option Nat)
  | linked (sub : Option Nat)
  | returned (sub : Option Nat)
deriving DecidableEq, Repr

/-- Where `subscribe` is; `pub` is the variable of `registerSubscriber`. -/
inductive SubscribeCall where
  | idle
  | created
  | registered
  | found (pub : Option Nat)
  | linked (pub : Option Nat)
  | returned (pub : Option Nat)
  | failed
deriving DecidableEq, Repr

structure State where
  manager : TopicManager
  advertiser : AdvertiseCall
  subscriber : SubscribeCall

inductive Label where
  | advertise
  | pushName
  | look
  | connectFound
  | registerPublisher
  | subscribe
  | registerSubscriber (accepted : Bool)
  | find
  | connectSelf
  | store
deriving DecidableEq, Repr

namespace AdvertiseCall

/-- What the look at `subscriptions_` has found, once it was made. -/
def saw : AdvertiseCall → Option (Option Nat)
  | looked sub | linked sub | returned sub => some sub
  | _ => none

def made : AdvertiseCall → Nat
  | linked (some _) | returned (some _) => 1
  | _ => 0

end AdvertiseCall

namespace SubscribeCall

def saw : SubscribeCall → Option (Option Nat)
  | found pub | linked pub | returned pub => some pub
  | _ => none

def made : SubscribeCall → Nat
  | linked (some _) | returned (some _) => 1
  | _ => 0

/-- `subscribe` holds `subs_mutex_` from its first section to its end. -/
def holdsSubsMutex : SubscribeCall → Bool
  | idle | returned _ | failed => false
  | _ => true

end SubscribeCall

variable (c : Calls)

/-- The `Subscription` that `subscribe` makes. -/
def Calls.newSubscription : Subscription :=
  (Subscription.addCallback ⟨c.subscribed.topic, c.subscribed.md5sum, [], [], false⟩ c.subscribed.callback
    c.subscribed.md5sum).1

namespace State

def advertise (s : State) : Option State :=
  match s.manager.advertise c.advertised c.pub with
  | (manager, .created) => some { s with manager := manager, advertiser := .stored }
  | _ => none

/-- Nothing is found by `addSubCallback` for the first subscription of a topic. -/
def subscribe (s : State) : Option State :=
  match s.manager.lookupSubscription c.subscribed.topic with
  | none => some { s with manager := s.manager.setSubscription c.sub c.newSubscription, subscriber := .created }
  | some _ => none

def fail (s : State) : State :=
  { s with manager := s.manager.setSubscription c.sub (s.manager.subscription c.sub).shutdown, subscriber := .failed }

/-- The section of `registerSubscriber` under `advertised_topics_mutex_`. -/
def find (s : State) : State :=
  match s.manager.lookupPublicationWithoutLock (s.manager.subscription c.sub).name with
  | some p =>
    if md5sumsMatch (s.manager.publication p).md5sum (s.manager.subscription c.sub).md5sum then
      { s with subscriber := .found (some p) }
    else s.fail c
  | none => { s with subscriber := .found none }

def connectSelf (s : State) (pub : Option Nat) : State :=
  { s with
    manager := match pub with
      | some p => s.manager.addLocalConnection c.sub p
      | none => s.manager
    subscriber := .linked pub }

def connectFound (s : State) (sub : Option Nat) : State :=
  { s with
    manager := match sub with
      | some r => s.manager.addLocalConnection r c.pub
      | none => s.manager
    advertiser := .linked sub }

def step (s : State) : Label → Option State
  | .advertise => if s.advertiser = .idle then s.advertise c else none
  | .pushName =>
    if s.advertiser = .stored then
      some { s with
        manager := { s.manager with advertisedTopicNames := s.manager.advertisedTopicNames ++ [c.advertised.topic] }
        advertiser := .named }
    else none
  | .look =>
    if s.advertiser = .named ∧ s.subscriber.holdsSubsMutex = false then
      some { s with advertiser := .looked (s.manager.lookupMatching c.advertised.topic c.advertised.md5sum) }
    else none
  | .connectFound =>
    match s.advertiser with
    | .looked sub => some (s.connectFound c sub)
    | _ => none
  | .registerPublisher =>
    match s.advertiser with
    | .linked sub => some { s with advertiser := .returned sub }
    | _ => none
  | .subscribe => if s.subscriber = .idle then s.subscribe c else none
  | .registerSubscriber accepted =>
    if s.subscriber = .created then some (if accepted then { s with subscriber := .registered } else s.fail c)
    else none
  | .find => if s.subscriber = .registered then some (s.find c) else none
  | .connectSelf =>
    match s.subscriber with
    | .found pub => some (s.connectSelf c pub)
    | _ => none
  | .store =>
    match s.subscriber with
    | .linked pub =>
      some { s with
        manager := { s.manager with subscriptions := s.manager.subscriptions ++ [c.sub] }
        subscriber := .returned pub }
    | _ => none

end State

structure Fresh (t : TopicManager) : Prop where
  publications : ∀ p ∈ t.advertisedTopics, (t.publication p).name ≠ c.advertised.topic
  subscriptions : ∀ r ∈ t.subscriptions, (t.subscription r).name ≠ c.advertised.topic
  pub : c.pub ∉ t.advertisedTopics
  sub : c.sub ∉ t.subscriptions

def node : Machine State Label where
  Init s := Fresh c s.manager ∧ s.advertiser = .idle ∧ s.subscriber = .idle
  step := State.step c

/-- The look of `advertise` does not find a subscription that has a link to the publication. -/
def Unlinked (s : State) : Label → Prop
  | .look =>
    ∀ r ∈ s.manager.lookupMatching c.advertised.topic c.advertised.md5sum,
      c.pub ∉ (s.manager.subscription r).publisherLinks
  | _ => True

instance (s : State) : ∀ a, Decidable (Unlinked c s a)
  | .look => inferInstanceAs (Decidable (∀ r ∈ s.manager.lookupMatching _ _, _))
  | .advertise | .pushName | .connectFound | .registerPublisher | .subscribe | .registerSubscriber _
  | .find | .connectSelf | .store => inferInstanceAs (Decidable True)

structure LinkedOnce (s : State) : Prop where
  subscriberLinks : (s.manager.publication c.pub).subscriberLinks = [c.sub]
  publisherLinks : (s.manager.subscription c.sub).publisherLinks = [c.pub]
  delivered : s.manager.delivered c.pub c.subscribed.callback = 1

structure LinkedTwice (s : State) : Prop where
  subscriberLinks : (s.manager.publication c.pub).subscriberLinks = [c.sub, c.sub]
  publisherLinks : (s.manager.subscription c.sub).publisherLinks = [c.pub, c.pub]
  delivered : s.manager.delivered c.pub c.subscribed.callback = 2

/-! ## What the containers hold -/

namespace SubscribeCall

def live : SubscribeCall → Bool
  | idle | failed => false
  | _ => true

def isReturned : SubscribeCall → Bool
  | returned _ => true
  | _ => false

end SubscribeCall

/-- The new `Subscription` with `n` links. -/
structure Serves (x : Subscription) (n : Nat) : Prop where
  joins : x.joins c.advertised.topic c.advertised.md5sum = true
  callbacks : x.callbacks = [c.subscribed.callback]
  publisherLinks : x.publisherLinks = List.replicate n c.pub

/-- The manager with `n` links between the two objects, as far as these are made and stored. -/
structure Holds (t : TopicManager) (stored live returned : Bool) (n : Nat) : Prop where
  lookup : t.lookupPublicationWithoutLock c.advertised.topic = if stored then some c.pub else none
  lookupMatching :
    t.lookupMatching c.advertised.topic c.advertised.md5sum = if returned then some c.sub else none
  publication : stored = true → t.publication c.pub =
    ⟨c.advertised.topic, c.advertised.md5sum, [c.advertised.callback], List.replicate n c.sub, false⟩
  subscription : live = true → Serves c (t.subscription c.sub) n
  freshPub : stored = false → c.pub ∉ t.advertisedTopics
  freshSub : returned = false → c.sub ∉ t.subscriptions

theorem Fresh.holds {t : TopicManager} (h : Fresh c t) : Holds c t false false false 0 where
  lookup := List.find?_eq_none.mpr fun p hp => by
    simp [Publication.isLive, h.publications p hp]
  lookupMatching := List.find?_eq_none.mpr fun r hr => by
    simp [Subscription.joins, h.subscriptions r hr]
  publication hStored := by cases hStored
  subscription hLive := by cases hLive
  freshPub _ := h.pub
  freshSub _ := h.sub

theorem serves_newSubscription : Serves c c.newSubscription 0 := by
  have hSelf : md5sumsMatch c.subscribed.md5sum c.subscribed.md5sum = true := by simp [md5sumsMatch]
  have hNew : c.newSubscription =
      ⟨c.subscribed.topic, c.subscribed.md5sum, [c.subscribed.callback], [], false⟩ := by
    rw [Calls.newSubscription, Subscription.addCallback_of_match hSelf, Subscription.join, Subscription.decay]
    split <;> rfl
  rw [hNew]
  refine ⟨Subscription.joins_iff.mpr ⟨c.sameTopic, ?_, rfl⟩, rfl, rfl⟩
  rw [md5sumsMatch_comm]
  exact c.matching

namespace Holds

variable {c} {t : TopicManager} {stored live returned : Bool} {n : Nat}

theorem pushName (h : Holds c t stored live returned n) (names : List Bytes) :
    Holds c { t with advertisedTopicNames := names } stored live returned n :=
  ⟨h.lookup, h.lookupMatching, h.publication, h.subscription, h.freshPub, h.freshSub⟩

theorem advertise (h : Holds c t false live returned 0) :
    ∃ t', t.advertise c.advertised c.pub = (t', .created) ∧ Holds c t' true live returned 0 := by
  have hNone : t.lookupPublicationWithoutLock c.advertised.topic = none := h.lookup
  refine ⟨_, by rw [TopicManager.advertise, hNone]; rfl, ?_⟩
  refine ⟨?_, h.lookupMatching, fun _ => ?_, h.subscription, fun hStored => ?_, h.freshSub⟩
  · exact TopicManager.lookupPublication_push (h.freshPub rfl) hNone (by simp [Publication.isLive])
  · exact TopicManager.publication_setPublication ..
  · cases hStored

theorem setSubscription (h : Holds c t stored live false n) (x : Subscription) {live' : Bool}
    (hServes : live' = true → Serves c x n) : Holds c (t.setSubscription c.sub x) stored live' false n where
  lookup := h.lookup
  lookupMatching := by
    rw [TopicManager.lookupMatching_setSubscription fun hMem => absurd hMem (h.freshSub rfl)]
    exact h.lookupMatching
  publication := h.publication
  subscription hLive := by
    rw [TopicManager.subscription_setSubscription]
    exact hServes hLive
  freshPub := h.freshPub
  freshSub := h.freshSub

theorem store (h : Holds c t stored true false n) :
    Holds c { t with subscriptions := t.subscriptions ++ [c.sub] } stored true true n where
  lookup := h.lookup
  lookupMatching := TopicManager.lookupMatching_push h.lookupMatching (h.subscription rfl).joins
  publication := h.publication
  subscription := h.subscription
  freshPub := h.freshPub
  freshSub hReturned := by cases hReturned

theorem connect (h : Holds c t true true returned n) :
    Holds c (t.addLocalConnection c.sub c.pub) true true returned (n + 1) := by
  have hPub := h.publication rfl
  have hSub := h.subscription rfl
  obtain ⟨-, -, hDropped⟩ := Subscription.joins_iff.mp hSub.joins
  have hConnect : t.addLocalConnection c.sub c.pub =
      (t.setSubscription c.sub ((t.subscription c.sub).addPublisherLink c.pub c.advertised.md5sum)).setPublication c.pub
        ⟨c.advertised.topic, c.advertised.md5sum, [c.advertised.callback], List.replicate (n + 1) c.sub, false⟩ := by
    rw [TopicManager.addLocalConnection, if_neg (by simp [hDropped]), hPub, Publication.addSubscriberLink,
      if_neg (by simp), List.replicate_succ']
  rw [hConnect]
  refine ⟨?_, ?_, fun _ => ?_, fun _ => ?_, fun hStored => ?_, h.freshSub⟩
  · rw [TopicManager.lookupPublication_setPublication]
    · exact h.lookup
    · rw [TopicManager.publication_setSubscription, hPub]
      rfl
  · show (t.setSubscription c.sub _).lookupMatching _ _ = _
    rw [TopicManager.lookupMatching_setSubscription fun _ => Subscription.addPublisherLink_joins ..]
    exact h.lookupMatching
  · exact TopicManager.publication_setPublication ..
  · rw [TopicManager.subscription_setPublication, TopicManager.subscription_setSubscription]
    refine ⟨?_, ?_, ?_⟩
    · rw [Subscription.addPublisherLink_joins]
      exact hSub.joins
    · exact (Subscription.decay_callbacks ..).trans hSub.callbacks
    · rw [Subscription.addPublisherLink, hSub.publisherLinks, List.replicate_succ']
  · cases hStored

end Holds

/-- The manager as the two calls have left it, and what each has found. At most one has found nothing. -/
structure Inv (s : State) : Prop where
  holds : Holds c s.manager (s.advertiser != .idle) s.subscriber.live s.subscriber.isReturned
    (s.advertiser.made + s.subscriber.made)
  sawSub : ∀ r, s.advertiser.saw = some (some r) → r = c.sub ∧ s.subscriber.isReturned = true
  sawPub : ∀ p, s.subscriber.saw = some (some p) → p = c.pub ∧ s.advertiser ≠ .idle
  someone : s.advertiser.saw = some none → s.subscriber.saw ≠ some none

theorem AdvertiseCall.exists_saw_of_made {a : AdvertiseCall} (h : a.made ≠ 0) : ∃ r, a.saw = some (some r) := by
  cases a with
  | linked sub | returned sub =>
    cases sub with
    | none => exact absurd rfl h
    | some r => exact ⟨r, rfl⟩
  | _ => exact absurd rfl h

theorem SubscribeCall.exists_saw_of_made {b : SubscribeCall} (h : b.made ≠ 0) : ∃ p, b.saw = some (some p) := by
  cases b with
  | linked pub | returned pub =>
    cases pub with
    | none => exact absurd rfl h
    | some p => exact ⟨p, rfl⟩
  | _ => exact absurd rfl h

theorem SubscribeCall.live_of_isReturned {b : SubscribeCall} (h : b.isReturned = true) : b.live = true := by
  cases b with
  | returned => rfl
  | _ => cases h

theorem SubscribeCall.saw_of_free {b : SubscribeCall} (hFree : b.holdsSubsMutex = false)
    (hReturned : b.isReturned = false) : b.saw = none := by
  cases b with
  | idle | failed => rfl
  | returned => cases hReturned
  | created | registered | found | linked => cases hFree

namespace Inv

variable {c} {s : State}

theorem init (hInit : (node c).Init s) : Inv c s := by
  obtain ⟨hFresh, hAdvertiser, hSubscriber⟩ := hInit
  refine ⟨?_, fun r hr => ?_, fun p hp => ?_, fun hNone => ?_⟩
  · rw [hAdvertiser, hSubscriber]
    exact hFresh.holds
  · rw [hAdvertiser] at hr
    cases hr
  · rw [hSubscriber] at hp
    cases hp
  · rw [hAdvertiser] at hNone
    cases hNone

theorem subscriber_made (h : Inv c s) (hIdle : s.advertiser = .idle) : s.subscriber.made = 0 := by
  by_contra hMade
  obtain ⟨p, hp⟩ := SubscribeCall.exists_saw_of_made hMade
  exact (h.sawPub p hp).2 hIdle

theorem advertiser_made (h : Inv c s) (hOpen : s.subscriber.isReturned = false) : s.advertiser.made = 0 := by
  by_contra hMade
  obtain ⟨r, hr⟩ := AdvertiseCall.exists_saw_of_made hMade
  have hReturned := (h.sawSub r hr).2
  rw [hOpen] at hReturned
  cases hReturned

theorem subscriber (h : Inv c s) {manager : TopicManager} {next : SubscribeCall}
    (hOpen : s.subscriber.isReturned = false)
    (hHolds : Holds c manager (s.advertiser != .idle) next.live next.isReturned (s.advertiser.made + next.made))
    (hSawPub : ∀ p, next.saw = some (some p) → p = c.pub ∧ s.advertiser ≠ .idle)
    (hSomeone : s.advertiser.saw = some none → next.saw ≠ some none) :
    Inv c ⟨manager, s.advertiser, next⟩ := by
  refine ⟨hHolds, fun r hr => ?_, hSawPub, hSomeone⟩
  have hReturned := (h.sawSub r hr).2
  rw [hOpen] at hReturned
  cases hReturned

theorem fail (h : Inv c s) (hOpen : s.subscriber.isReturned = false) (hSubscriber : s.subscriber.made = 0) :
    Inv c (s.fail c) := by
  have hHolds := h.holds
  rw [hOpen, hSubscriber] at hHolds
  exact h.subscriber hOpen (hHolds.setSubscription _ fun hLive => by cases hLive) (fun p hp => by cases hp)
    fun _ hNone => by cases hNone

theorem advertise (h : Inv c s) (hIdle : s.advertiser = .idle) {s' : State} (hStep : s.advertise c = some s') :
    Inv c s' := by
  have hHolds := h.holds
  rw [hIdle, h.subscriber_made hIdle] at hHolds
  obtain ⟨t', hAdvertise, hNext⟩ := Holds.advertise hHolds
  rw [State.advertise, hAdvertise] at hStep
  cases hStep
  refine ⟨?_, (fun r hr => by cases hr), fun p hp => ⟨(h.sawPub p hp).1, by simp⟩, fun hNone => by cases hNone⟩
  show Holds c t' true s.subscriber.live s.subscriber.isReturned (0 + s.subscriber.made)
  rw [h.subscriber_made hIdle]
  exact hNext

theorem look (h : Inv c s) (hNamed : s.advertiser = .named) (hFree : s.subscriber.holdsSubsMutex = false) :
    Inv c { s with advertiser := .looked (s.manager.lookupMatching c.advertised.topic c.advertised.md5sum) } := by
  have hHolds := h.holds
  rw [hNamed] at hHolds
  refine ⟨hHolds, fun r hr => ?_, fun p hp => ⟨(h.sawPub p hp).1, by simp⟩, fun hNone => ?_⟩
  · have hFound : s.manager.lookupMatching c.advertised.topic c.advertised.md5sum = some r := Option.some.inj hr
    rw [hHolds.lookupMatching] at hFound
    split at hFound
    · rename_i hReturned
      cases hFound
      exact ⟨rfl, hReturned⟩
    · cases hFound
  · have hFound : s.manager.lookupMatching c.advertised.topic c.advertised.md5sum = none := Option.some.inj hNone
    rw [hHolds.lookupMatching] at hFound
    split at hFound
    · cases hFound
    · rename_i hOpen
      rw [SubscribeCall.saw_of_free hFree (by simpa using hOpen)]
      intro hSaw
      cases hSaw

theorem connectFound (h : Inv c s) {sub : Option Nat} (hLooked : s.advertiser = .looked sub) :
    Inv c (s.connectFound c sub) := by
  have hHolds := h.holds
  have hSaw : s.advertiser.saw = some sub := by rw [hLooked]; rfl
  rw [hLooked] at hHolds
  refine ⟨?_, fun r hr => h.sawSub r (hSaw.trans hr), fun p hp => ⟨(h.sawPub p hp).1, fun hIdle => by cases hIdle⟩,
    fun hNone => h.someone (hSaw.trans hNone)⟩
  cases sub with
  | none => exact hHolds
  | some r =>
    obtain ⟨rfl, hReturned⟩ := h.sawSub r hSaw
    have hLive := SubscribeCall.live_of_isReturned hReturned
    show Holds c (s.manager.addLocalConnection c.sub c.pub) true s.subscriber.live s.subscriber.isReturned
      (1 + s.subscriber.made)
    rw [Nat.add_comm, hLive]
    rw [hLive, show AdvertiseCall.made (.looked (some c.sub)) = 0 from rfl, Nat.zero_add] at hHolds
    exact hHolds.connect

theorem find (h : Inv c s) (hRegistered : s.subscriber = .registered) : Inv c (s.find c) := by
  have hOpen : s.subscriber.isReturned = false := by rw [hRegistered]; rfl
  have hHolds := h.holds
  rw [hRegistered] at hHolds
  obtain ⟨hName, hMatch, -⟩ := Subscription.joins_iff.mp (hHolds.subscription rfl).joins
  rw [State.find, hName, hHolds.lookup]
  by_cases hIdle : s.advertiser = .idle
  · rw [if_neg (by simp [hIdle])]
    refine h.subscriber hOpen hHolds (fun p hp => by cases hp) fun hNone => ?_
    rw [hIdle] at hNone
    cases hNone
  · have hStored : (s.advertiser != .idle) = true := by simpa using hIdle
    have hMd5sum : md5sumsMatch (s.manager.publication c.pub).md5sum (s.manager.subscription c.sub).md5sum = true := by
      rw [hHolds.publication hStored, md5sumsMatch_comm]
      exact hMatch
    rw [if_pos hStored]
    dsimp only
    rw [if_pos hMd5sum]
    exact h.subscriber hOpen hHolds (fun p hp => ⟨(Option.some.inj (Option.some.inj hp)).symm, hIdle⟩)
      fun _ hNone => by cases hNone

theorem connectSelf (h : Inv c s) {pub : Option Nat} (hFound : s.subscriber = .found pub) :
    Inv c (s.connectSelf c pub) := by
  have hOpen : s.subscriber.isReturned = false := by rw [hFound]; rfl
  have hSaw : s.subscriber.saw = some pub := by rw [hFound]; rfl
  have hHolds := h.holds
  rw [hFound] at hHolds
  refine h.subscriber hOpen ?_ (fun p hp => h.sawPub p (hSaw.trans hp)) fun hNone hPub =>
    h.someone hNone (hSaw.trans hPub)
  cases pub with
  | none => exact hHolds
  | some p =>
    obtain ⟨rfl, hStored⟩ := h.sawPub p hSaw
    have hStored : (s.advertiser != .idle) = true := by simpa using hStored
    rw [hStored] at hHolds ⊢
    exact hHolds.connect

theorem step (h : Inv c s) {a : Label} {s' : State} (hStep : s.step c a = some s') : Inv c s' := by
  cases a with
  | advertise =>
    rw [State.step] at hStep
    split at hStep
    · exact h.advertise ‹_› hStep
    · cases hStep
  | pushName =>
    obtain ⟨hStored, rfl⟩ := of_guard hStep
    have hHolds := h.holds
    rw [hStored] at hHolds
    exact ⟨hHolds.pushName _, (fun r hr => by cases hr), fun p hp => ⟨(h.sawPub p hp).1, by simp⟩,
      fun hNone => by cases hNone⟩
  | look =>
    obtain ⟨hNamed, rfl⟩ := of_guard hStep
    exact h.look hNamed.1 hNamed.2
  | connectFound =>
    rw [State.step] at hStep
    split at hStep
    · cases hStep
      exact h.connectFound ‹_›
    · cases hStep
  | registerPublisher =>
    rw [State.step] at hStep
    split at hStep
    · rename_i sub hLinked
      cases hStep
      have hHolds := h.holds
      have hSaw : s.advertiser.saw = some sub := by rw [hLinked]; rfl
      have hMade : s.advertiser.made = AdvertiseCall.made (.returned sub) := by rw [hLinked]; cases sub <;> rfl
      rw [hMade, hLinked] at hHolds
      exact ⟨hHolds, fun r hr => h.sawSub r (hSaw.trans hr), fun p hp => ⟨(h.sawPub p hp).1, by simp⟩,
        fun hNone => h.someone (hSaw.trans hNone)⟩
    · cases hStep
  | subscribe =>
    rw [State.step] at hStep
    split at hStep
    · rename_i hIdle
      have hOpen : s.subscriber.isReturned = false := by rw [hIdle]; rfl
      rw [State.subscribe] at hStep
      split at hStep
      · cases hStep
        have hHolds := h.holds
        rw [h.advertiser_made hOpen, hIdle] at hHolds
        refine h.subscriber hOpen ?_ (fun p hp => by cases hp) fun _ hNone => by cases hNone
        rw [h.advertiser_made hOpen]
        exact hHolds.setSubscription _ fun _ => serves_newSubscription c
      · cases hStep
    · cases hStep
  | registerSubscriber accepted =>
    rw [State.step] at hStep
    split at hStep
    · rename_i hCreated
      have hOpen : s.subscriber.isReturned = false := by rw [hCreated]; rfl
      cases hStep
      cases accepted with
      | true =>
        have hHolds := h.holds
        rw [hCreated] at hHolds
        exact h.subscriber hOpen hHolds (fun p hp => by cases hp) fun _ hNone => by cases hNone
      | false => exact h.fail hOpen (by rw [hCreated]; rfl)
    · cases hStep
  | find =>
    rw [State.step] at hStep
    split at hStep
    · cases hStep
      exact h.find ‹_›
    · cases hStep
  | connectSelf =>
    rw [State.step] at hStep
    split at hStep
    · cases hStep
      exact h.connectSelf ‹_›
    · cases hStep
  | store =>
    rw [State.step] at hStep
    split at hStep
    · rename_i pub hLinked
      cases hStep
      have hOpen : s.subscriber.isReturned = false := by rw [hLinked]; rfl
      have hSaw : s.subscriber.saw = some pub := by rw [hLinked]; rfl
      have hMade : s.subscriber.made = SubscribeCall.made (.returned pub) := by rw [hLinked]; cases pub <;> rfl
      have hHolds := h.holds
      rw [hMade, hLinked] at hHolds
      exact h.subscriber hOpen hHolds.store (fun p hp => h.sawPub p (hSaw.trans hp)) fun hNone hPub =>
        h.someone hNone (hSaw.trans hPub)
    · cases hStep

theorem unlinked_look (h : Inv c s) {r : Nat} (hNone : s.advertiser.saw = none)
    (hFound : s.manager.lookupMatching c.advertised.topic c.advertised.md5sum = some r) :
    r = c.sub ∧ s.subscriber.isReturned = true ∧
      (s.manager.subscription r).publisherLinks = List.replicate s.subscriber.made c.pub := by
  have hMade : s.advertiser.made = 0 := by
    by_contra hMade
    obtain ⟨q, hq⟩ := AdvertiseCall.exists_saw_of_made hMade
    rw [hNone] at hq
    cases hq
  have hLookup := h.holds.lookupMatching
  rw [hFound] at hLookup
  split at hLookup
  · rename_i hReturned
    cases hLookup
    have hServes := h.holds.subscription (SubscribeCall.live_of_isReturned hReturned)
    rw [hMade, Nat.zero_add] at hServes
    exact ⟨rfl, hReturned, hServes.publisherLinks⟩
  · cases hLookup

end Inv

def Once (s : State) : Prop := ∀ r, s.advertiser.saw = some (some r) → s.subscriber.saw = some none

def Twice (s : State) : Prop := s.advertiser.saw = some (some c.sub) ∧ s.subscriber.saw = some (some c.pub)

section

variable {c}

theorem saw_of_step {s s' : State} {a : Label} (h : s.step c a = some s') :
    (a = .look ∧ s.advertiser.saw = none ∧ s'.subscriber = s.subscriber ∧
      s'.advertiser.saw = some (s.manager.lookupMatching c.advertised.topic c.advertised.md5sum)) ∨
    s'.advertiser.saw = s.advertiser.saw ∧
      (s'.subscriber.saw = s.subscriber.saw ∨ s.subscriber.isReturned = false) := by
  cases a with
  | advertise =>
    rw [State.step] at h
    split at h
    · rename_i hIdle
      rw [State.advertise] at h
      split at h
      · cases h
        exact .inr ⟨by rw [hIdle]; rfl, .inl rfl⟩
      · cases h
    · cases h
  | look =>
    obtain ⟨hNamed, rfl⟩ := of_guard h
    exact .inl ⟨rfl, by rw [hNamed.1]; rfl, rfl, rfl⟩
  | pushName =>
    obtain ⟨hStored, rfl⟩ := of_guard h
    exact .inr ⟨by rw [hStored]; rfl, .inl rfl⟩
  | connectFound | registerPublisher =>
    rw [State.step] at h
    split at h
    · rename_i hAdvertiser
      cases h
      exact .inr ⟨by rw [hAdvertiser]; rfl, .inl rfl⟩
    · cases h
  | subscribe =>
    rw [State.step] at h
    split at h
    · rename_i hIdle
      rw [State.subscribe] at h
      split at h
      · cases h
        exact .inr ⟨rfl, .inr (by rw [hIdle]; rfl)⟩
      · cases h
    · cases h
  | registerSubscriber accepted =>
    obtain ⟨hCreated, rfl⟩ := of_guard h
    refine .inr ⟨?_, .inr (by rw [hCreated]; rfl)⟩
    cases accepted <;> rfl
  | find =>
    obtain ⟨hRegistered, rfl⟩ := of_guard h
    refine .inr ⟨?_, .inr (by rw [hRegistered]; rfl)⟩
    rw [State.find]
    split
    · split <;> rfl
    · rfl
  | connectSelf | store =>
    rw [State.step] at h
    split at h
    · rename_i hSubscriber
      cases h
      exact .inr ⟨rfl, .inr (by rw [hSubscriber]; rfl)⟩
    · cases h

theorem Once.step {s s' : State} {a : Label} (hInv : Inv c s) (h : Once s) (hOk : Unlinked c s a)
    (hStep : s.step c a = some s') : Once s' := by
  intro r hr
  obtain ⟨rfl, hNone, hSubscriber, hSaw⟩ | ⟨hSaw, hSubscriber⟩ := saw_of_step hStep
  · have hFound : s.manager.lookupMatching c.advertised.topic c.advertised.md5sum = some r :=
      Option.some.inj (hSaw.symm.trans hr)
    obtain ⟨-, hReturned, hLinks⟩ := hInv.unlinked_look hNone hFound
    have hFree : c.pub ∉ (s.manager.subscription r).publisherLinks := hOk r hFound
    rw [hLinks] at hFree
    rw [hSubscriber]
    cases hCall : s.subscriber with
    | returned pub =>
      cases pub with
      | none => rfl
      | some p =>
        rw [hCall] at hFree
        exact absurd (List.mem_singleton.mpr rfl) hFree
    | _ =>
      rw [hCall] at hReturned
      cases hReturned
  · rw [hSaw] at hr
    obtain hSame | hOpen := hSubscriber
    · rw [hSame]
      exact h r hr
    · rw [(hInv.sawSub r hr).2] at hOpen
      cases hOpen

theorem Twice.step {s s' : State} {a : Label} (hInv : Inv c s) (h : Twice c s) (hStep : s.step c a = some s') :
    Twice c s' := by
  obtain ⟨-, hNone, -⟩ | ⟨hSaw, hSubscriber⟩ := saw_of_step hStep
  · rw [h.1] at hNone
    cases hNone
  · refine ⟨hSaw.trans h.1, ?_⟩
    obtain hSame | hOpen := hSubscriber
    · exact hSame.trans h.2
    · rw [(hInv.sawSub _ h.1).2] at hOpen
      cases hOpen

theorem twice_of_not_unlinked {s s' : State} {a : Label} (hInv : Inv c s) (hOk : ¬ Unlinked c s a)
    (hStep : s.step c a = some s') : Twice c s' := by
  obtain ⟨rfl, hNone, hSubscriber, hSaw⟩ | ⟨hSame, -⟩ := saw_of_step hStep
  · simp only [Unlinked, Option.mem_def, not_forall, not_not] at hOk
    obtain ⟨r, hFound, hLinked⟩ := hOk
    obtain ⟨rfl, -, hLinks⟩ := hInv.unlinked_look hNone hFound
    refine ⟨by rw [hSaw, hFound], ?_⟩
    rw [hLinks] at hLinked
    obtain ⟨p, hp⟩ := SubscribeCall.exists_saw_of_made (List.mem_replicate.mp hLinked).1
    rw [hSubscriber, hp, (hInv.sawPub p hp).1]
  · cases a with
    | look =>
      obtain ⟨hNamed, rfl⟩ := of_guard hStep
      rw [hNamed.1] at hSame
      cases hSame
    | _ => exact absurd trivial hOk

theorem Inv.delivered {s : State} (h : Inv c s) {sub pub : Option Nat} (hAdvertiser : s.advertiser = .returned sub)
    (hSubscriber : s.subscriber = .returned pub) :
    (s.manager.publication c.pub).subscriberLinks = List.replicate (s.advertiser.made + s.subscriber.made) c.sub ∧
      (s.manager.subscription c.sub).publisherLinks =
        List.replicate (s.advertiser.made + s.subscriber.made) c.pub ∧
      s.manager.delivered c.pub c.subscribed.callback = s.advertiser.made + s.subscriber.made := by
  have hStored : (s.advertiser != .idle) = true := by rw [hAdvertiser]; rfl
  have hLive : s.subscriber.live = true := by rw [hSubscriber]; rfl
  have hPub := h.holds.publication hStored
  have hSub := h.holds.subscription hLive
  refine ⟨by rw [hPub], hSub.publisherLinks, ?_⟩
  rw [TopicManager.delivered, hPub, List.map_replicate, hSub.callbacks, List.count_singleton_self, List.sum_replicate,
    smul_eq_mul, Nat.mul_one]

theorem inv_of_reachable {ok : State → Label → Prop} {s : State} (h : (node c).ReachableWhen ok s) : Inv c s :=
  h.invariant (Inv c) (fun _ => Inv.init) fun _ _ _ hInv _ hStep => hInv.step hStep

theorem once_of_reachable {s : State} (h : (node c).ReachableWhen (Unlinked c) s) : Once s := by
  have hBoth := h.invariant (fun s => Inv c s ∧ Once s)
    (fun s (hInit : Fresh c s.manager ∧ s.advertiser = .idle ∧ s.subscriber = .idle) =>
      ⟨Inv.init hInit, fun r hr => by rw [hInit.2.1] at hr; cases hr⟩)
    fun s a s' hInv hOk hStep => ⟨hInv.1.step hStep, hInv.2.step hInv.1 hOk hStep⟩
  exact hBoth.2

theorem twice_of_run {as : List Label} {s t : State} (hReach : (node c).Reachable s) (h : Twice c s)
    (hRun : (node c).run s as = some t) : (node c).Reachable t ∧ Twice c t := by
  induction as generalizing s with
  | nil =>
    cases hRun
    exact ⟨hReach, h⟩
  | cons a as ih =>
    rw [Machine.run] at hRun
    split at hRun
    · rename_i hStep
      exact ih (hReach.step trivial hStep) (h.step (inv_of_reachable hReach) hStep) hRun
    · cases hRun

end

/-- As long as the look of `advertise` finds no subscription that is linked already, the two calls leave
exactly one link; after one that does they leave two. -/
theorem linkedOnce :
    (∀ s sub pub, (node c).ReachableWhen (Unlinked c) s → s.advertiser = .returned sub →
      s.subscriber = .returned pub → LinkedOnce c s) ∧
    ∀ s a s' as t sub pub, (node c).Reachable s → (node c).step s a = some s' → ¬ Unlinked c s a →
      (node c).run s' as = some t → t.advertiser = .returned sub → t.subscriber = .returned pub → LinkedTwice c t := by
  constructor
  · intro s sub pub hReach hAdvertiser hSubscriber
    have hInv := inv_of_reachable hReach
    have hMade : s.advertiser.made + s.subscriber.made = 1 := by
      have hOnce := once_of_reachable hReach
      have hSomeone := hInv.someone
      rw [Once, hAdvertiser, hSubscriber] at hOnce
      rw [hAdvertiser, hSubscriber] at hSomeone ⊢
      cases sub with
      | none =>
        cases pub with
        | none => exact absurd rfl (hSomeone rfl)
        | some p => rfl
      | some r =>
        cases pub with
        | none => rfl
        | some p => cases hOnce r rfl
    obtain ⟨hPub, hSub, hDelivered⟩ := hInv.delivered hAdvertiser hSubscriber
    rw [hMade] at hPub hSub hDelivered
    exact ⟨hPub, hSub, hDelivered⟩
  · intro s a s' as t sub pub hReach hStep hOk hRun hAdvertiser hSubscriber
    have hTwice := twice_of_not_unlinked (inv_of_reachable hReach) hOk hStep
    obtain ⟨hReach, hTwice⟩ := twice_of_run (hReach.step trivial hStep) hTwice hRun
    have hMade : t.advertiser.made + t.subscriber.made = 2 := by
      rw [Twice, hAdvertiser, hSubscriber] at hTwice
      obtain ⟨hSub, hPub⟩ := hTwice
      cases hSub
      cases hPub
      rw [hAdvertiser, hSubscriber]
      rfl
    obtain ⟨hPub, hSub, hDelivered⟩ := (inv_of_reachable hReach).delivered hAdvertiser hSubscriber
    rw [hMade] at hPub hSub hDelivered
    exact ⟨hPub, hSub, hDelivered⟩

/-! ## Two calls for one topic -/

def chatter : Calls where
  advertised := ⟨bytes "/chatter", bytes "992ce8a1687cec8c8bd883ec73ca41d1", 0⟩
  subscribed := ⟨bytes "/chatter", bytes "992ce8a1687cec8c8bd883ec73ca41d1", 1⟩
  pub := 0
  sub := 0
  sameTopic := rfl
  matching := by decide

def quiet : State where
  manager := ⟨fun _ => ⟨[], [], [], [], false⟩, fun _ => ⟨[], [], [], [], false⟩, [], [], []⟩
  advertiser := .idle
  subscriber := .idle

theorem quiet_init : (node chatter).Init quiet :=
  ⟨⟨by decide, by decide, by decide, by decide⟩, rfl, rfl⟩

/-- The whole call of `subscribe` between the first section of `advertise` and its look. -/
def crossed : List Label :=
  [.advertise, .subscribe, .registerSubscriber true, .find, .connectSelf, .store, .pushName, .look, .connectFound,
    .registerPublisher]

/-- `advertise` makes its look while `subscribe` has not begun. -/
def apart : List Label :=
  [.advertise, .pushName, .look, .connectFound, .registerPublisher, .subscribe, .registerSubscriber true, .find,
    .connectSelf, .store]

theorem linked_twice :
    ∃ s, (node chatter).Reachable s ∧ s.advertiser = .returned (some 0) ∧ s.subscriber = .returned (some 0) ∧
      (s.manager.publication 0).subscriberLinks = [0, 0] ∧ s.manager.delivered 0 1 = 2 ∧ ¬ LinkedOnce chatter s := by
  refine ⟨_, Machine.Reachable.run (.init quiet_init) (rfl : (node chatter).run quiet crossed = some _), rfl, rfl, rfl,
    rfl, fun h => ?_⟩
  exact absurd h.delivered (by decide)

theorem linkedOnce_chatter :
    ∃ s, (node chatter).runWhen (Unlinked chatter) quiet apart = some s ∧ LinkedOnce chatter s :=
  ⟨_, rfl, (linkedOnce chatter).1 _ none (some 0)
    (Machine.ReachableWhen.runWhen (.init quiet_init)
      (rfl : (node chatter).runWhen (Unlinked chatter) quiet apart = some _)) rfl rfl⟩

end XcRos.Libros.LocalLink
