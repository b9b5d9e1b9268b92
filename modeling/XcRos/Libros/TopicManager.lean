import Mathlib
import XcRos.Foundation.Update
import XcRos.Rpc.Socket

/-! # The topic manager

What `TopicManager` keeps of the publications and subscriptions of a node, and what its methods do to
it between taking and giving back a mutex. Objects are known by their addresses.
-/

namespace XcRos.Libros.Topics

open XcRos.Rpc

/-- A `Publication`: its `SubscriberCallbacks`, and the subscriptions behind its intraprocess links. -/
structure Publication where
  name : Bytes
  md5sum : Bytes
  callbacks : List Nat
  subscriberLinks : List Nat
  dropped : Bool
deriving DecidableEq, Repr

/-- A `Subscription`: the helpers of its callbacks, and the publications behind its intraprocess links. -/
structure Subscription where
  name : Bytes
  md5sum : Bytes
  callbacks : List Nat
  publisherLinks : List Nat
  dropped : Bool
deriving DecidableEq, Repr

structure TopicManager where
  publication : Nat → Publication
  subscription : Nat → Subscription
  advertisedTopics : List Nat
  advertisedTopicNames : List Bytes
  subscriptions : List Nat

/-- Of `AdvertiseOptions` and `SubscribeOptions` what decides where the call goes. -/
structure Options where
  topic : Bytes
  md5sum : Bytes
  callback : Nat
deriving DecidableEq, Repr

/-- How a call of `advertise` leaves its first section. -/
inductive Advertised where
  | refused
  | joined
  | created
deriving DecidableEq, Repr

def wildcard : Bytes := bytes "*"

def md5sumsMatch (lhs rhs : Bytes) : Bool := lhs == wildcard || rhs == wildcard || lhs == rhs

theorem md5sumsMatch_comm (lhs rhs : Bytes) : md5sumsMatch lhs rhs = md5sumsMatch rhs lhs := by
  rw [md5sumsMatch, md5sumsMatch, Bool.or_comm (lhs == wildcard), Bool.beq_comm (a := lhs) (b := rhs)]

namespace Publication

def isLive (p : Publication) (topic : Bytes) : Bool := p.name == topic && !p.dropped

def addCallbacks (p : Publication) (callbacks : Nat) : Publication :=
  { p with callbacks := p.callbacks ++ [callbacks] }

def removeCallbacks (p : Publication) (callbacks : Nat) : Publication :=
  { p with callbacks := p.callbacks.erase callbacks }

def drop (p : Publication) : Publication :=
  if p.dropped then p else { p with dropped := true, subscriberLinks := [] }

def addSubscriberLink (p : Publication) (s : Nat) : Publication :=
  if p.dropped then p else { p with subscriberLinks := p.subscriberLinks ++ [s] }

end Publication

namespace Subscription

def isLive (s : Subscription) (topic : Bytes) : Bool := !s.dropped && s.name == topic

/-- What `advertise` asks of a subscription of its own node. -/
def joins (s : Subscription) (topic md5sum : Bytes) : Bool :=
  s.name == topic && md5sumsMatch s.md5sum md5sum && !s.dropped

/-- A wildcard decays to the first real md5sum. -/
def decay (s : Subscription) (md5sum : Bytes) : Subscription :=
  if s.md5sum = wildcard then { s with md5sum := md5sum } else s

def addCallback (s : Subscription) (helper : Nat) (md5sum : Bytes) : Subscription × Bool :=
  let s := s.decay md5sum
  if md5sum ≠ wildcard ∧ md5sum ≠ s.md5sum then (s, false) else ({ s with callbacks := s.callbacks ++ [helper] }, true)

def removeCallback (s : Subscription) (helper : Nat) : Subscription :=
  { s with callbacks := s.callbacks.erase helper }

def shutdown (s : Subscription) : Subscription :=
  if s.dropped then s else { s with dropped := true, publisherLinks := [] }

/-- `addPublisherLink`. The header of the link goes to `headerReceived`. -/
def addPublisherLink (s : Subscription) (p : Nat) (md5sum : Bytes) : Subscription :=
  { s.decay md5sum with publisherLinks := s.publisherLinks ++ [p] }

@[simp] theorem decay_name (s : Subscription) (md5sum : Bytes) : (s.decay md5sum).name = s.name := by
  rw [decay]
  split <;> rfl

@[simp] theorem decay_callbacks (s : Subscription) (md5sum : Bytes) : (s.decay md5sum).callbacks = s.callbacks := by
  rw [decay]
  split <;> rfl

@[simp] theorem decay_publisherLinks (s : Subscription) (md5sum : Bytes) :
    (s.decay md5sum).publisherLinks = s.publisherLinks := by
  rw [decay]
  split <;> rfl

@[simp] theorem decay_dropped (s : Subscription) (md5sum : Bytes) : (s.decay md5sum).dropped = s.dropped := by
  rw [decay]
  split <;> rfl

def join (s : Subscription) (helper : Nat) (md5sum : Bytes) : Subscription :=
  { s.decay md5sum with callbacks := s.callbacks ++ [helper] }

@[simp] theorem join_name (s : Subscription) (helper : Nat) (md5sum : Bytes) : (s.join helper md5sum).name = s.name :=
  decay_name ..

@[simp] theorem join_dropped (s : Subscription) (helper : Nat) (md5sum : Bytes) :
    (s.join helper md5sum).dropped = s.dropped := decay_dropped ..

theorem addCallback_of_match {s : Subscription} {md5sum : Bytes} (h : md5sumsMatch md5sum s.md5sum = true)
    (helper : Nat) : s.addCallback helper md5sum = (s.join helper md5sum, true) := by
  have hReal : ¬ (md5sum ≠ wildcard ∧ md5sum ≠ (s.decay md5sum).md5sum) := by
    rintro ⟨hMd5sum, hOther⟩
    rw [decay] at hOther
    split at hOther
    · exact hOther rfl
    · rename_i hNotWild
      simp [md5sumsMatch, hMd5sum, hNotWild, hOther] at h
  rw [addCallback, if_neg hReal, decay_callbacks, join]

theorem joins_iff {s : Subscription} {topic md5sum : Bytes} :
    s.joins topic md5sum = true ↔ s.name = topic ∧ md5sumsMatch s.md5sum md5sum = true ∧ s.dropped = false := by
  simp [joins, and_assoc]

theorem decay_match (s : Subscription) (md5sum : Bytes) :
    md5sumsMatch (s.decay md5sum).md5sum md5sum = md5sumsMatch s.md5sum md5sum := by
  rw [decay]
  split
  · rename_i hWildcard
    simp [md5sumsMatch, hWildcard]
  · rfl

theorem addPublisherLink_joins (s : Subscription) (p : Nat) (topic md5sum : Bytes) :
    (s.addPublisherLink p md5sum).joins topic md5sum = s.joins topic md5sum := by
  show ((s.decay md5sum).name == topic && md5sumsMatch (s.decay md5sum).md5sum md5sum && !(s.decay md5sum).dropped) = _
  rw [decay_name, decay_match, decay_dropped]
  rfl

end Subscription

namespace TopicManager

variable (t : TopicManager)

def setPublication (p : Nat) (value : Publication) : TopicManager :=
  { t with publication := Function.update t.publication p value }

def setSubscription (s : Nat) (value : Subscription) : TopicManager :=
  { t with subscription := Function.update t.subscription s value }

def lookupPublicationWithoutLock (topic : Bytes) : Option Nat :=
  t.advertisedTopics.find? fun p => (t.publication p).isLive topic

/-- The search of `addSubCallback`. -/
def lookupSubscription (topic : Bytes) : Option Nat :=
  t.subscriptions.find? fun s => (t.subscription s).isLive topic

/-- The search of `advertise` for a subscription of its own. -/
def lookupMatching (topic md5sum : Bytes) : Option Nat :=
  t.subscriptions.find? fun s => (t.subscription s).joins topic md5sum

/-- The first section of `advertise`; a new `Publication` is made at `p`. One without callbacks is passed over. -/
def advertise (ops : Options) (p : Nat) : TopicManager × Advertised :=
  match (t.lookupPublicationWithoutLock ops.topic).filter fun q => (t.publication q).callbacks ≠ [] with
  | some q =>
    if (t.publication q).md5sum ≠ ops.md5sum then (t, .refused)
    else (t.setPublication q ((t.publication q).addCallbacks ops.callback), .joined)
  | none =>
    ({ t.setPublication p ⟨ops.topic, ops.md5sum, [ops.callback], [], false⟩ with
        advertisedTopics := t.advertisedTopics ++ [p] }, .created)

/-- `Subscription::addLocalConnection`, with both ends of the link. -/
def addLocalConnection (s p : Nat) : TopicManager :=
  if (t.subscription s).dropped then t
  else
    (t.setSubscription s ((t.subscription s).addPublisherLink p (t.publication p).md5sum)).setPublication p
      ((t.publication p).addSubscriberLink s)

/-- How often a message that `p` publishes is pushed to the callback of `helper`: once for each link. -/
def delivered (p helper : Nat) : Nat :=
  ((t.publication p).subscriberLinks.map fun s => (t.subscription s).callbacks.count helper).sum

variable {t}

@[simp] theorem publication_setPublication (p : Nat) (value : Publication) :
    (t.setPublication p value).publication p = value := Function.update_self ..

@[simp] theorem subscription_setSubscription (s : Nat) (value : Subscription) :
    (t.setSubscription s value).subscription s = value := Function.update_self ..

@[simp] theorem subscription_setPublication (p : Nat) (value : Publication) :
    (t.setPublication p value).subscription = t.subscription := rfl

@[simp] theorem publication_setSubscription (s : Nat) (value : Subscription) :
    (t.setSubscription s value).publication = t.publication := rfl

@[simp] theorem advertisedTopics_setPublication (p : Nat) (value : Publication) :
    (t.setPublication p value).advertisedTopics = t.advertisedTopics := rfl

@[simp] theorem subscriptions_setSubscription (s : Nat) (value : Subscription) :
    (t.setSubscription s value).subscriptions = t.subscriptions := rfl

theorem publication_setPublication_of_ne {p q : Nat} (h : q ≠ p) (value : Publication) :
    (t.setPublication p value).publication q = t.publication q := Function.update_of_ne h ..

theorem subscription_setSubscription_of_ne {s r : Nat} (h : r ≠ s) (value : Subscription) :
    (t.setSubscription s value).subscription r = t.subscription r := Function.update_of_ne h ..

theorem forall_setSubscription {P : Nat → Subscription → Prop} {s : Nat} {value : Subscription} (hNew : P s value)
    (hOld : ∀ r, r ≠ s → P r (t.subscription r)) (r : Nat) : P r ((t.setSubscription s value).subscription r) := by
  obtain rfl | hNe := eq_or_ne r s
  · rw [subscription_setSubscription]
    exact hNew
  · rw [subscription_setSubscription_of_ne hNe]
    exact hOld r hNe

theorem forall_setPublication {P : Nat → Publication → Prop} {p : Nat} {value : Publication} (hNew : P p value)
    (hOld : ∀ q, q ≠ p → P q (t.publication q)) (q : Nat) : P q ((t.setPublication p value).publication q) := by
  obtain rfl | hNe := eq_or_ne q p
  · rw [publication_setPublication]
    exact hNew
  · rw [publication_setPublication_of_ne hNe]
    exact hOld q hNe

@[simp] theorem setSubscription_setSubscription (s : Nat) (value value' : Subscription) :
    (t.setSubscription s value).setSubscription s value' = t.setSubscription s value' := by
  rw [setSubscription, setSubscription, setSubscription, Function.update_idem]

theorem lookupPublication_setPublication {p : Nat} {value : Publication} {topic : Bytes}
    (h : value.isLive topic = (t.publication p).isLive topic) :
    (t.setPublication p value).lookupPublicationWithoutLock topic = t.lookupPublicationWithoutLock topic := by
  have hSame : (fun q => ((t.setPublication p value).publication q).isLive topic) =
      fun q => (t.publication q).isLive topic := by
    funext q
    obtain rfl | hNe := eq_or_ne q p
    · rw [publication_setPublication, h]
    · rw [publication_setPublication_of_ne hNe]
  rw [lookupPublicationWithoutLock, hSame]
  rfl

theorem lookupMatching_setSubscription {s : Nat} {value : Subscription} {topic md5sum : Bytes}
    (h : s ∈ t.subscriptions → value.joins topic md5sum = (t.subscription s).joins topic md5sum) :
    (t.setSubscription s value).lookupMatching topic md5sum = t.lookupMatching topic md5sum := by
  refine List.find?_congr fun r hr => ?_
  obtain rfl | hNe := eq_or_ne r s
  · rw [subscription_setSubscription, h hr]
  · rw [subscription_setSubscription_of_ne hNe]

theorem lookupPublication_push {p : Nat} {value : Publication} {topic : Bytes} (hNew : p ∉ t.advertisedTopics)
    (hNone : t.lookupPublicationWithoutLock topic = none) (hLive : value.isLive topic = true) :
    lookupPublicationWithoutLock
      { t.setPublication p value with advertisedTopics := t.advertisedTopics ++ [p] } topic = some p := by
  have hOld : t.advertisedTopics.find? (fun q => ((t.setPublication p value).publication q).isLive topic) = none := by
    rw [← hNone]
    refine List.find?_congr fun q hq => ?_
    have hNe : q ≠ p := fun hEq => hNew (hEq ▸ hq)
    rw [publication_setPublication_of_ne hNe]
  show (t.advertisedTopics ++ [p]).find? (fun q => ((t.setPublication p value).publication q).isLive topic) = some p
  rw [List.find?_append, hOld, Option.none_or, List.find?_singleton, publication_setPublication, if_pos hLive]

theorem lookupMatching_push {s : Nat} {topic md5sum : Bytes} (hNone : t.lookupMatching topic md5sum = none)
    (hJoins : (t.subscription s).joins topic md5sum = true) :
    lookupMatching { t with subscriptions := t.subscriptions ++ [s] } topic md5sum = some s := by
  show (t.subscriptions ++ [s]).find? (fun r => (t.subscription r).joins topic md5sum) = some s
  have hOld : t.subscriptions.find? (fun r => (t.subscription r).joins topic md5sum) = none := hNone
  rw [List.find?_append, hOld, Option.none_or, List.find?_singleton, if_pos hJoins]

end TopicManager

end XcRos.Libros.Topics
