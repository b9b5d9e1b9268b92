import Mathlib.Data.List.Range
import Mathlib.Data.List.Infix

/-! # Delivery inside the process

`TopicManager::publish` decides for each message between the path without a copy, which delivers at
once, and the serialized one, which `processPublishQueue` delivers. Messages are numbered in the order
in which they are published. C++ types are of any type `τ` that has equality, as `type_info` has.
-/

namespace XcRos.Libros.IntraProcess

open scoped List

variable {τ : Type} [DecidableEq τ]

/-- Whether there is a buffer, whether there is a pointer to the message, and its type. -/
structure SerializedMessage (τ : Type) where
  buf : Bool
  message : Bool
  typeInfo : Option τ
  deriving DecidableEq

/-- A callback of a subscription, with the messages that its `SubscriptionQueue` was pushed. -/
structure CallbackInfo (τ : Type) where
  typeInfo : τ
  pushed : List Nat
  deriving DecidableEq

/-- A link to a subscription inside the process, with its callbacks, or to another process. -/
inductive SubscriberLink (κ : Type) where
  | intraprocess (callbacks : List κ)
  | transport
  deriving DecidableEq

namespace SubscriberLink

def map {κ κ' : Type} (f : κ → κ') : SubscriberLink κ → SubscriberLink κ'
  | intraprocess callbacks => intraprocess (callbacks.map f)
  | transport => transport

def callbacks {κ : Type} : SubscriberLink κ → List κ
  | intraprocess callbacks => callbacks
  | transport => []

end SubscriberLink

/-- The test of `Subscription::handleMessage` for one callback. -/
def wants (m : SerializedMessage τ) (ser nocopy : Bool) (ti : τ) : Bool :=
  (nocopy && m.typeInfo == some ti) || (ser && !(m.typeInfo == some ti))

def CallbackInfo.handleMessage (number : Nat) (m : SerializedMessage τ) (ser nocopy : Bool)
    (info : CallbackInfo τ) : CallbackInfo τ :=
  if wants m ser nocopy info.typeInfo then { info with pushed := info.pushed ++ [number] } else info

/-- `Subscription::handleMessage`, which the links inside the process come to. -/
def SubscriberLink.enqueueMessage (number : Nat) (m : SerializedMessage τ) (ser nocopy : Bool)
    (link : SubscriberLink (CallbackInfo τ)) : SubscriberLink (CallbackInfo τ) :=
  link.map (CallbackInfo.handleMessage number m ser nocopy)

/-- `Subscription::getPublishTypes`: `ser` and `nocopy`, with the early return. -/
def subscriptionPublishTypes (ti : τ) : List (CallbackInfo τ) → Bool → Bool → Bool × Bool
  | [], ser, nocopy => (ser, nocopy)
  | info :: rest, ser, nocopy =>
    let types := if info.typeInfo = ti then (ser, true) else (true, nocopy)
    if types.2 && types.1 then types else subscriptionPublishTypes ti rest types.1 types.2

def SubscriberLink.getPublishTypes (ti : τ) : SubscriberLink (CallbackInfo τ) → Bool × Bool
  | intraprocess callbacks => subscriptionPublishTypes ti callbacks false false
  | transport => (true, false)

/-- `Publication::getPublishTypes` -/
def publicationPublishTypes (ti : τ) : List (SubscriberLink (CallbackInfo τ)) → Bool → Bool → Bool × Bool
  | [], serialize, nocopy => (serialize, nocopy)
  | sub :: rest, serialize, nocopy =>
    let serialize := serialize || (sub.getPublishTypes ti).1
    let nocopy := nocopy || (sub.getPublishTypes ti).2
    if serialize && nocopy then (serialize, nocopy) else publicationPublishTypes ti rest serialize nocopy

structure Publication (τ : Type) where
  links : List (SubscriberLink (CallbackInfo τ))
  publishQueue : List (Nat × SerializedMessage τ)
  published : Nat
  deriving DecidableEq

namespace Publication

def start (links : List (SubscriberLink τ)) : Publication τ where
  links := links.map (SubscriberLink.map fun ti => ⟨ti, []⟩)
  publishQueue := []
  published := 0

/-- `Publication::publish`. The pointer is given up before the message is stored. -/
def publish (p : Publication τ) (m : SerializedMessage τ) : Publication τ where
  links := if m.message then p.links.map (SubscriberLink.enqueueMessage p.published m false true) else p.links
  publishQueue := if m.buf then p.publishQueue ++ [(p.published, { m with message := false })] else p.publishQueue
  published := p.published + 1

def processPublishQueue (p : Publication τ) : Publication τ :=
  p.publishQueue.foldl
    (fun p entry => { p with links := p.links.map (SubscriberLink.enqueueMessage entry.1 entry.2 true false) })
    { p with publishQueue := [] }

end Publication

/-- What kinds of subscribers a message is published to: whether it is serialized, and whether some get it
without a copy. -/
def publishTypes (p : Publication τ) (m : SerializedMessage τ) : Bool × Bool :=
  match m.typeInfo with
  | some ti => if m.message then publicationPublishTypes ti p.links false false else (true, false)
  | none => (true, false)

/-- What `TopicManager::publish` makes of the message before it passes it on. -/
def prepare (latching : Bool) (p : Publication τ) (m : SerializedMessage τ) : SerializedMessage τ :=
  let types := publishTypes p m
  let m := if types.2 then m else { m with message := false, typeInfo := none }
  if types.1 || latching then { m with buf := true } else m

/-- `TopicManager::publish` -/
def publish (latching : Bool) (p : Publication τ) (m : SerializedMessage τ) : Publication τ :=
  if p.links ≠ [] ∨ latching then p.publish (prepare latching p m)
  else { p with published := p.published + 1 }

inductive Call (τ : Type) where
  | publish (m : SerializedMessage τ)
  | processPublishQueue
  deriving DecidableEq

def step (latching : Bool) (p : Publication τ) : Call τ → Publication τ
  | .publish m => publish latching p m
  | .processPublishQueue => p.processPublishQueue

def run (latching : Bool) (links : List (SubscriberLink τ)) (calls : List (Call τ)) : Publication τ :=
  calls.foldl (step latching) (.start links)

/-! ## The types that are asked for -/

theorem subscriptionPublishTypes_eq (ti : τ) (callbacks : List (CallbackInfo τ)) (ser nocopy : Bool) :
    subscriptionPublishTypes ti callbacks ser nocopy =
      (ser || callbacks.any fun info => info.typeInfo ≠ ti,
        nocopy || callbacks.any fun info => info.typeInfo = ti) := by
  induction callbacks generalizing ser nocopy with
  | nil => simp [subscriptionPublishTypes]
  | cons info rest ih =>
    rw [subscriptionPublishTypes]
    by_cases hType : info.typeInfo = ti
    · simp only [hType, if_true, List.any_cons, ih]
      cases ser <;> simp
    · simp only [hType, if_false, List.any_cons, ih]
      cases nocopy <;> simp [hType]

theorem getPublishTypes_eq (ti : τ) (link : SubscriberLink (CallbackInfo τ)) :
    (link.getPublishTypes ti).2 = link.callbacks.any (fun info => info.typeInfo = ti) ∧
      ∀ info ∈ link.callbacks, info.typeInfo ≠ ti → (link.getPublishTypes ti).1 = true := by
  cases link with
  | transport => exact ⟨rfl, fun info hInfo => absurd hInfo List.not_mem_nil⟩
  | intraprocess callbacks =>
    rw [SubscriberLink.getPublishTypes, subscriptionPublishTypes_eq, Bool.false_or, Bool.false_or]
    exact ⟨rfl, fun info hInfo hType => List.any_eq_true.mpr ⟨info, hInfo, by simpa using hType⟩⟩

theorem publicationPublishTypes_eq (ti : τ) (links : List (SubscriberLink (CallbackInfo τ)))
    (serialize nocopy : Bool) :
    publicationPublishTypes ti links serialize nocopy =
      (serialize || links.any fun sub => (sub.getPublishTypes ti).1,
        nocopy || links.any fun sub => (sub.getPublishTypes ti).2) := by
  induction links generalizing serialize nocopy with
  | nil => simp [publicationPublishTypes]
  | cons sub rest ih =>
    simp only [publicationPublishTypes, List.any_cons]
    split
    · rename_i hBoth
      obtain ⟨hSerialize, hNocopy⟩ := Bool.and_eq_true_iff.mp hBoth
      rw [← Bool.or_assoc, ← Bool.or_assoc, hSerialize, hNocopy, Bool.true_or, Bool.true_or]
    · rw [ih, Bool.or_assoc, Bool.or_assoc]

def Uncopied (m : SerializedMessage τ) (ti : τ) : Prop := m.message = true ∧ m.typeInfo = some ti

instance (m : SerializedMessage τ) (ti : τ) : Decidable (Uncopied m ti) := inferInstanceAs (Decidable (_ ∧ _))

/-! ## What a callback is owed -/

/-- What a callback has got, what is stored for it, and how many messages there have been. -/
structure Owed where
  pushed : List Nat
  pending : List Nat
  published : Nat

def Owed.step (ti : τ) (o : Owed) : Call τ → Owed
  | .publish m =>
    if Uncopied m ti then ⟨o.pushed ++ [o.published], o.pending, o.published + 1⟩
    else ⟨o.pushed, o.pending ++ [o.published], o.published + 1⟩
  | .processPublishQueue => ⟨o.pushed ++ o.pending, [], o.published⟩

def owed (ti : τ) (calls : List (Call τ)) : Owed := calls.foldl (Owed.step ti) ⟨[], [], 0⟩

theorem owed_concat (ti : τ) (calls : List (Call τ)) (call : Call τ) :
    owed ti (calls ++ [call]) = (owed ti calls).step ti call := by
  rw [owed, List.foldl_concat, owed]

theorem run_concat (latching : Bool) (links : List (SubscriberLink τ)) (calls : List (Call τ)) (call : Call τ) :
    run latching links (calls ++ [call]) = step latching (run latching links calls) call := by
  rw [run, List.foldl_concat, run]

def pendingFor (ti : τ) (queue : List (Nat × SerializedMessage τ)) : List Nat :=
  (queue.filter fun entry => wants entry.2 true false ti).map Prod.fst

/-- The publication does for each callback what its type alone decides. -/
structure Tracks (links : List (SubscriberLink τ)) (p : Publication τ) (o : τ → Owed) : Prop where
  linked : p.links = links.map (SubscriberLink.map fun ti => ⟨ti, (o ti).pushed⟩)
  pending : ∀ link ∈ links, ∀ ti ∈ link.callbacks, pendingFor ti p.publishQueue = (o ti).pending
  published : ∀ ti, p.published = (o ti).published

theorem map_map {κ κ' κ'' : Type} (f : κ → κ') (g : κ' → κ'') (link : SubscriberLink κ) :
    (link.map f).map g = link.map (g ∘ f) := by
  cases link with
  | intraprocess callbacks => exact congrArg SubscriberLink.intraprocess List.map_map
  | transport => rfl

theorem map_self {κ : Type} (link : SubscriberLink κ) : link.map (fun info => info) = link := by
  cases link with
  | intraprocess callbacks => exact congrArg SubscriberLink.intraprocess (List.map_id' callbacks)
  | transport => rfl

theorem callbacks_map {κ κ' : Type} (f : κ → κ') (link : SubscriberLink κ) :
    (link.map f).callbacks = link.callbacks.map f := by
  cases link <;> rfl

theorem map_congr {κ κ' : Type} {f g : κ → κ'} {link : SubscriberLink κ}
    (h : ∀ info ∈ link.callbacks, f info = g info) : link.map f = link.map g := by
  cases link with
  | intraprocess callbacks => exact congrArg SubscriberLink.intraprocess (List.map_congr_left h)
  | transport => rfl

variable {links : List (SubscriberLink τ)} {p : Publication τ} {o : τ → Owed}

omit [DecidableEq τ] in
theorem linked_of_forall {o' : τ → Owed}
    (h : p.links = links.map (SubscriberLink.map fun ti => ⟨ti, (o ti).pushed⟩))
    {f : CallbackInfo τ → CallbackInfo τ}
    (hf : ∀ link ∈ links, ∀ ti ∈ link.callbacks, f ⟨ti, (o ti).pushed⟩ = ⟨ti, (o' ti).pushed⟩) :
    p.links.map (SubscriberLink.map f) = links.map (SubscriberLink.map fun ti => ⟨ti, (o' ti).pushed⟩) := by
  rw [h, List.map_map]
  refine List.map_congr_left fun link hLink => ?_
  rw [Function.comp, map_map]
  exact map_congr fun ti hTi => hf link hLink ti hTi

theorem pendingFor_cons (ti : τ) (entry : Nat × SerializedMessage τ) (rest : List (Nat × SerializedMessage τ)) :
    pendingFor ti (entry :: rest) =
      if wants entry.2 true false ti then entry.1 :: pendingFor ti rest else pendingFor ti rest := by
  rw [pendingFor, List.filter_cons]
  split <;> rfl

theorem pendingFor_append (ti : τ) (front back : List (Nat × SerializedMessage τ)) :
    pendingFor ti (front ++ back) = pendingFor ti front ++ pendingFor ti back := by
  rw [pendingFor, List.filter_append, List.map_append]
  rfl

theorem pendingFor_singleton (ti : τ) (entry : Nat × SerializedMessage τ) :
    pendingFor ti [entry] = if wants entry.2 true false ti then [entry.1] else [] :=
  pendingFor_cons ti entry []

def CallbackInfo.receive (queue : List (Nat × SerializedMessage τ)) (info : CallbackInfo τ) : CallbackInfo τ :=
  { info with pushed := info.pushed ++ pendingFor info.typeInfo queue }

theorem receive_cons (entry : Nat × SerializedMessage τ) (rest : List (Nat × SerializedMessage τ))
    (info : CallbackInfo τ) :
    (info.handleMessage entry.1 entry.2 true false).receive rest = info.receive (entry :: rest) := by
  rw [CallbackInfo.handleMessage, CallbackInfo.receive, CallbackInfo.receive, pendingFor_cons]
  split
  · exact congrArg (CallbackInfo.mk info.typeInfo) (List.append_assoc ..)
  · rfl

theorem foldl_enqueueMessage (queue : List (Nat × SerializedMessage τ)) (p : Publication τ) :
    queue.foldl
        (fun p entry => { p with links := p.links.map (SubscriberLink.enqueueMessage entry.1 entry.2 true false) })
        p =
      { p with links := p.links.map (SubscriberLink.map (CallbackInfo.receive queue)) } := by
  induction queue generalizing p with
  | nil =>
    have hSame : ∀ link ∈ p.links, link.map (CallbackInfo.receive []) = link := fun link _ =>
      (map_congr fun info _ => congrArg (CallbackInfo.mk info.typeInfo) (List.append_nil _)).trans (map_self link)
    rw [List.foldl_nil, List.map_congr_left hSame, List.map_id']
  | cons entry rest ih =>
    rw [List.foldl_cons, ih, List.map_map]
    refine congrArg (fun links => { p with links := links }) (List.map_congr_left fun link _ => ?_)
    rw [Function.comp, SubscriberLink.enqueueMessage, map_map]
    exact map_congr fun info _ => receive_cons entry rest info

theorem tracks_processPublishQueue (h : Tracks links p o) :
    Tracks links p.processPublishQueue fun ti => (o ti).step ti .processPublishQueue := by
  rw [Publication.processPublishQueue, foldl_enqueueMessage]
  refine ⟨?_, fun _ _ _ _ => rfl, h.published⟩
  refine linked_of_forall h.linked fun link hLink ti hTi => ?_
  rw [CallbackInfo.receive, h.pending link hLink ti hTi]
  rfl

theorem prepare_eq (latching : Bool) (p : Publication τ) (m : SerializedMessage τ) :
    prepare latching p m =
      ⟨(publishTypes p m).1 || latching || m.buf, (publishTypes p m).2 && m.message,
        if (publishTypes p m).2 then m.typeInfo else none⟩ := by
  rw [prepare]
  cases (publishTypes p m).2 <;> cases (publishTypes p m).1 || latching <;> rfl

theorem prepare_spec (latching : Bool) (m : SerializedMessage τ) {link : SubscriberLink (CallbackInfo τ)}
    (hLink : link ∈ p.links) {info : CallbackInfo τ} (hInfo : info ∈ link.callbacks) :
    (Uncopied m info.typeInfo →
        (prepare latching p m).message = true ∧ (prepare latching p m).typeInfo = some info.typeInfo) ∧
      (¬ Uncopied m info.typeInfo →
        (prepare latching p m).buf = true ∧ (prepare latching p m).typeInfo ≠ some info.typeInfo) := by
  rw [prepare_eq]
  dsimp only
  cases hType : m.typeInfo with
  | none =>
    have hTypes : publishTypes p m = (true, false) := by rw [publishTypes, hType]
    rw [hTypes]
    refine ⟨fun h => ?_, fun _ => ⟨rfl, (Option.some_ne_none _).symm⟩⟩
    rw [h.2] at hType
    cases hType
  | some ti =>
    by_cases hMessage : m.message = true
    · have hTypes : publishTypes p m = publicationPublishTypes ti p.links false false := by
        simp only [publishTypes, hType, if_pos hMessage]
      rw [publicationPublishTypes_eq, Bool.false_or, Bool.false_or] at hTypes
      obtain ⟨hNocopy, hSer⟩ := getPublishTypes_eq ti link
      rw [hTypes, hMessage]
      by_cases hSame : ti = info.typeInfo
      · have hAny : (p.links.any fun sub => (sub.getPublishTypes ti).2) = true := by
          refine List.any_eq_true.mpr ⟨link, hLink, ?_⟩
          rw [hNocopy]
          exact List.any_eq_true.mpr ⟨info, hInfo, by simpa using hSame.symm⟩
        rw [hAny]
        exact ⟨fun _ => ⟨rfl, congrArg some hSame⟩, fun h => absurd ⟨hMessage, hSame ▸ hType⟩ h⟩
      · have hAny : (p.links.any fun sub => (sub.getPublishTypes ti).1) = true :=
          List.any_eq_true.mpr ⟨link, hLink, hSer info hInfo (Ne.symm hSame)⟩
        rw [hAny]
        refine ⟨fun h => ?_, fun _ => ⟨rfl, fun h => ?_⟩⟩
        · exact absurd (Option.some.inj (hType.symm.trans h.2)) hSame
        · dsimp only at h
          split at h
          · exact hSame (Option.some.inj h)
          · cases h
    · have hTypes : publishTypes p m = (true, false) := by simp only [publishTypes, hType, if_neg hMessage]
      rw [hTypes]
      exact ⟨fun h => absurd h.1 hMessage, fun _ => ⟨rfl, (Option.some_ne_none _).symm⟩⟩

theorem publish_links (p : Publication τ) (m : SerializedMessage τ) :
    (p.publish m).links =
      p.links.map (SubscriberLink.map fun info =>
        if m.message then info.handleMessage p.published m false true else info) := by
  rw [Publication.publish]
  cases m.message with
  | true => rfl
  | false =>
    have hSame : ∀ link ∈ p.links, link.map (fun info => info) = link := fun link _ => map_self link
    exact ((List.map_congr_left hSame).trans (List.map_id' _)).symm

theorem publish_pendingFor (p : Publication τ) (m : SerializedMessage τ) (ti : τ) :
    pendingFor ti (p.publish m).publishQueue =
      pendingFor ti p.publishQueue ++ if m.buf = true ∧ m.typeInfo ≠ some ti then [p.published] else [] := by
  have hWants (buf : Bool) : wants ⟨buf, false, m.typeInfo⟩ true false ti = !(m.typeInfo == some ti) := by
    rw [wants]
    rfl
  rw [Publication.publish]
  cases hBuf : m.buf with
  | false => simp
  | true =>
    simp only [if_true, pendingFor_append, pendingFor_singleton, hWants]
    simp

theorem tracks_publish (h : Tracks links p o) (latching : Bool) (m : SerializedMessage τ) :
    Tracks links (publish latching p m) fun ti => (o ti).step ti (.publish m) := by
  have hPublished : ∀ ti, p.published + 1 = ((o ti).step ti (.publish m)).published := by
    intro ti
    rw [Owed.step, h.published ti]
    split <;> rfl
  rw [publish]
  split
  · have hSpec : ∀ link ∈ links, ∀ ti ∈ link.callbacks,
        (Uncopied m ti → (prepare latching p m).message = true ∧ (prepare latching p m).typeInfo = some ti) ∧
          (¬ Uncopied m ti → (prepare latching p m).buf = true ∧ (prepare latching p m).typeInfo ≠ some ti) := by
      intro link hLink ti hTi
      have hMem : link.map (fun ti => ⟨ti, (o ti).pushed⟩) ∈ p.links := by
        rw [h.linked]
        exact List.mem_map_of_mem hLink
      have hInfo : (⟨ti, (o ti).pushed⟩ : CallbackInfo τ) ∈ (link.map fun ti => ⟨ti, (o ti).pushed⟩).callbacks := by
        rw [callbacks_map]
        exact List.mem_map_of_mem hTi
      exact prepare_spec latching m hMem hInfo
    refine ⟨?_, fun link hLink ti hTi => ?_, hPublished⟩
    · rw [publish_links]
      refine linked_of_forall h.linked fun link hLink ti hTi => ?_
      obtain ⟨hUncopied, hSerialized⟩ := hSpec link hLink ti hTi
      rw [Owed.step, CallbackInfo.handleMessage, wants, Bool.true_and, Bool.false_and, Bool.or_false,
        h.published ti]
      by_cases hm : Uncopied m ti
      · obtain ⟨hMessage, hType⟩ := hUncopied hm
        simp only [hm, hMessage, hType, if_true, beq_self_eq_true]
      · have hType := (hSerialized hm).2
        simp only [hm, if_false, beq_iff_eq, hType, ite_self]
    · obtain ⟨hUncopied, hSerialized⟩ := hSpec link hLink ti hTi
      rw [publish_pendingFor, h.pending link hLink ti hTi, Owed.step, h.published ti]
      by_cases hm : Uncopied m ti
      · rw [if_pos hm, if_neg fun h => h.2 (hUncopied hm).2, List.append_nil]
      · rw [if_neg hm, if_pos (hSerialized hm)]
  · rename_i hNone
    have hEmpty : p.links = [] := by
      by_contra hSome
      exact hNone (.inl hSome)
    have hLinks : links = [] := by
      have hLinked := h.linked
      rw [hEmpty] at hLinked
      exact List.map_eq_nil_iff.mp hLinked.symm
    subst hLinks
    exact ⟨hEmpty, fun link hLink => absurd hLink List.not_mem_nil, hPublished⟩

theorem tracks_run (latching : Bool) (links : List (SubscriberLink τ)) (calls : List (Call τ)) :
    Tracks links (run latching links calls) fun ti => owed ti calls := by
  induction calls using List.reverseRecOn with
  | nil => exact ⟨rfl, fun _ _ _ _ => rfl, fun _ => rfl⟩
  | append_singleton calls call ih =>
    simp only [run_concat, owed_concat]
    cases call with
    | publish m => exact tracks_publish ih latching m
    | processPublishQueue => exact tracks_processPublishQueue ih

/-! ## Once, and in order -/

/-- A message that goes to the callback serialized has been published, and the queue not processed since. -/
def Waiting (ti : τ) (calls : List (Call τ)) : Prop :=
  ∃ front m back, calls = front ++ .publish m :: back ∧ ¬ Uncopied m ti ∧ .processPublishQueue ∉ back

/-- No message goes to the callback without a copy while an earlier one is waiting for it. -/
def NotOvertaken (ti : τ) (calls : List (Call τ)) : Prop :=
  ∀ front m back, calls = front ++ .publish m :: back → Uncopied m ti → ¬ Waiting ti front

variable {ti : τ} {calls : List (Call τ)} {m : SerializedMessage τ}

omit [DecidableEq τ] in
theorem concat_eq_append_cons_iff {front back : List (Call τ)} {last call : Call τ} :
    calls ++ [last] = front ++ call :: back ↔
      (calls = front ∧ last = call ∧ back = []) ∨ ∃ back', back = back' ++ [last] ∧ calls = front ++ call :: back' := by
  constructor
  · intro h
    obtain rfl | ⟨back', other, rfl⟩ := List.eq_nil_or_concat' back
    · obtain ⟨hFront, hLast⟩ := List.append_inj' h rfl
      exact .inl ⟨hFront, List.singleton_inj.mp hLast, rfl⟩
    · rw [← List.cons_append, ← List.append_assoc] at h
      obtain ⟨hFront, hLast⟩ := List.append_inj' h rfl
      rw [List.singleton_inj.mp hLast]
      exact .inr ⟨back', rfl, hFront⟩
  · rintro (⟨rfl, rfl, rfl⟩ | ⟨back', rfl, rfl⟩)
    · rfl
    · rw [List.append_assoc, List.cons_append]

theorem not_waiting_concat_process : ¬ Waiting ti (calls ++ [.processPublishQueue]) := by
  rintro ⟨front, m, back, hCalls, -, hBack⟩
  obtain ⟨-, hLast, -⟩ | ⟨back', rfl, -⟩ := concat_eq_append_cons_iff.mp hCalls
  · cases hLast
  · exact hBack (List.mem_append_right _ List.mem_cons_self)

theorem waiting_concat_publish_iff :
    Waiting ti (calls ++ [.publish m]) ↔ Waiting ti calls ∨ ¬ Uncopied m ti := by
  constructor
  · rintro ⟨front, m', back, hCalls, hSerialized, hBack⟩
    obtain ⟨-, hLast, -⟩ | ⟨back', rfl, rfl⟩ := concat_eq_append_cons_iff.mp hCalls
    · cases hLast
      exact .inr hSerialized
    · exact .inl ⟨front, m', back', rfl, hSerialized, fun h => hBack (List.mem_append_left _ h)⟩
  · rintro (⟨front, m', back, rfl, hSerialized, hBack⟩ | hSerialized)
    · refine ⟨front, m', back ++ [.publish m], by rw [List.append_assoc, List.cons_append], hSerialized, ?_⟩
      rw [List.mem_append, List.mem_singleton]
      rintro (h | h)
      · exact hBack h
      · cases h
    · exact ⟨calls, m, [], rfl, hSerialized, List.not_mem_nil⟩

theorem notOvertaken_concat_process :
    NotOvertaken ti (calls ++ [.processPublishQueue]) ↔ NotOvertaken ti calls := by
  constructor
  · intro h front m back hCalls
    exact h front m (back ++ [.processPublishQueue]) (by rw [hCalls, List.append_assoc, List.cons_append])
  · intro h front m back hCalls
    obtain ⟨-, hLast, -⟩ | ⟨back', -, hOld⟩ := concat_eq_append_cons_iff.mp hCalls
    · cases hLast
    · exact h front m back' hOld

theorem notOvertaken_concat_publish_iff :
    NotOvertaken ti (calls ++ [.publish m]) ↔ NotOvertaken ti calls ∧ (Uncopied m ti → ¬ Waiting ti calls) := by
  constructor
  · intro h
    refine ⟨fun front m' back hCalls => ?_, h calls m [] rfl⟩
    exact h front m' (back ++ [.publish m]) (by rw [hCalls, List.append_assoc, List.cons_append])
  · rintro ⟨h, hNew⟩ front m' back hCalls
    obtain ⟨rfl, hLast, -⟩ | ⟨back', -, hOld⟩ := concat_eq_append_cons_iff.mp hCalls
    · cases hLast
      exact hNew
    · exact h front m' back' hOld

theorem owed_spec (ti : τ) (calls : List (Call τ)) :
    ((owed ti calls).pushed ++ (owed ti calls).pending).Perm (List.range (owed ti calls).published) ∧
      ((owed ti calls).pending ≠ [] ↔ Waiting ti calls) ∧
      ((owed ti calls).pushed ++ (owed ti calls).pending = List.range (owed ti calls).published ↔
        NotOvertaken ti calls) := by
  induction calls using List.reverseRecOn with
  | nil =>
    refine ⟨List.Perm.refl _, iff_of_false (fun h => h rfl) ?_, iff_of_true rfl ?_⟩
    · rintro ⟨front, m, back, hCalls, -⟩
      exact absurd hCalls (by simp)
    · intro front m back hCalls
      exact absurd hCalls (by simp)
  | append_singleton calls call ih =>
    obtain ⟨hOnce, hWaiting, hOrder⟩ := ih
    rw [owed_concat]
    cases call with
    | processPublishQueue =>
      rw [notOvertaken_concat_process, Owed.step, List.append_nil]
      exact ⟨hOnce, iff_of_false (fun h => h rfl) not_waiting_concat_process, hOrder⟩
    | publish m =>
      rw [waiting_concat_publish_iff, notOvertaken_concat_publish_iff, Owed.step, ← hOrder, ← hWaiting]
      by_cases hm : Uncopied m ti
      · rw [if_pos hm]
        dsimp only
        rw [List.range_succ]
        refine ⟨?_, by simp [hm], ?_⟩
        · calc (owed ti calls).pushed ++ [(owed ti calls).published] ++ (owed ti calls).pending
              = (owed ti calls).pushed ++ (owed ti calls).published :: (owed ti calls).pending := by
                rw [List.append_assoc, List.singleton_append]
            _ ~ (owed ti calls).published :: ((owed ti calls).pushed ++ (owed ti calls).pending) := List.perm_middle
            _ ~ ((owed ti calls).pushed ++ (owed ti calls).pending) ++ [(owed ti calls).published] :=
                (List.perm_append_singleton ..).symm
            _ ~ List.range (owed ti calls).published ++ [(owed ti calls).published] := hOnce.append_right _
        · constructor
          · intro hSame
            -- The last message pushed is the newest, so nothing older can stand behind it.
            have hNone : (owed ti calls).pending = [] := by
              by_contra hSome
              have hLast := congrArg List.getLast? hSame
              rw [List.getLast?_append_of_ne_nil _ hSome, List.getLast?_concat] at hLast
              have hMem := hOnce.mem_iff.mp (List.mem_append_right _ (List.mem_of_getLast? hLast))
              exact Nat.lt_irrefl _ (List.mem_range.mp hMem)
            rw [hNone, List.append_nil] at hSame
            exact ⟨by rw [hNone, List.append_nil]; exact List.append_cancel_right hSame, fun _ h => h hNone⟩
          · rintro ⟨hSame, hEmpty⟩
            have hNone := not_not.mp (hEmpty hm)
            rw [hNone, List.append_nil] at hSame ⊢
            rw [hSame]
      · rw [if_neg hm]
        dsimp only
        rw [List.range_succ, ← List.append_assoc]
        refine ⟨hOnce.append_right _, by simp [hm], ?_⟩
        rw [List.append_left_inj]
        exact (and_iff_left fun h => absurd h hm).symm

def isPublish : Call τ → Bool
  | .publish _ => true
  | .processPublishQueue => false

theorem published_owed (ti : τ) (calls : List (Call τ)) :
    (owed ti calls).published = calls.countP isPublish := by
  induction calls using List.reverseRecOn with
  | nil => rfl
  | append_singleton calls call ih =>
    rw [owed_concat, List.countP_append, ← ih]
    cases call with
    | processPublishQueue => rfl
    | publish m =>
      rw [Owed.step]
      split <;> rfl

/-- After a last pass each callback has been pushed every message once, and in order exactly when no
message for it was overtaken by one without a copy. -/
theorem pushed_once (latching : Bool) (links : List (SubscriberLink τ)) (calls : List (Call τ)) {i j : Nat}
    {link : SubscriberLink τ} {ti : τ} (hLink : links[i]? = some link) (hCallback : link.callbacks[j]? = some ti) :
    ∃ link' info, (run latching links (calls ++ [.processPublishQueue])).links[i]? = some link' ∧
      link'.callbacks[j]? = some info ∧ info.typeInfo = ti ∧
      info.pushed.Perm (List.range (calls.countP isPublish)) ∧
      (info.pushed = List.range (calls.countP isPublish) ↔ NotOvertaken ti calls) := by
  have hTracks := tracks_run latching links (calls ++ [.processPublishQueue])
  have hPublished : (owed ti (calls ++ [.processPublishQueue])).published = calls.countP isPublish := by
    rw [published_owed, List.countP_append]
    rfl
  obtain ⟨hOnce, -, hOrder⟩ := owed_spec ti (calls ++ [.processPublishQueue])
  have hPending : (owed ti (calls ++ [.processPublishQueue])).pending = [] := by
    rw [owed_concat]
    rfl
  rw [hPending, List.append_nil, hPublished] at hOnce hOrder
  rw [notOvertaken_concat_process] at hOrder
  refine ⟨link.map fun ti => ⟨ti, (owed ti (calls ++ [.processPublishQueue])).pushed⟩, ⟨ti, _⟩, ?_, ?_, rfl, hOnce,
    hOrder⟩
  · rw [hTracks.linked, List.getElem?_map, hLink]
    rfl
  · rw [callbacks_map, List.getElem?_map, hCallback]
    rfl

/-- One callback, a message by reference and then one of the callback's type by pointer. -/
theorem overtaken :
    ((run false [.intraprocess [()]]
        [.publish ⟨false, false, none⟩, .publish ⟨false, true, some ()⟩, .processPublishQueue]).links =
      [.intraprocess [⟨(), [1, 0]⟩]]) := by
  decide

theorem pushed_once_sample :
    ∃ link info, (run true [.intraprocess [false, true]]
          ([.publish ⟨false, true, some true⟩, .publish ⟨false, true, some false⟩] ++ [.processPublishQueue])).links[0]? =
        some link ∧
      link.callbacks[1]? = some info ∧ info.typeInfo = true ∧ info.pushed.Perm (List.range 2) ∧
      (info.pushed = List.range 2 ↔
        NotOvertaken true [.publish ⟨false, true, some true⟩, .publish ⟨false, true, some false⟩]) :=
  pushed_once true [.intraprocess [false, true]]
    [.publish ⟨false, true, some true⟩, .publish ⟨false, true, some false⟩] rfl rfl

end XcRos.Libros.IntraProcess
