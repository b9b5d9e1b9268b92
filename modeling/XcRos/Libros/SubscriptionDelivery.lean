import Mathlib.Algebra.Ring.Nat
import Mathlib.Logic.Function.Basic
import XcRos.Foundation.Machine
import XcRos.Libros.CallbackThread
import XcRos.Libros.SubscriptionQueue

/-! # Delivery of the messages of a subscription

Any number of threads in `Subscription::handleMessage` and in the calls of one callback queue. A
callback of the subscription is named by the address of its `CallbackInfo`, which is also the id
under which its `SubscriptionQueue` is added to the callback queue.
-/

namespace XcRos.Libros.Delivery

open XcRos.Foundation

/-- Where a thread is in `SubscriptionQueue::call`; `called` is in the helper with its message. -/
inductive Place (μ : Type) where
  | entered
  | locked
  | called (i : μ)
  | leaving (result : CallResult)

/-- A call of `handleMessage`, which holds `callbacks_mutex_`, with the callbacks still to be served. -/
structure Handling (μ : Type) where
  thread : Nat
  message : μ
  rest : List Nat
  drops : Nat

/-- `helperCalls` lists what has been handed to the helpers of the callbacks. -/
structure State (μ : Type) where
  queue : CallbackQueue Nat
  threads : List (Thread Nat (Place μ))
  subs : Nat → SubscriptionQueue μ
  handling : Option (Handling μ)
  helperCalls : List (Nat × μ)

/-- `wanted` tells which callbacks want the message in the form in which it comes. -/
inductive Label (μ : Type) where
  | handleMessage (t : Nat) (m : μ) (wanted : Nat → Bool)
  | push
  | handled
  | clearQueue (t c : Nat)
  | callOne (t : Nat)
  | callAvailable (t : Nat)
  | enable
  | disable
  | clear
  | advance (t : Nat)
  | inside (t : Nat)
  | finish (t : Nat)

variable {μ : Type}

/-- The scope in which `callback_mutex_` is held. -/
def Place.inScope : Place μ → Bool
  | .locked => true
  | .called _ => true
  | _ => false

def holds (c : Nat) (th : Thread Nat (Place μ)) : Bool :=
  th.frames.any fun frame =>
    match frame with
    | .running _ info _ _ place => info.callback == c && place.inScope
    | _ => false

def inUserCode (th : Thread Nat (Place μ)) : Bool :=
  match th.frames with
  | [] => true
  | .running _ _ _ _ (.called _) :: _ => true
  | _ => false

def withPlace (place : Place μ) (th : Thread Nat (Place μ)) : Thread Nat (Place μ) :=
  match th.frames with
  | .running caller info idInfo lastCalling _ :: rest =>
    { th with frames := .running caller info idInfo lastCalling place :: rest }
  | _ => th

namespace State

def moved (s : State μ) (t : Nat) (next : CallbackQueue Nat × Thread Nat (Place μ)) : State μ :=
  { s with queue := next.1, threads := s.threads.set t next.2 }

/-- No other thread holds the recursive `callback_mutex_`; with concurrent callbacks none takes it. -/
def tryLock (s : State μ) (t c : Nat) : Bool :=
  (s.subs c).allowConcurrentCallbacks ||
    (List.range s.threads.length).all fun u => u == t || !(s.threads[u]?.any (holds c))

def call (s : State μ) (t : Nat) (c : Call Nat) : Option (State μ) :=
  match s.threads[t]? with
  | some th =>
    if inUserCode th ∧ (s.handling.all fun h => h.thread != t) then some (s.moved t (th.call s.queue c)) else none
  | none => none

/-- One round of the loop of `handleMessage`; the entry gets into the callback queue by the next step
of the thread. -/
def pushTo (s : State μ) (h : Handling μ) (th : Thread Nat (Place μ)) (c : Nat) (rest : List Nat) : State μ :=
  let pushed := (s.subs c).push h.message
  let s := { s with subs := Function.update s.subs c pushed.1 }
  if pushed.2 then { s with handling := some { h with rest := rest, drops := h.drops + 1 } }
  else { s with handling := some { h with rest := rest } }.moved h.thread (th.call s.queue (.addCallback c c))

/-- The next step of `SubscriptionQueue::call` in the thread `t`. -/
def callStep (s : State μ) (t : Nat) (th : Thread Nat (Place μ)) (c : Nat) : Place μ → Option (State μ)
  | .entered =>
    let place := if s.tryLock t c then .locked else .leaving .tryAgain
    some { s with threads := s.threads.set t (withPlace place th) }
  | .locked =>
    match (s.subs c).take with
    | some (i, q) =>
      some { s with
        subs := Function.update s.subs c q
        helperCalls := s.helperCalls ++ [(c, i)]
        threads := s.threads.set t (withPlace (.called i) th) }
    | none => some { s with threads := s.threads.set t (withPlace (.leaving .invalid) th) }
  | .called _ => some { s with threads := s.threads.set t (withPlace (.leaving .success) th) }
  | .leaving _ => none

/-- `callbacks` is `callbacks_`. -/
def step (callbacks : List Nat) (s : State μ) : Label μ → Option (State μ)
  | .handleMessage t m wanted =>
    match s.handling, s.threads[t]? with
    | none, some th =>
      if inUserCode th then some { s with handling := some ⟨t, m, callbacks.filter wanted, 0⟩ } else none
    | _, _ => none
  | .push =>
    match s.handling with
    | some h =>
      match h.rest, s.threads[h.thread]? with
      | c :: rest, some th => if inUserCode th then some (s.pushTo h th c rest) else none
      | _, _ => none
    | none => none
  | .handled =>
    match s.handling with
    | some h =>
      match h.rest, s.threads[h.thread]? with
      | [], some th => if inUserCode th then some { s with handling := none } else none
      | _, _ => none
    | none => none
  | .clearQueue t c =>
    if s.tryLock t c then some { s with subs := Function.update s.subs c (s.subs c).clear } else none
  | .callOne t => s.call t (.callOne fun _ => true)
  | .callAvailable t => s.call t .callAvailable
  | .enable => some { s with queue := s.queue.enable }
  | .disable => some { s with queue := s.queue.disable }
  | .clear => some { s with queue := s.queue.clear }
  | .advance t =>
    match s.threads[t]? with
    | some th => (th.advance (fun _ => .entered) t s.queue).map (s.moved t)
    | none => none
  | .inside t =>
    match s.threads[t]? with
    | some th =>
      match th.frames with
      | .running _ info _ _ place :: _ => s.callStep t th info.callback place
      | _ => none
    | none => none
  | .finish t =>
    match s.threads[t]? with
    | some th =>
      match th.frames with
      | .running _ _ _ _ (.leaving result) :: _ => (th.finish t result s.queue).map (s.moved t)
      | _ => none
    | none => none

end State

def system (callbacks : List Nat) : Machine (State μ) (Label μ) where
  Init s := s.queue = .start ∧ (∀ th ∈ s.threads, th = .start) ∧
    (∀ c, ∃ size allowConcurrentCallbacks, s.subs c = .new size allowConcurrentCallbacks) ∧
    s.handling = none ∧ s.helperCalls = []
  step := State.step callbacks

/-! ## What is owed -/

def entries (c : Nat) (infos : List (CallbackInfo Nat)) : Nat := infos.countP fun info => info.callback = c

def Place.owes : Place μ → Bool
  | .entered => true
  | .locked => true
  | .called _ => false
  | .leaving result => result == .tryAgain

/-- Whether a call in progress has an entry of the callback that is to be stored or called. -/
def Frame.owes (c : Nat) : Frame Nat (Place μ) → Nat
  | .addCallback info => if info.callback = c then 1 else 0
  | .running _ info _ _ place => if info.callback = c ∧ place.owes then 1 else 0
  | _ => 0

def Thread.owes (c : Nat) (th : Thread Nat (Place μ)) : Nat :=
  entries c th.tls.callbacks + (th.frames.map (Frame.owes c)).sum

def State.owed (c : Nat) (s : State μ) : Nat :=
  entries c s.queue.callbacks + (s.threads.map (Thread.owes c)).sum

def Covered (c : Nat) (s : State μ) : Prop := (s.subs c).queue.length ≤ s.owed c

/-- No entry of the callback is lost: it is not cleared, and the queue is enabled when it is stored. -/
def Keeps (c : Nat) (s : State μ) : Label μ → Prop
  | .clear => ∀ info ∈ s.queue.callbacks, info.callback ≠ c
  | .advance t => ∀ th info rest, s.threads[t]? = some th → th.frames = .addCallback info :: rest →
      info.callback = c → s.queue.enabled = true
  | _ => True

section Threads

variable {q : CallbackQueue Nat} {th : Thread Nat (Place μ)} {next : CallbackQueue Nat × Thread Nat (Place μ)}

def Listed (q : CallbackQueue Nat) (info : CallbackInfo Nat) : Prop :=
  q.idInfo info.removalId ≠ none ∧ info.markedForRemoval = false

def FrameSound (q : CallbackQueue Nat) : Frame Nat (Place μ) → Prop
  | .addCallback info => Listed q info
  | .removeByID .. => False
  | .lookedUp _ info _ => Listed q info
  | .running _ info _ _ _ => Listed q info
  | _ => True

structure Sound (q : CallbackQueue Nat) (th : Thread Nat (Place μ)) : Prop where
  stored : ∀ info ∈ th.tls.callbacks, Listed q info
  frames : ∀ frame ∈ th.frames, FrameSound q frame
  below : ∀ frame ∈ th.frames.tail, frame.isRunning = true
  top : ∀ caller info idInfo rest, th.frames = .lookedUp caller info idInfo :: rest →
    th.tls.callbacks[th.tls.cbIt]? = some info

structure Kept (q : CallbackQueue Nat) (next : CallbackQueue Nat × Thread Nat (Place μ)) : Prop where
  grows : ∀ id, q.idInfo id ≠ none → next.1.idInfo id ≠ none
  listed : ∀ info ∈ next.1.callbacks, Listed next.1 info
  sound : Sound next.1 next.2

theorem Listed.mono {q q' : CallbackQueue Nat} {info : CallbackInfo Nat} (h : Listed q info)
    (hGrows : ∀ id, q.idInfo id ≠ none → q'.idInfo id ≠ none) : Listed q' info := ⟨hGrows _ h.1, h.2⟩

theorem FrameSound.mono {q q' : CallbackQueue Nat} {frame : Frame Nat (Place μ)} (h : FrameSound q frame)
    (hGrows : ∀ id, q.idInfo id ≠ none → q'.idInfo id ≠ none) : FrameSound q' frame := by
  cases frame with
  | addCallback info => exact Listed.mono h hGrows
  | removeByID => exact h
  | callOneCB => exact trivial
  | lookedUp caller info => exact Listed.mono h hGrows
  | running caller info => exact Listed.mono h hGrows
  | returned => exact trivial

theorem Sound.mono {q q' : CallbackQueue Nat} (h : Sound q th)
    (hGrows : ∀ id, q.idInfo id ≠ none → q'.idInfo id ≠ none) : Sound q' th :=
  ⟨fun info hInfo => (h.stored info hInfo).mono hGrows, fun frame hFrame => (h.frames frame hFrame).mono hGrows,
    h.below, h.top⟩

theorem sound_start (q : CallbackQueue Nat) : Sound q (Thread.start : Thread Nat (Place μ)) := by
  constructor
  · exact fun _ h => by cases h
  · exact fun _ h => by cases h
  · exact fun _ h => by cases h
  · exact fun _ _ _ _ h => by cases h

theorem mayCall_of_inUserCode (h : inUserCode th = true) : th.mayCall = true := by
  rw [inUserCode] at h
  rw [Thread.mayCall]
  split at h
  · rename_i hFrames
    rw [hFrames]
  · rename_i hFrames
    rw [hFrames]
  · cases h

theorem Sound.running (h : Sound q th) (hCode : inUserCode th = true) :
    ∀ frame ∈ th.frames, frame.isRunning = true :=
  CallbackThread.isRunning_of_mayCall (mayCall_of_inUserCode hCode) h.below

theorem entries_append (c : Nat) (a b : List (CallbackInfo Nat)) : entries c (a ++ b) = entries c a + entries c b :=
  List.countP_append

theorem entries_cons (c : Nat) (info : CallbackInfo Nat) (infos : List (CallbackInfo Nat)) :
    entries c (info :: infos) = entries c infos + if info.callback = c then 1 else 0 := by
  rw [entries, List.countP_cons]
  congr 1
  simp

theorem entries_eraseIdx (c : Nat) {infos : List (CallbackInfo Nat)} {i : Nat} {info : CallbackInfo Nat}
    (h : infos[i]? = some info) :
    entries c (infos.eraseIdx i) + (if info.callback = c then 1 else 0) = entries c infos := by
  induction infos generalizing i with
  | nil => cases h
  | cons first rest ih =>
    cases i with
    | zero =>
      cases h
      rw [List.eraseIdx_cons_zero, entries_cons]
    | succ i =>
      have hRest := ih (i := i) h
      rw [List.eraseIdx_cons_succ, entries_cons, entries_cons]
      omega

theorem owes_eq (c : Nat) (th : Thread Nat (Place μ)) :
    Thread.owes c th = entries c th.tls.callbacks + (th.frames.map (Frame.owes c)).sum := rfl

theorem owes_cons (c : Nat) (tls : TLS Nat) (frame : Frame Nat (Place μ)) (rest : List (Frame Nat (Place μ))) :
    Thread.owes c ⟨tls, frame :: rest⟩ = entries c tls.callbacks + (Frame.owes c frame + (rest.map (Frame.owes c)).sum) := by
  rw [Thread.owes, List.map_cons, List.sum_cons]

theorem register_grows (q : CallbackQueue Nat) (removalId : Nat) :
    (∀ id, q.idInfo id ≠ none → (q.register removalId).idInfo id ≠ none) ∧
      (q.register removalId).idInfo removalId ≠ none := by
  rw [CallbackQueue.register]
  split
  · rename_i hSome
    refine ⟨fun _ h => h, ?_⟩
    rw [hSome]
    exact Option.some_ne_none _
  · refine ⟨fun id h => ?_, ?_⟩
    · dsimp only
      split
      · exact Option.some_ne_none _
      · exact h
    · dsimp only
      rw [if_pos rfl]
      exact Option.some_ne_none _

theorem Sound.push (h : Sound q th) (hCode : inUserCode th = true) {q' : CallbackQueue Nat} {tls : TLS Nat}
    {frame : Frame Nat (Place μ)} (hGrows : ∀ id, q.idInfo id ≠ none → q'.idInfo id ≠ none)
    (hStored : ∀ info ∈ tls.callbacks, Listed q' info) (hFrame : FrameSound q' frame)
    (hTop : ∀ caller info idInfo, frame ≠ .lookedUp caller info idInfo) : Sound q' ⟨tls, frame :: th.frames⟩ := by
  refine ⟨hStored, fun f hf => ?_, h.running hCode, fun caller info idInfo rest hEq => ?_⟩
  · obtain rfl | hOld := List.mem_cons.mp hf
    · exact hFrame
    · exact (h.frames f hOld).mono hGrows
  · exact absurd (List.cons.inj hEq).1 (hTop caller info idInfo)

theorem kept_addCallback (hListed : ∀ info ∈ q.callbacks, Listed q info) (h : Sound q th)
    (hCode : inUserCode th = true) (c : Nat) : Kept q (th.call q (.addCallback c c)) := by
  obtain ⟨hGrows, hSelf⟩ := register_grows q c
  refine ⟨hGrows, fun info hInfo => ?_, ?_⟩
  · have hOld : info ∈ (q.register c).callbacks := hInfo
    rw [CallbackQueue.register_callbacks] at hOld
    exact (hListed info hOld).mono hGrows
  · exact h.push hCode hGrows (fun info hInfo => (h.stored info hInfo).mono hGrows) ⟨hSelf, rfl⟩
      (fun _ _ _ hEq => by cases hEq)

theorem owes_addCallback (q : CallbackQueue Nat) (th : Thread Nat (Place μ)) (c c' : Nat) : Thread.owes c (th.call q (.addCallback c' c')).2 =
    Thread.owes c th + if c' = c then 1 else 0 := by
  have hCons : Thread.owes c (th.call q (.addCallback c' c')).2 = entries c th.tls.callbacks +
      ((if c' = c then 1 else 0) + (th.frames.map (Frame.owes c)).sum) := owes_cons ..
  rw [hCons, owes_eq]
  omega

theorem takeReady_cons {info : CallbackInfo Nat} {rest : List (CallbackInfo Nat)} (h : info.markedForRemoval = false) :
    CallbackQueue.takeReady (fun _ => true) (info :: rest) = (some info, rest) := by
  rw [CallbackQueue.takeReady, h]
  rfl

theorem kept_callOne (hListed : ∀ info ∈ q.callbacks, Listed q info) (h : Sound q th)
    (hCode : inUserCode th = true) (c : Nat) :
    Kept q (th.call q (.callOne fun _ => true)) ∧
      entries c (th.call q (.callOne fun _ => true)).1.callbacks + Thread.owes c (th.call q (.callOne fun _ => true)).2 =
        entries c q.callbacks + Thread.owes c th := by
  rw [Thread.call]
  split
  · cases hCallbacks : q.callbacks with
    | nil =>
      refine ⟨⟨fun _ hId => hId, fun _ hInfo => ?_, h.mono fun _ hId => hId⟩, rfl⟩
      cases hInfo
    | cons info rest =>
      rw [hCallbacks] at hListed
      have hFirst := hListed info List.mem_cons_self
      dsimp only
      rw [takeReady_cons hFirst.2]
      dsimp only
      refine ⟨⟨fun _ hId => hId, fun other hOther => hListed other (List.mem_cons_of_mem info hOther), ?_⟩, ?_⟩
      · refine h.push hCode (fun _ hId => hId) (fun other hOther => ?_) trivial (fun _ _ _ hEq => by cases hEq)
        obtain hOld | hNew := List.mem_append.mp hOther
        · exact h.stored other hOld
        · rw [List.mem_singleton.mp hNew]
          exact hFirst
      · rw [owes_cons, owes_eq, TLS.append, entries_append, entries_cons, entries_cons]
        have hFrame : Frame.owes c (.callOneCB .callOne : Frame Nat (Place μ)) = 0 := rfl
        have hNone : entries c [] = 0 := rfl
        rw [hFrame, hNone]
        omega
  · exact ⟨⟨fun _ hId => hId, hListed, h⟩, rfl⟩

theorem kept_callAvailable (hListed : ∀ info ∈ q.callbacks, Listed q info) (h : Sound q th)
    (hCode : inUserCode th = true) (c : Nat) :
    Kept q (th.call q .callAvailable) ∧
      entries c (th.call q .callAvailable).1.callbacks + Thread.owes c (th.call q .callAvailable).2 =
        entries c q.callbacks + Thread.owes c th := by
  rw [Thread.call]
  split
  · refine ⟨⟨fun _ hId => hId, List.forall_mem_nil _, ?_⟩, ?_⟩
    · refine h.push hCode (fun _ hId => hId) (fun other hOther => ?_) trivial (fun _ _ _ hEq => by cases hEq)
      obtain hOld | hNew := List.mem_append.mp hOther
      · exact h.stored other hOld
      · exact hListed other hNew
    · dsimp only
      rw [owes_cons, owes_eq, TLS.append, entries_append]
      have hFrame : Frame.owes c (.callOneCB (.callAvailable 0) : Frame Nat (Place μ)) = 0 := rfl
      have hNone : entries c [] = 0 := rfl
      rw [hFrame, hNone]
      omega
  · exact ⟨⟨fun _ hId => hId, hListed, h⟩, rfl⟩

variable {tls tls' : TLS Nat} {frame frame' : Frame Nat (Place μ)} {rest : List (Frame Nat (Place μ))}

theorem Sound.pop (h : Sound q ⟨tls, frame :: rest⟩) {q' : CallbackQueue Nat}
    (hGrows : ∀ id, q.idInfo id ≠ none → q'.idInfo id ≠ none) : Sound q' ⟨tls, rest⟩ := by
  refine ⟨fun info hInfo => (h.stored info hInfo).mono hGrows,
    fun f hf => (h.frames f (List.mem_cons_of_mem frame hf)).mono hGrows,
    fun f hf => h.below f (List.mem_of_mem_tail hf), fun caller info idInfo rest' hEq => ?_⟩
  have hTop : (rest.head?.map Frame.isRunning) = some false := by
    dsimp only at hEq
    rw [hEq]
    rfl
  cases rest with
  | nil => cases hTop
  | cons f rest =>
    have hRunning := h.below f List.mem_cons_self
    rw [List.head?_cons, Option.map_some, hRunning] at hTop
    cases hTop

theorem Sound.replace (h : Sound q ⟨tls, frame :: rest⟩) {q' : CallbackQueue Nat}
    (hGrows : ∀ id, q.idInfo id ≠ none → q'.idInfo id ≠ none)
    (hStored : ∀ info ∈ tls'.callbacks, info ∈ tls.callbacks) (hFrame : FrameSound q' frame')
    (hTop : ∀ caller info idInfo, frame' = .lookedUp caller info idInfo → tls'.callbacks[tls'.cbIt]? = some info) :
    Sound q' ⟨tls', frame' :: rest⟩ := by
  refine ⟨fun info hInfo => (h.stored info (hStored info hInfo)).mono hGrows, fun f hf => ?_, h.below,
    fun caller info idInfo rest' hEq => hTop caller info idInfo (List.cons.inj hEq).1⟩
  obtain rfl | hOld := List.mem_cons.mp hf
  · exact hFrame
  · exact (h.frames f (List.mem_cons_of_mem frame hOld)).mono hGrows

theorem entries_push (c : Nat) {info : CallbackInfo Nat} (hEnabled : info.callback = c → q.enabled = true) :
    entries c (q.push info).callbacks = entries c q.callbacks + if info.callback = c then 1 else 0 := by
  have hNone : entries c [] = 0 := rfl
  rw [CallbackQueue.push]
  split
  · rw [entries_append, entries_cons, hNone, Nat.zero_add]
  · rename_i hDisabled
    rw [if_neg fun hSelf => hDisabled (hEnabled hSelf), Nat.add_zero]

theorem kept_push {info : CallbackInfo Nat} (hListed : ∀ info ∈ q.callbacks, Listed q info)
    (h : Sound q ⟨tls, .addCallback info :: rest⟩) : Kept q (q.push info, (⟨tls, rest⟩ : Thread Nat (Place μ))) := by
  have hGrows : ∀ id, q.idInfo id ≠ none → (q.push info).idInfo id ≠ none := by
    intro id hId
    rwa [CallbackQueue.push_idInfo]
  refine ⟨hGrows, fun other hOther => ?_, h.pop hGrows⟩
  obtain hOld | rfl := CallbackQueue.push_mem hOther
  · exact (hListed other hOld).mono hGrows
  · exact Listed.mono (h.frames _ List.mem_cons_self) hGrows

theorem kept_lookUp (hListed : ∀ info ∈ q.callbacks, Listed q info) {caller : Caller}
    (h : Sound q ⟨tls, .callOneCB caller :: rest⟩) (hSame : tls'.callbacks = tls.callbacks) (c : Nat) :
    Kept q (q, Thread.lookUp q tls' caller rest) ∧
      Thread.owes c (Thread.lookUp q tls' caller rest) = Thread.owes c ⟨tls, .callOneCB caller :: rest⟩ := by
  have hStored : ∀ info ∈ tls'.callbacks, info ∈ tls.callbacks := fun info hInfo => hSame ▸ hInfo
  rw [Thread.lookUp]
  split
  · refine ⟨⟨fun _ hId => hId, hListed, h.replace (fun _ hId => hId) hStored trivial fun _ _ _ hEq => ?_⟩, ?_⟩
    · cases hEq
    · rw [owes_cons, owes_cons, hSame]
      rfl
  · rename_i info hAt
    have hInfo := h.stored info (hStored info (List.mem_of_getElem? hAt))
    split
    · refine ⟨⟨fun _ hId => hId, hListed, h.replace (fun _ hId => hId) hStored hInfo fun _ _ _ hEq => ?_⟩, ?_⟩
      · cases hEq
        exact hAt
      · rw [owes_cons, owes_cons, hSame]
        rfl
    · rename_i hNone
      exact absurd hNone hInfo.1

theorem kept_advance {t : Nat} (hListed : ∀ info ∈ q.callbacks, Listed q info) (h : Sound q th)
    (hStep : th.advance (fun _ => .entered) t q = some next) (c : Nat) :
    Kept q next ∧ ((∀ info rest, th.frames = .addCallback info :: rest → info.callback = c → q.enabled = true) →
      entries c next.1.callbacks + Thread.owes c next.2 = entries c q.callbacks + Thread.owes c th) := by
  obtain ⟨tls, frames⟩ := th
  cases frames with
  | nil => cases hStep
  | cons frame rest =>
    cases frame with
    | addCallback info =>
      cases hStep
      refine ⟨kept_push hListed h, fun hEnabled => ?_⟩
      rw [owes_cons, owes_eq, entries_push c (hEnabled info rest rfl), Frame.owes]
      dsimp only
      omega
    | removeByID => exact (h.frames _ List.mem_cons_self).elim
    | callOneCB caller =>
      cases hStep
      have hSame : tls.enterCB.callbacks = tls.callbacks := rfl
      obtain ⟨hKept, hOwes⟩ := kept_lookUp hListed h hSame c
      exact ⟨hKept, fun _ => congrArg _ hOwes⟩
    | lookedUp caller info idInfo =>
      have hInfo : Listed q info := h.frames _ List.mem_cons_self
      have hAt : tls.callbacks[tls.cbIt]? = some info := h.top caller info idInfo rest rfl
      simp only [Thread.advance, hInfo.2, Bool.false_eq_true, if_false] at hStep
      cases hStep
      refine ⟨⟨fun _ hId => hId, hListed, ?_⟩, fun _ => ?_⟩
      · refine h.replace (fun _ hId => hId) (fun other hOther => List.mem_of_mem_eraseIdx hOther) hInfo
          (fun _ _ _ hEq => ?_)
        cases hEq
      · have hErased := entries_eraseIdx c hAt
        have hFrame : Frame.owes c (.running caller info idInfo tls.callingInThisThread (.entered : Place μ)) =
            if info.callback = c then 1 else 0 := by
          simp [Frame.owes, Place.owes]
        have hLooked : Frame.owes c (.lookedUp caller info idInfo : Frame Nat (Place μ)) = 0 := rfl
        rw [owes_cons, owes_cons, hFrame, hLooked, TLS.eraseIt]
        dsimp only [CallbackQueue.lockShared]
        omega
    | running => cases hStep
    | returned caller result =>
      have hFrame : Frame.owes c (.returned caller result : Frame Nat (Place μ)) = 0 := rfl
      cases caller with
      | callOne =>
        cases hStep
        refine ⟨⟨?_, ?_, ?_⟩, fun _ => ?_⟩
        · split <;> exact fun _ hId => hId
        · split <;> exact hListed
        · exact h.pop (by split <;> exact fun _ hId => hId)
        · rw [owes_cons, owes_eq, hFrame, Nat.zero_add]
          split <;> rfl
      | callAvailable called =>
        simp only [Thread.advance] at hStep
        split at hStep
        · cases hStep
          refine ⟨⟨fun _ hId => hId, hListed, h.pop fun _ hId => hId⟩, fun _ => ?_⟩
          rw [owes_cons, owes_eq, hFrame, Nat.zero_add]
        · cases hStep
          refine ⟨⟨fun _ hId => hId, hListed, h.replace (fun _ hId => hId) (fun _ hInfo => hInfo) trivial
            (fun _ _ _ hEq => ?_)⟩, fun _ => ?_⟩
          · cases hEq
          · rw [owes_cons, owes_cons, hFrame]
            rfl

theorem owes_running (c : Nat) (caller : Caller) (info : CallbackInfo Nat) (idInfo lastCalling : Nat)
    (place : Place μ) : Frame.owes c (.running caller info idInfo lastCalling place) =
      if info.callback = c ∧ place.owes = true then 1 else 0 := rfl

theorem kept_finish {t : Nat} {caller : Caller} {info : CallbackInfo Nat} {idInfo lastCalling : Nat}
    {result : CallResult} (hListed : ∀ info ∈ q.callbacks, Listed q info) (h : Sound q th)
    (hFrames : th.frames = .running caller info idInfo lastCalling (.leaving result) :: rest)
    (hStep : th.finish t result q = some next) (c : Nat) :
    Kept q next ∧ entries c next.1.callbacks + Thread.owes c next.2 = entries c q.callbacks + Thread.owes c th := by
  obtain ⟨tls, frames⟩ := th
  cases hFrames
  have hInfo : Listed q info := h.frames _ List.mem_cons_self
  have hNone : entries c [] = 0 := rfl
  have hReturned : ∀ result, Frame.owes c (.returned caller result : Frame Nat (Place μ)) = 0 := fun _ => rfl
  simp only [Thread.finish, hInfo.2, and_true] at hStep
  split at hStep
  · rename_i hAgain
    subst hAgain
    cases hStep
    refine ⟨⟨fun _ hId => hId, fun other hOther => ?_, ?_⟩, ?_⟩
    · obtain hOld | hNew := List.mem_append.mp hOther
      · exact hListed other hOld
      · rw [List.mem_singleton.mp hNew]
        exact hInfo
    · refine h.replace (fun _ hId => hId) (fun _ hOther => hOther) trivial (fun _ _ _ hEq => ?_)
      cases hEq
    · dsimp only [CallbackQueue.unlockShared]
      rw [owes_cons, owes_cons, owes_running, hReturned, entries_append, entries_cons, hNone]
      simp only [Place.owes, BEq.rfl, and_true]
      omega
  · rename_i hDone
    cases hStep
    refine ⟨⟨fun _ hId => hId, hListed, ?_⟩, ?_⟩
    · refine h.replace (fun _ hId => hId) (fun _ hOther => hOther) trivial (fun _ _ _ hEq => ?_)
      cases hEq
    · dsimp only [CallbackQueue.unlockShared]
      rw [owes_cons, owes_cons, owes_running, hReturned]
      simp [Place.owes, hDone]

theorem sound_withPlace (h : Sound q th) (place : Place μ) : Sound q (withPlace place th) := by
  obtain ⟨tls, frames⟩ := th
  rw [withPlace]
  split
  · rename_i caller info idInfo lastCalling old rest hFrames
    cases hFrames
    have hListed : Listed q info := h.frames _ List.mem_cons_self
    refine h.replace (fun _ hId => hId) (fun _ hInfo => hInfo) hListed (fun _ _ _ hEq => ?_)
    cases hEq
  · exact h

theorem owes_withPlace {caller : Caller} {info : CallbackInfo Nat} {idInfo lastCalling : Nat} {old : Place μ}
    (hFrames : th.frames = .running caller info idInfo lastCalling old :: rest) (place : Place μ) (c : Nat) :
    Thread.owes c (withPlace place th) + (if info.callback = c ∧ old.owes = true then 1 else 0) =
      Thread.owes c th + if info.callback = c ∧ place.owes = true then 1 else 0 := by
  obtain ⟨tls, frames⟩ := th
  cases hFrames
  rw [withPlace]
  dsimp only
  rw [owes_cons, owes_cons, owes_running, owes_running]
  omega

end Threads

section Invariant

variable {callbacks : List Nat} {s s' : State μ} {t : Nat} {th : Thread Nat (Place μ)}

structure Orderly (s : State μ) : Prop where
  listed : ∀ info ∈ s.queue.callbacks, Listed s.queue info
  sound : ∀ th ∈ s.threads, Sound s.queue th
  sized : ∀ c, (s.subs c).Sized

theorem sum_set {α : Type} (f : α → Nat) {l : List α} {i : Nat} {a : α} (h : l[i]? = some a) (b : α) :
    ((l.set i b).map f).sum + f a = (l.map f).sum + f b := by
  induction l generalizing i with
  | nil => cases h
  | cons x l ih =>
    cases i with
    | zero =>
      cases h
      simp only [List.set_cons_zero, List.map_cons, List.sum_cons]
      omega
    | succ i =>
      have hRest := ih (i := i) h
      simp only [List.set_cons_succ, List.map_cons, List.sum_cons]
      omega

theorem owed_moved (h : s.threads[t]? = some th) (next : CallbackQueue Nat × Thread Nat (Place μ)) (c : Nat) :
    (s.moved t next).owed c + (entries c s.queue.callbacks + Thread.owes c th) =
      s.owed c + (entries c next.1.callbacks + Thread.owes c next.2) := by
  have hSum := sum_set (Thread.owes c) h next.2
  rw [State.owed, State.owed, State.moved]
  dsimp only
  omega

theorem Orderly.moved (h : Orderly s) {next : CallbackQueue Nat × Thread Nat (Place μ)}
    (hKept : Kept s.queue next) : Orderly (s.moved t next) := by
  refine ⟨hKept.listed, fun other hOther => ?_, h.sized⟩
  obtain hOld | rfl := List.mem_or_eq_of_mem_set hOther
  · exact (h.sound other hOld).mono hKept.grows
  · exact hKept.sound

theorem Orderly.sub (h : Orderly s) (c : Nat) {q : SubscriptionQueue μ} (hSized : q.Sized) :
    Orderly { s with subs := Function.update s.subs c q } := by
  refine ⟨h.listed, h.sound, fun other => ?_⟩
  dsimp only
  rw [Function.update_apply]
  split
  · exact hSized
  · exact h.sized other

theorem Orderly.place (h : Orderly s) (hAt : s.threads[t]? = some th) (place : Place μ) :
    Orderly { s with threads := s.threads.set t (withPlace place th) } := by
  refine ⟨h.listed, fun other hOther => ?_, h.sized⟩
  obtain hOld | rfl := List.mem_or_eq_of_mem_set hOther
  · exact h.sound other hOld
  · exact sound_withPlace (h.sound th (List.mem_of_getElem? hAt)) place

theorem owed_place (hAt : s.threads[t]? = some th) {caller : Caller} {info : CallbackInfo Nat}
    {idInfo lastCalling : Nat} {old : Place μ} {rest : List (Frame Nat (Place μ))}
    (hFrames : th.frames = .running caller info idInfo lastCalling old :: rest) (place : Place μ) (c : Nat) :
    State.owed c { s with threads := s.threads.set t (withPlace place th) } +
        (if info.callback = c ∧ old.owes = true then 1 else 0) =
      s.owed c + if info.callback = c ∧ place.owes = true then 1 else 0 := by
  have hSum := sum_set (Thread.owes c) hAt (withPlace place th)
  have hPlace := owes_withPlace hFrames place c
  rw [State.owed, State.owed]
  dsimp only
  omega

theorem owed_place_same (hAt : s.threads[t]? = some th) {caller : Caller} {info : CallbackInfo Nat}
    {idInfo lastCalling : Nat} {old : Place μ} {rest : List (Frame Nat (Place μ))}
    (hFrames : th.frames = .running caller info idInfo lastCalling old :: rest) {place : Place μ}
    (hSame : place.owes = old.owes) (c : Nat) :
    State.owed c { s with threads := s.threads.set t (withPlace place th) } = s.owed c := by
  have hOwed := owed_place hAt hFrames place c
  rw [hSame] at hOwed
  exact Nat.add_right_cancel hOwed

theorem orderly_of_init (h : (system callbacks).Init s) : Orderly s := by
  obtain ⟨hQueue, hThreads, hSubs, _⟩ := h
  refine ⟨fun info hInfo => ?_, fun th hth => ?_, fun c => ?_⟩
  · rw [hQueue] at hInfo
    cases hInfo
  · rw [hThreads th hth]
    exact sound_start _
  · obtain ⟨size, allowConcurrentCallbacks, hNew⟩ := hSubs c
    rw [hNew]
    exact SubscriptionQueue.sized_new _ _

theorem covered_of_init (h : (system callbacks).Init s) (c : Nat) : Covered c s := by
  obtain ⟨_, _, hSubs, _⟩ := h
  obtain ⟨size, allowConcurrentCallbacks, hNew⟩ := hSubs c
  rw [Covered, hNew]
  exact Nat.zero_le _

theorem covered_call (h : Orderly s) {c : Nat} (hCovered : Covered c s) {call : Call Nat}
    (hKept : ∀ th ∈ s.threads, inUserCode th = true → Kept s.queue (th.call s.queue call) ∧
      entries c (th.call s.queue call).1.callbacks + Thread.owes c (th.call s.queue call).2 =
        entries c s.queue.callbacks + Thread.owes c th)
    (hStep : s.call t call = some s') : Orderly s' ∧ Covered c s' := by
  rw [State.call] at hStep
  split at hStep
  · rename_i th hAt
    split at hStep
    · rename_i hMay
      cases hStep
      obtain ⟨hNext, hOwes⟩ := hKept th (List.mem_of_getElem? hAt) hMay.1
      have hOwed := owed_moved hAt (th.call s.queue call) c
      have hSame : (s.moved t (th.call s.queue call)).owed c = s.owed c := by omega
      refine ⟨h.moved hNext, ?_⟩
      rw [Covered, hSame]
      exact hCovered
    · cases hStep
  · cases hStep

theorem covered_pushTo (h : Orderly s) {c : Nat} (hCovered : Covered c s) {handling : Handling μ}
    (hAt : s.threads[handling.thread]? = some th) (hCode : inUserCode th = true) (c' : Nat) (rest : List Nat) :
    Orderly (s.pushTo handling th c' rest) ∧ Covered c (s.pushTo handling th c' rest) := by
  have hLength := (h.sized c').length_push handling.message
  rw [State.pushTo]
  dsimp only
  split
  · rename_i hFull
    rw [hFull, if_pos rfl] at hLength
    have hSub := h.sub c' ((h.sized c').push handling.message)
    refine ⟨⟨hSub.listed, hSub.sound, hSub.sized⟩, ?_⟩
    rw [Covered]
    dsimp only
    rw [Function.update_apply]
    split
    · rename_i hSelf
      subst hSelf
      rw [hLength]
      exact hCovered
    · exact hCovered
  · rename_i hRoom
    rw [if_neg hRoom] at hLength
    have hSound := h.sound th (List.mem_of_getElem? hAt)
    have hKept := kept_addCallback h.listed hSound hCode c'
    have hSub := (h.sub c' ((h.sized c').push handling.message)).moved (t := handling.thread) hKept
    refine ⟨⟨hSub.listed, hSub.sound, hSub.sized⟩, ?_⟩
    have hOwed := owed_moved hAt (th.call s.queue (.addCallback c' c')) c
    have hOwes := owes_addCallback s.queue th c c'
    have hCallbacks : (th.call s.queue (.addCallback c' c')).1.callbacks = s.queue.callbacks :=
      CallbackQueue.register_callbacks ..
    rw [hCallbacks] at hOwed
    have hStored : (s.subs c).queue.length ≤ s.owed c := hCovered
    have hGoal : (Function.update s.subs c' ((s.subs c').push handling.message).1 c).queue.length ≤
        (s.moved handling.thread (th.call s.queue (.addCallback c' c'))).owed c := by
      rw [Function.update_apply]
      split
      · rename_i hSelf
        subst hSelf
        rw [if_pos rfl] at hOwes
        omega
      · rename_i hOther
        rw [if_neg (Ne.symm hOther)] at hOwes
        omega
    exact hGoal

theorem covered_inside (h : Orderly s) {c : Nat} (hCovered : Covered c s) (hAt : s.threads[t]? = some th)
    {caller : Caller} {info : CallbackInfo Nat} {idInfo lastCalling : Nat} {place : Place μ}
    {rest : List (Frame Nat (Place μ))}
    (hFrames : th.frames = .running caller info idInfo lastCalling place :: rest)
    (hStep : s.callStep t th info.callback place = some s') : Orderly s' ∧ Covered c s' := by
  have hStored : (s.subs c).queue.length ≤ s.owed c := hCovered
  have hOwed := fun next => owed_place hAt hFrames next c
  cases place with
  | entered =>
    rw [State.callStep] at hStep
    cases hStep
    have hSame : Place.owes (if s.tryLock t info.callback then .locked else .leaving .tryAgain : Place μ) =
        Place.owes (.entered : Place μ) := by
      split <;> rfl
    refine ⟨h.place hAt _, ?_⟩
    rw [Covered, owed_place_same hAt hFrames hSame]
    exact hCovered
  | locked =>
    rw [State.callStep] at hStep
    split at hStep
    · rename_i i q hTake
      cases hStep
      have hSub := (h.place hAt (.called i)).sub info.callback ((h.sized info.callback).take hTake)
      refine ⟨⟨hSub.listed, hSub.sound, hSub.sized⟩, ?_⟩
      have hNext := hOwed (.called i)
      have hQueue := SubscriptionQueue.queue_of_take hTake
      have hGoal : (Function.update s.subs info.callback q c).queue.length ≤
          State.owed c { s with threads := s.threads.set t (withPlace (.called i) th) } := by
        rw [Function.update_apply]
        split
        · rename_i hSelf
          subst hSelf
          rw [hQueue, List.length_cons] at hStored
          simp only [Place.owes, and_true, if_true, Bool.false_eq_true, and_false, if_false] at hNext
          omega
        · rename_i hOther
          simp only [Ne.symm hOther, false_and, if_false] at hNext
          omega
      exact hGoal
    · rename_i hNone
      cases hStep
      refine ⟨h.place hAt _, ?_⟩
      have hNext := hOwed (.leaving .invalid)
      have hGoal : (s.subs c).queue.length ≤
          State.owed c { s with threads := s.threads.set t (withPlace (.leaving .invalid) th) } := by
        by_cases hSelf : info.callback = c
        · subst hSelf
          rw [SubscriptionQueue.take_eq_none.mp hNone]
          exact Nat.zero_le _
        · simp only [hSelf, false_and, if_false] at hNext
          omega
      exact hGoal
  | called i =>
    rw [State.callStep] at hStep
    cases hStep
    have hSame : Place.owes (.leaving .success : Place μ) = Place.owes (.called i) := rfl
    refine ⟨h.place hAt _, ?_⟩
    rw [Covered, owed_place_same hAt hFrames hSame]
    exact hCovered
  | leaving result => cases hStep

theorem covered_queue (h : Orderly s) {c : Nat} (hCovered : Covered c s) {q : CallbackQueue Nat}
    (hId : q.idInfo = s.queue.idInfo) (hListed : ∀ info ∈ q.callbacks, info ∈ s.queue.callbacks)
    (hEntries : entries c q.callbacks = entries c s.queue.callbacks) :
    Orderly { s with queue := q } ∧ Covered c { s with queue := q } := by
  have hGrows : ∀ id, s.queue.idInfo id ≠ none → q.idInfo id ≠ none := by
    intro id hSome
    rwa [hId]
  refine ⟨⟨fun info hInfo => (h.listed info (hListed info hInfo)).mono hGrows,
    fun th hth => (h.sound th hth).mono hGrows, h.sized⟩, ?_⟩
  rw [Covered, State.owed]
  dsimp only
  rw [hEntries]
  exact hCovered

theorem covered_clearQueue (h : Orderly s) {c : Nat} (hCovered : Covered c s) (c' : Nat) :
    Orderly { s with subs := Function.update s.subs c' (s.subs c').clear } ∧
      Covered c { s with subs := Function.update s.subs c' (s.subs c').clear } := by
  refine ⟨h.sub c' (SubscriptionQueue.sized_clear _), ?_⟩
  rw [Covered]
  dsimp only
  rw [Function.update_apply]
  split
  · exact Nat.zero_le _
  · exact hCovered

theorem covered_step {c : Nat} (h : Orderly s) (hCovered : Covered c s) {a : Label μ} (hKeeps : Keeps c s a)
    (hStep : s.step callbacks a = some s') : Orderly s' ∧ Covered c s' := by
  cases a with
  | handleMessage t m wanted =>
    rw [State.step] at hStep
    split at hStep
    · split at hStep
      · cases hStep
        exact ⟨⟨h.listed, h.sound, h.sized⟩, hCovered⟩
      · cases hStep
    · cases hStep
  | push =>
    rw [State.step] at hStep
    split at hStep
    · split at hStep
      · rename_i hAt
        split at hStep
        · rename_i hCode
          cases hStep
          exact covered_pushTo h hCovered hAt hCode _ _
        · cases hStep
      · cases hStep
    · cases hStep
  | handled =>
    rw [State.step] at hStep
    split at hStep
    · split at hStep
      · split at hStep
        · cases hStep
          exact ⟨⟨h.listed, h.sound, h.sized⟩, hCovered⟩
        · cases hStep
      · cases hStep
    · cases hStep
  | clearQueue t c' =>
    obtain ⟨-, rfl⟩ := of_guard hStep
    exact covered_clearQueue h hCovered c'
  | callOne t => exact covered_call h hCovered (fun th hth hCode => kept_callOne h.listed (h.sound th hth) hCode c) hStep
  | callAvailable t =>
    exact covered_call h hCovered (fun th hth hCode => kept_callAvailable h.listed (h.sound th hth) hCode c) hStep
  | enable =>
    cases hStep
    exact covered_queue h hCovered rfl (fun _ hInfo => hInfo) rfl
  | disable =>
    cases hStep
    exact covered_queue h hCovered rfl (fun _ hInfo => hInfo) rfl
  | clear =>
    cases hStep
    refine covered_queue h hCovered rfl (List.forall_mem_nil _) ?_
    have hNone : entries c s.queue.callbacks = 0 := List.countP_eq_zero.mpr fun info hInfo => by
      simpa using hKeeps info hInfo
    exact hNone.symm
  | advance t =>
    rw [State.step] at hStep
    split at hStep
    · rename_i th hAt
      obtain ⟨next, hNext, rfl⟩ := Option.map_eq_some_iff.mp hStep
      obtain ⟨hKept, hOwes⟩ := kept_advance h.listed (h.sound th (List.mem_of_getElem? hAt)) hNext c
      have hSame := hOwes fun info rest => hKeeps th info rest hAt
      have hOwed := owed_moved hAt next c
      have hTotal : (s.moved t next).owed c = s.owed c := by omega
      refine ⟨h.moved hKept, ?_⟩
      rw [Covered, hTotal]
      exact hCovered
    · cases hStep
  | inside t =>
    rw [State.step] at hStep
    split at hStep
    · rename_i hAt
      split at hStep
      · rename_i hFrames
        exact covered_inside h hCovered hAt hFrames hStep
      · cases hStep
    · cases hStep
  | finish t =>
    rw [State.step] at hStep
    split at hStep
    · rename_i th hAt
      split at hStep
      · rename_i hFrames
        obtain ⟨next, hNext, rfl⟩ := Option.map_eq_some_iff.mp hStep
        obtain ⟨hKept, hSame⟩ := kept_finish h.listed (h.sound th (List.mem_of_getElem? hAt)) hFrames hNext c
        have hOwed := owed_moved hAt next c
        have hTotal : (s.moved t next).owed c = s.owed c := by omega
        refine ⟨h.moved hKept, ?_⟩
        rw [Covered, hTotal]
        exact hCovered
      · cases hStep
    · cases hStep

theorem orderly_covered (c : Nat) (hReach : (system callbacks).ReachableWhen (Keeps c) s) : Orderly s ∧ Covered c s :=
  hReach.invariant (fun s => Orderly s ∧ Covered c s)
    (fun _ hInit => ⟨orderly_of_init hInit, covered_of_init hInit c⟩)
    (fun _ _ _ hInv hKeeps hStep => covered_step hInv.1 hInv.2 hKeeps hStep)

end Invariant

/-! ## Delivery -/

def State.delivered (c : Nat) (s : State μ) : List μ := (s.helperCalls.filter fun x => x.1 = c).map fun x => x.2

structure Idle (s : State μ) : Prop where
  handling : s.handling = none
  threads : ∀ th ∈ s.threads, th.frames = [] ∧ th.tls.callbacks = []

section Draining

variable {callbacks : List Nat} {s s' : State μ} {t : Nat} {th : Thread Nat (Place μ)}

/-- A thread in the loop of `callAvailable`, with no call inside of a callback. -/
inductive Looping : Thread Nat (Place μ) → Prop
  | returned {tls : TLS Nat} (hDone : tls.callbacks = []) : Looping ⟨tls, []⟩
  | next {tls : TLS Nat} (called : Nat) (hIt : tls.cbIt = 0) : Looping ⟨tls, [.callOneCB (.callAvailable called)]⟩
  | lookedUp {tls : TLS Nat} (called : Nat) (info : CallbackInfo Nat) (idInfo : Nat) (hIt : tls.cbIt = 0) :
      Looping ⟨tls, [.lookedUp (.callAvailable called) info idInfo]⟩
  | running {tls : TLS Nat} (called : Nat) (info : CallbackInfo Nat) (idInfo lastCalling : Nat) (place : Place μ)
      (hIt : tls.cbIt = 0) (hPlace : place ≠ .leaving .tryAgain) :
      Looping ⟨tls, [.running (.callAvailable called) info idInfo lastCalling place]⟩
  | called {tls : TLS Nat} (called : Nat) (result : CallOneResult) (hIt : tls.cbIt = 0) :
      Looping ⟨tls, [.returned (.callAvailable called) result]⟩

def Place.left : Place μ → Nat
  | .entered => 7
  | .locked => 6
  | .called _ => 5
  | .leaving _ => 4

/-- The steps that the loop of `callAvailable` has at most to go. -/
def left (th : Thread Nat (Place μ)) : Nat :=
  10 * th.tls.callbacks.length +
    match th.frames with
    | .callOneCB _ :: _ => 2
    | .lookedUp .. :: _ => 1
    | .running _ _ _ _ place :: _ => place.left
    | .returned .. :: _ => if th.tls.callbacks.isEmpty then 1 else 3
    | _ => 0

/-- The thread `t` empties the callback queue while all others rest; of the callback `c` the messages
`all` have been received. -/
structure Draining (t c : Nat) (all : List μ) (s : State μ) : Prop where
  orderly : Orderly s
  covered : Covered c s
  others : ∀ u th, s.threads[u]? = some th → u ≠ t → th.frames = [] ∧ th.tls.callbacks = []
  emptied : s.queue.callbacks = []
  received : s.delivered c ++ (s.subs c).queue = all
  looping : ∃ th, s.threads[t]? = some th ∧ Looping th

structure Advances (t c : Nat) (all : List μ) (th : Thread Nat (Place μ)) (s' : State μ) : Prop where
  draining : Draining t c all s'
  less : ∀ th', s'.threads[t]? = some th' → left th' < left th

theorem getElem?_set_other {α : Type} {l : List α} {t u : Nat} {a b : α} (h : (l.set t b)[u]? = some a) (hNe : u ≠ t) :
    l[u]? = some a := by
  rwa [List.getElem?_set_ne (Ne.symm hNe)] at h

theorem getElem?_set_same {α : Type} {l : List α} {t : Nat} {a : α} (h : l[t]? = some a) (b : α) :
    (l.set t b)[t]? = some b := by
  obtain ⟨hLt, _⟩ := List.getElem?_eq_some_iff.mp h
  exact List.getElem?_set_self hLt

theorem Draining.advances {c : Nat} {all : List μ} (h : Draining t c all s) (hAt : s.threads[t]? = some th)
    {a : Label μ} (hKeeps : Keeps c s a) (hStep : s.step callbacks a = some s') {th' : Thread Nat (Place μ)}
    (hThreads : s'.threads = s.threads.set t th') (hEmptied : s'.queue.callbacks = [])
    (hReceived : s'.delivered c ++ (s'.subs c).queue = s.delivered c ++ (s.subs c).queue)
    (hLooping : Looping th') (hLess : left th' < left th) : Advances t c all th s' := by
  obtain ⟨hOrderly, hCovered⟩ := covered_step h.orderly h.covered hKeeps hStep
  have hSame : s'.threads[t]? = some th' := by
    rw [hThreads]
    exact getElem?_set_same hAt th'
  refine ⟨⟨hOrderly, hCovered, fun u other hOther hNe => ?_, hEmptied, hReceived.trans h.received, th', hSame, hLooping⟩,
    fun other hOther => ?_⟩
  · rw [hThreads] at hOther
    exact h.others u other (getElem?_set_other hOther hNe) hNe
  · rw [hSame] at hOther
    cases hOther
    exact hLess

theorem Draining.advance {c : Nat} {all : List μ} (h : Draining t c all s) (hAt : s.threads[t]? = some th)
    (hNotAdding : ∀ info rest, th.frames ≠ .addCallback info :: rest) {next : CallbackQueue Nat × Thread Nat (Place μ)}
    (hNext : th.advance (fun _ => .entered) t s.queue = some next) (hEmptied : next.1.callbacks = [])
    (hLooping : Looping next.2) (hLess : left next.2 < left th) :
    s.step callbacks (.advance t) = some (s.moved t next) ∧ Advances t c all th (s.moved t next) := by
  have hStep : s.step callbacks (.advance t) = some (s.moved t next) := by
    rw [State.step, hAt]
    dsimp only
    rw [hNext]
    rfl
  refine ⟨hStep, h.advances hAt ?_ hStep rfl hEmptied rfl hLooping hLess⟩
  intro other info rest hOther hFrames
  rw [hAt] at hOther
  cases hOther
  exact absurd hFrames (hNotAdding info rest)

theorem Draining.tryLock {c : Nat} {all : List μ} (h : Draining t c all s) (c' : Nat) : s.tryLock t c' = true := by
  rw [State.tryLock, Bool.or_eq_true]
  right
  rw [List.all_eq_true]
  intro u _
  by_cases hSelf : u = t
  · simp [hSelf]
  · cases hOther : s.threads[u]? with
    | none => simp
    | some th =>
      have hFrames := (h.others u th hOther hSelf).1
      simp [holds, hFrames]

theorem looping_lookUp {q : CallbackQueue Nat} {tls : TLS Nat} (called : Nat)
    (hListed : ∀ info ∈ tls.callbacks, Listed q info) (hIt : tls.cbIt = 0) :
    Looping (Thread.lookUp q tls (.callAvailable called) [] : Thread Nat (Place μ)) ∧
      left (Thread.lookUp q tls (.callAvailable called) [] : Thread Nat (Place μ)) < 10 * tls.callbacks.length + 2 := by
  rw [Thread.lookUp]
  split
  · rename_i hNone
    have hNil : tls.callbacks = [] := by
      rw [hIt] at hNone
      exact List.head?_eq_none_iff.mp (List.head?_eq_getElem? ▸ hNone)
    refine ⟨.called called .empty hIt, ?_⟩
    simp [left, hNil]
  · rename_i info hAt
    have hInfo := hListed info (List.mem_of_getElem? hAt)
    split
    · exact ⟨.lookedUp called info _ hIt, Nat.lt_succ_self _⟩
    · rename_i hNone
      exact absurd hNone hInfo.1

theorem Draining.inside {c : Nat} {all : List μ} (h : Draining t c all s) {tls : TLS Nat} {called : Nat}
    {info : CallbackInfo Nat} {idInfo lastCalling : Nat} {place : Place μ} (hIt : tls.cbIt = 0)
    (hAt : s.threads[t]? = some ⟨tls, [.running (.callAvailable called) info idInfo lastCalling place]⟩)
    (hStays : ∀ result, place ≠ .leaving result) :
    ∃ s', s.step callbacks (.inside t) = some s' ∧
      Advances t c all ⟨tls, [.running (.callAvailable called) info idInfo lastCalling place]⟩ s' := by
  have hStep : s.step callbacks (.inside t) =
      s.callStep t ⟨tls, [.running (.callAvailable called) info idInfo lastCalling place]⟩ info.callback place := by
    rw [State.step, hAt]
  cases place with
  | entered =>
    have hLock := h.tryLock info.callback
    rw [State.callStep, hLock, if_pos rfl] at hStep
    refine ⟨_, hStep, h.advances (a := .inside t) hAt trivial hStep rfl h.emptied rfl (.running called info idInfo lastCalling .locked hIt
      (fun hEq => by cases hEq)) ?_⟩
    exact Nat.lt_succ_self _
  | locked =>
    rw [State.callStep] at hStep
    cases hTake : (s.subs info.callback).take with
    | none =>
      rw [hTake] at hStep
      refine ⟨_, hStep, h.advances (a := .inside t) hAt trivial hStep rfl h.emptied rfl
        (.running called info idInfo lastCalling (.leaving .invalid) hIt (fun hEq => by cases hEq)) ?_⟩
      exact Nat.add_lt_add_left (by decide : 4 < 6) _
    | some taken =>
      obtain ⟨i, q⟩ := taken
      rw [hTake] at hStep
      have hQueue := SubscriptionQueue.queue_of_take hTake
      refine ⟨_, hStep, h.advances (a := .inside t) hAt trivial hStep rfl h.emptied ?_
        (.running called info idInfo lastCalling (.called i) hIt (fun hEq => by cases hEq)) ?_⟩
      · -- the message goes from the one list to the other
        by_cases hSelf : info.callback = c
        · subst hSelf
          simp [State.delivered, hQueue]
        · simp [State.delivered, hSelf, Function.update_of_ne (Ne.symm hSelf)]
      · exact Nat.lt_succ_self _
  | called i =>
    rw [State.callStep] at hStep
    refine ⟨_, hStep, h.advances (a := .inside t) hAt trivial hStep rfl h.emptied rfl
      (.running called info idInfo lastCalling (.leaving .success) hIt (fun hEq => by cases hEq)) ?_⟩
    exact Nat.lt_succ_self _
  | leaving result => exact absurd rfl (hStays result)

theorem Draining.finish {c : Nat} {all : List μ} (h : Draining t c all s) {tls : TLS Nat} {called : Nat}
    {info : CallbackInfo Nat} {idInfo lastCalling : Nat} {result : CallResult} (hIt : tls.cbIt = 0)
    (hAt : s.threads[t]? = some ⟨tls, [.running (.callAvailable called) info idInfo lastCalling (.leaving result)]⟩)
    (hResult : result ≠ .tryAgain) :
    ∃ s', s.step callbacks (.finish t) = some s' ∧
      Advances t c all ⟨tls, [.running (.callAvailable called) info idInfo lastCalling (.leaving result)]⟩ s' := by
  have hStep : s.step callbacks (.finish t) = some (s.moved t (s.queue.unlockShared idInfo t,
      ⟨{ tls with callingInThisThread := lastCalling }, [.returned (.callAvailable called) .called]⟩)) := by
    rw [State.step, hAt]
    simp only [Thread.finish, hResult, false_and, if_false, Option.map_some]
  refine ⟨_, hStep, h.advances (a := .finish t) hAt trivial hStep rfl h.emptied rfl (.called called .called hIt) ?_⟩
  rw [left, left]
  dsimp only [Place.left]
  split <;> omega

variable (callbacks) in
theorem Draining.progress {c : Nat} {all : List μ} (h : Draining t c all s) (hAt : s.threads[t]? = some th)
    (hLooping : Looping th) (hBusy : th.frames ≠ []) :
    ∃ a s', s.step callbacks a = some s' ∧ Advances t c all th s' := by
  have hSound := h.orderly.sound th (List.mem_of_getElem? hAt)
  cases hLooping with
  | returned => exact absurd rfl hBusy
  | @next tls called hIt =>
    have hEnter : tls.enterCB.cbIt = 0 := by
      rw [TLS.enterCB, hIt]
      exact ite_self 0
    have hStored : ∀ info ∈ tls.enterCB.callbacks, Listed s.queue info := hSound.stored
    obtain ⟨hNext, hLess⟩ := looping_lookUp called hStored hEnter
    exact ⟨_, _, h.advance hAt (fun _ _ hEq => by cases hEq) rfl h.emptied hNext hLess⟩
  | @lookedUp tls called info idInfo hIt =>
    have hListed : Listed s.queue info := hSound.frames _ List.mem_cons_self
    have hErase := CallbackThread.length_eraseIt (hSound.top _ _ _ _ rfl)
    have hNext : Thread.advance (fun _ => Place.entered) t s.queue
        (⟨tls, [.lookedUp (.callAvailable called) info idInfo]⟩ : Thread Nat (Place μ)) =
        some (s.queue.lockShared idInfo t,
          ⟨{ tls.eraseIt with callingInThisThread := (s.queue.idOf idInfo).getD notCalling },
            [.running (.callAvailable called) info idInfo tls.callingInThisThread .entered]⟩) := by
      simp only [Thread.advance, hListed.2, Bool.false_eq_true, if_false]
    refine ⟨_, _, h.advance hAt (fun _ _ hEq => by cases hEq) hNext h.emptied
      (.running called info idInfo tls.callingInThisThread .entered hIt (fun hEq => by cases hEq)) ?_⟩
    rw [left, left]
    dsimp only [Place.left] at hErase ⊢
    omega
  | @running tls called info idInfo lastCalling place hIt hPlace =>
    cases place with
    | leaving result => exact ⟨_, h.finish hIt hAt fun hEq => hPlace (hEq ▸ rfl)⟩
    | entered => exact ⟨_, h.inside hIt hAt (fun _ hEq => by cases hEq)⟩
    | locked => exact ⟨_, h.inside hIt hAt (fun _ hEq => by cases hEq)⟩
    | called i => exact ⟨_, h.inside hIt hAt (fun _ hEq => by cases hEq)⟩
  | @called tls called result hIt =>
    cases hCallbacks : tls.callbacks with
    | nil =>
      have hNext : ∃ next, Thread.advance (fun _ => Place.entered) t s.queue
          (⟨tls, [.returned (.callAvailable called) result]⟩ : Thread Nat (Place μ)) = some next ∧
          next.1.callbacks = [] ∧ next.2 = ⟨tls, []⟩ := by
        simp only [Thread.advance, hCallbacks, List.isEmpty_nil, if_true]
        exact ⟨_, rfl, h.emptied, rfl⟩
      obtain ⟨next, hNext, hEmptied, hThread⟩ := hNext
      refine ⟨_, _, h.advance hAt (fun _ _ hEq => by cases hEq) hNext hEmptied ?_ ?_⟩
      · rw [hThread]
        exact .returned hCallbacks
      · simp [hThread, left, hCallbacks]
    | cons info rest =>
      have hNext : ∃ n, Thread.advance (fun _ => Place.entered) t s.queue
          (⟨tls, [.returned (.callAvailable called) result]⟩ : Thread Nat (Place μ)) =
            some (s.queue, ⟨tls, [.callOneCB (.callAvailable n)]⟩) := by
        simp only [Thread.advance, hCallbacks, List.isEmpty_cons, Bool.false_eq_true, if_false]
        exact ⟨_, rfl⟩
      obtain ⟨n, hNext⟩ := hNext
      refine ⟨_, _, h.advance hAt (fun _ _ hEq => by cases hEq) hNext h.emptied (.next n hIt) ?_⟩
      simp [left, hCallbacks]

theorem Draining.stored_eq_nil {c : Nat} {all : List μ} (h : Draining t c all s)
    (hDone : ∀ th, s.threads[t]? = some th → th.frames = []) : (s.subs c).queue = [] := by
  have hNone : ∀ th ∈ s.threads, Thread.owes c th = 0 := by
    intro th hth
    obtain ⟨u, hAt⟩ := List.mem_iff_getElem?.mp hth
    have hIdle : th.frames = [] ∧ th.tls.callbacks = [] := by
      by_cases hSelf : u = t
      · subst hSelf
        obtain ⟨th', hAt', hLooping⟩ := h.looping
        rw [hAt] at hAt'
        cases hAt'
        have hFrames := hDone th hAt
        cases hLooping with
        | returned hEmpty => exact ⟨rfl, hEmpty⟩
        | next | lookedUp | running | called => cases hFrames
      · exact h.others u th hAt hSelf
    rw [owes_eq, hIdle.1, hIdle.2]
    rfl
  have hSum : (s.threads.map (Thread.owes c)).sum = 0 := by
    rw [List.sum_eq_zero_iff_forall_eq_nat]
    intro n hn
    obtain ⟨th, hth, rfl⟩ := List.mem_map.mp hn
    exact hNone th hth
  have hCovered : (s.subs c).queue.length ≤ s.owed c := h.covered
  rw [State.owed, h.emptied, hSum] at hCovered
  exact List.eq_nil_of_length_eq_zero (Nat.le_zero.mp hCovered)

variable (callbacks) in
theorem Draining.exists_run {c : Nat} {all : List μ} (h : Draining t c all s) :
    ∃ as s', (system callbacks).run s as = some s' ∧ (s'.subs c).queue = [] ∧ s'.delivered c = all := by
  obtain ⟨as, s', hRun, hLast, hDone⟩ := Machine.exists_run_of_measure (M := system callbacks) (Draining t c all)
    (fun s => Draining t c all s ∧ ∀ th, s.threads[t]? = some th → th.frames = [])
    (fun s => (s.threads[t]?.map left).getD 0) (fun s hInv hBusy => by
      obtain ⟨th, hAt, hLooping⟩ := hInv.looping
      have hFrames : th.frames ≠ [] := by
        intro hNil
        refine hBusy ⟨hInv, fun other hOther => ?_⟩
        rw [hAt] at hOther
        cases hOther
        exact hNil
      obtain ⟨a, next, hStep, hAdvances⟩ := hInv.progress callbacks hAt hLooping hFrames
      obtain ⟨th', hAt', _⟩ := hAdvances.draining.looping
      refine ⟨a, next, hStep, hAdvances.draining, ?_⟩
      rw [hAt, hAt', Option.map_some, Option.map_some]
      exact hAdvances.less th' hAt') s h
  have hNil := hLast.stored_eq_nil hDone
  refine ⟨as, s', hRun, hNil, ?_⟩
  have hReceived := hLast.received
  rwa [hNil, List.append_nil] at hReceived

variable (callbacks) in
theorem draining_callAvailable {c : Nat} (h : Orderly s) (hCovered : Covered c s) (hIdle : Idle s)
    (hEnabled : s.queue.enabled = true) (hAt : s.threads[t]? = some th) :
    ∃ s', s.step callbacks (.callAvailable t) = some s' ∧ Draining t c (s.delivered c ++ (s.subs c).queue) s' := by
  obtain ⟨hFrames, hTls⟩ := hIdle.threads th (List.mem_of_getElem? hAt)
  have hStep : s.step callbacks (.callAvailable t) = some (s.moved t (th.call s.queue .callAvailable)) := by
    rw [State.step, State.call, hAt]
    simp [inUserCode, hFrames, hIdle.handling]
  obtain ⟨hOrderly, hNext⟩ := covered_step (a := .callAvailable t) h hCovered trivial hStep
  have hCall : (th.call s.queue .callAvailable).1.callbacks = [] ∧ Looping (th.call s.queue .callAvailable).2 := by
    simp only [Thread.call, hEnabled, true_and]
    obtain ⟨tls, frames⟩ := th
    cases hFrames
    split
    · refine ⟨rfl, .next 0 ?_⟩
      dsimp only at hTls ⊢
      rw [TLS.append, hTls]
      rfl
    · rename_i hNil
      exact ⟨Decidable.not_not.mp hNil, .returned hTls⟩
  have hSame := getElem?_set_same hAt (th.call s.queue .callAvailable).2
  refine ⟨_, hStep, hOrderly, hNext, fun u other hOther hNe => ?_, hCall.1, rfl, _, hSame, hCall.2⟩
  exact hIdle.threads other (List.mem_of_getElem? (getElem?_set_other hOther hNe))

end Draining

section Runs

def sampleStart : State Nat where
  queue := .start
  threads := [.start]
  subs _ := .new 1 false
  handling := none
  helperCalls := []

theorem sampleStart_init : (system [7]).Init sampleStart :=
  ⟨rfl, fun _ h => List.mem_singleton.mp h, fun _ => ⟨1, false, rfl⟩, rfl, rfl⟩

def sampleReceive : List (Label Nat) := [.handleMessage 0 5 fun _ => true, .push, .advance 0, .handled]

def sampleReceived : State Nat := ((system [7]).run sampleStart sampleReceive).getD sampleStart

theorem keeps_of_enabled {s : State Nat} {a : Label Nat} (hClear : a ≠ .clear) (h : s.queue.enabled = true) (c : Nat) :
    Keeps c s a := by
  cases a with
  | clear => exact absurd rfl hClear
  | advance t => exact fun _ _ _ _ _ _ => h
  | _ => exact trivial

theorem sampleReceived_reachable : (system [7]).ReachableWhen (Keeps 7) sampleReceived := by
  have hStart : (system [7]).ReachableWhen (Keeps 7) sampleStart := .init sampleStart_init
  have hBegun := hStart.step (a := .handleMessage 0 5 fun _ => true) (keeps_of_enabled (fun h => by cases h) rfl 7) rfl
  have hPushed := hBegun.step (a := .push) (keeps_of_enabled (fun h => by cases h) rfl 7) rfl
  have hAdded := hPushed.step (a := .advance 0) (keeps_of_enabled (fun h => by cases h) rfl 7) rfl
  exact hAdded.step (a := .handled) (keeps_of_enabled (fun h => by cases h) rfl 7) rfl

def sampleDisabled : List (Label Nat) :=
  .disable :: sampleReceive ++ [.enable, .handleMessage 0 6 fun _ => true, .push, .handled]

end Runs

end XcRos.Libros.Delivery
