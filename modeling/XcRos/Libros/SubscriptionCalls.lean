import Mathlib
import XcRos.Foundation.Machine
import XcRos.Foundation.Update
import XcRos.Libros.SubscriptionQueue

/-! # Threads that share a subscription queue

Any number of threads in `push`, `clear`, `full` and `call` of one `SubscriptionQueue`, whose tracked objects
are alive. Items are known by the number of their push.
-/

namespace XcRos.Libros.SubscriptionCalls

open XcRos.Foundation

/-- A call of `call`: it has passed the lock, has taken an item, or is in `helper->call`. -/
inductive Frame where
  | entered
  | taken (item : Nat)
  | inCallback (item : Nat)
deriving DecidableEq, Repr

/-- `callbackMutex` is recursive: its owner and how often the owner has locked it. The calls of a thread are
its `frames`, the innermost first. What has become of the items is kept in the lists. -/
structure State where
  queue : SubscriptionQueue Nat
  callbackMutex : Option (Nat × Nat)
  frames : Nat → List Frame
  pushed : Nat
  wasFull : Bool
  taken : List Nat
  handed : List Nat
  failed : List Nat
  discarded : List Nat
  cleared : List Nat

def State.start (size : Int32) (allowConcurrentCallbacks : Bool) : State :=
  ⟨.new size allowConcurrentCallbacks, none, fun _ => [], 0, false, [], [], [], [], []⟩

inductive Label where
  | push (thread : Nat)
  | full (thread : Nat)
  | clear (thread : Nat)
  | call (thread : Nat)
  | take (thread : Nat)
  /-- `msg` is whether the deserializer gives a message. -/
  | hand (thread : Nat) (msg : Bool)
  | finish (thread : Nat)
deriving DecidableEq, Repr

/-- A thread calls the queue from outside of `call` or from the callback of its innermost call. -/
def free : List Frame → Bool
  | [] | .inCallback _ :: _ => true
  | .entered :: _ | .taken _ :: _ => false

def tryLock (thread : Nat) : Option (Nat × Nat) → Option (Nat × Nat)
  | none => some (thread, 1)
  | some (owner, count) => if owner = thread then some (owner, count + 1) else none

def unlock : Option (Nat × Nat) → Option (Nat × Nat)
  | some (owner, count + 2) => some (owner, count + 1)
  | some (_, _) | none => none

namespace State

variable (s : State)

def push : State :=
  let (queue, wasFull) := s.queue.push s.pushed
  { s with
    queue, wasFull
    pushed := s.pushed + 1
    discarded := if wasFull then s.discarded ++ s.queue.queue.head?.toList else s.discarded }

def clear : State := { s with queue := s.queue.clear, cleared := s.cleared ++ s.queue.queue }

/-- `call` up to the lock. -/
def call (thread : Nat) : State :=
  let entered := { s with frames := Function.update s.frames thread (.entered :: s.frames thread) }
  if s.queue.allowConcurrentCallbacks then entered
  else
    match tryLock thread s.callbackMutex with
    | some locked => { entered with callbackMutex := some locked }
    | none => s

/-- The end of `call`, with the frames that are left. -/
def leave (thread : Nat) (rest : List Frame) : State :=
  { s with
    frames := Function.update s.frames thread rest
    callbackMutex := if s.queue.allowConcurrentCallbacks then s.callbackMutex else unlock s.callbackMutex }

/-- The section of `call` under `queue_mutex_`. -/
def take (thread : Nat) (rest : List Frame) : State :=
  match s.queue.take with
  | none => s.leave thread rest
  | some (item, queue) =>
    { s with queue, taken := s.taken ++ [item], frames := Function.update s.frames thread (.taken item :: rest) }

/-- The rest of `call` up to `helper->call`. -/
def hand (thread item : Nat) (msg : Bool) (rest : List Frame) : State :=
  if msg then
    { s with handed := s.handed ++ [item], frames := Function.update s.frames thread (.inCallback item :: rest) }
  else { s.leave thread rest with failed := s.failed ++ [item] }

def step (s : State) : Label → Option State
  | .push thread => if free (s.frames thread) then some s.push else none
  | .full thread => if free (s.frames thread) then some s else none
  | .clear thread => if free (s.frames thread) ∧ (tryLock thread s.callbackMutex).isSome then some s.clear else none
  | .call thread => if free (s.frames thread) then some (s.call thread) else none
  | .take thread =>
    match s.frames thread with
    | .entered :: rest => some (s.take thread rest)
    | [] | .taken _ :: _ | .inCallback _ :: _ => none
  | .hand thread msg =>
    match s.frames thread with
    | .taken item :: rest => some (s.hand thread item msg rest)
    | [] | .entered :: _ | .inCallback _ :: _ => none
  | .finish thread =>
    match s.frames thread with
    | .inCallback _ :: rest => some (s.leave thread rest)
    | [] | .entered :: _ | .taken _ :: _ => none

end State

def calls (size : Int32) (allowConcurrentCallbacks : Bool) : Machine State Label where
  Init s := s = .start size allowConcurrentCallbacks
  step := State.step

/-! ## What the queue promises -/

def pending : List Frame → Option Nat
  | .taken item :: _ => some item
  | [] | .entered :: _ | .inCallback _ :: _ => none

structure Semantics (s : State) : Prop where
  counted : s.queue.queueSize = UInt32.ofNat s.queue.queue.length
  bounded : 0 < s.queue.size →
    s.queue.queueSize.toNat = s.queue.queue.length ∧ s.queue.queue.length ≤ s.queue.size.toUInt32.toNat
  places : ∀ k, s.queue.queue.count k + s.taken.count k + s.discarded.count k + s.cleared.count k =
    if k < s.pushed then 1 else 0
  takenInOrder : s.taken.Pairwise (· < ·)
  goesOn : ∀ k ∈ s.taken, k ∈ s.handed ∨ k ∈ s.failed ∨ ∃ t, pending (s.frames t) = some k
  handedOnce : s.handed.Nodup
  handedTaken : ∀ k ∈ s.handed, k ∈ s.taken ∧ k ∉ s.failed
  handedInOrder : s.queue.allowConcurrentCallbacks = false → s.handed.Pairwise (· < ·)
  exclusive : s.queue.allowConcurrentCallbacks = false →
    ∀ t t' k k', .inCallback k ∈ s.frames t → .inCallback k' ∈ s.frames t' → t = t'

/-- An item is discarded by a push that reports it, and as many newer items as the queue may have are stored
then. -/
def DiscardsOldest (s : State) (a : Label) (s' : State) : Prop :=
  match a with
  | .push _ => ∃ gone, s'.discarded = s.discarded ++ gone ∧ (s'.wasFull = true ↔ gone ≠ []) ∧
      ∀ k ∈ gone, 0 < s.queue.size ∧ s'.queue.queue = List.range' (k + 1) s.queue.size.toUInt32.toNat
  | _ => s'.discarded = s.discarded

/-! ## The items -/

/-- The items that are stored are those from `first` on. -/
structure Books (s : State) (first : Nat) : Prop where
  sized : s.queue.Sized
  within : first ≤ s.pushed
  stored : s.queue.queue = List.range' first (s.pushed - first)
  places : ∀ k, s.queue.queue.count k + s.taken.count k + s.discarded.count k + s.cleared.count k =
    if k < s.pushed then 1 else 0
  takenInOrder : s.taken.Pairwise (· < ·)
  takenBefore : ∀ k ∈ s.taken, k < first

theorem Books.start (size : Int32) (allowConcurrentCallbacks : Bool) :
    Books (.start size allowConcurrentCallbacks) 0 where
  sized := SubscriptionQueue.sized_new ..
  within := Nat.le_refl _
  stored := rfl
  places _ := rfl
  takenInOrder := .nil
  takenBefore k hk := by cases hk

theorem length_of_full {q : SubscriptionQueue Nat} (h : q.Sized) (hFull : q.fullNoLock = true) :
    0 < q.size ∧ q.queue.length = q.size.toUInt32.toNat := by
  obtain ⟨hSize, hLe⟩ := Bool.and_eq_true_iff.mp hFull
  have hPos := of_decide_eq_true hSize
  have hCount := UInt32.le_iff_toNat_le.mp (of_decide_eq_true hLe)
  rw [h.count_toNat hPos] at hCount
  exact ⟨hPos, Nat.le_antisymm (h.within hPos) hCount⟩

namespace Books

variable {s : State} {first : Nat}

theorem length (h : Books s first) : s.queue.queue.length = s.pushed - first := by
  rw [h.stored, List.length_range']

theorem push_full (h : Books s first) (hFull : s.queue.fullNoLock = true) :
    s.queue.queue = first :: List.range' (first + 1) (s.pushed - (first + 1)) ∧
      s.push = { s with
        queue := { s.queue with
          queue := List.range' (first + 1) (s.pushed - first), queueSize := s.queue.queueSize - 1 + 1, full := true }
        wasFull := true, pushed := s.pushed + 1, discarded := s.discarded ++ [first] } := by
  have hNonempty := List.length_pos_iff.mpr (h.sized.queue_ne_nil hFull)
  rw [h.length] at hNonempty
  obtain ⟨n, hn⟩ : ∃ n, s.pushed - first = n + 1 := ⟨s.pushed - first - 1, by omega⟩
  have hQueue : s.queue.queue = first :: List.range' (first + 1) n := by rw [h.stored, hn, List.range'_succ]
  have hRest : s.pushed - (first + 1) = n := by omega
  have hLast : first + 1 + n = s.pushed := by omega
  refine ⟨by rw [hRest, hQueue], ?_⟩
  rw [State.push, SubscriptionQueue.push, if_pos hFull, hn]
  simp only [hQueue, List.tail_cons, List.head?_cons, Option.toList_some, if_true, List.range'_1_concat, hLast]

theorem push (h : Books s first) : ∃ first', Books s.push first' := by
  have hLt : ∀ k, k < s.pushed + 1 ↔ k < s.pushed ∨ k = s.pushed := fun k => by omega
  obtain hFull | hFull := Bool.eq_false_or_eq_true s.queue.fullNoLock
  · obtain ⟨hQueue, hPush⟩ := h.push_full hFull
    have hWithin : first + 1 ≤ s.pushed := by
      have hLength := h.length
      rw [hQueue, List.length_cons] at hLength
      omega
    have hSized : s.push.queue.Sized := by
      have hOld := h.sized.push s.pushed
      exact hOld
    rw [hPush] at hSized ⊢
    refine ⟨first + 1, hSized, Nat.le_succ_of_le hWithin, ?_, fun k => ?_, h.takenInOrder, fun k hk => ?_⟩
    · dsimp only
      rw [Nat.succ_sub_succ]
    · have hOld := h.places k
      have hConcat : List.range' (first + 1) (s.pushed - first) =
          List.range' (first + 1) (s.pushed - (first + 1)) ++ [s.pushed] := by
        obtain ⟨n, hn⟩ : ∃ n, s.pushed - first = n + 1 := ⟨s.pushed - first - 1, by omega⟩
        have hRest : s.pushed - (first + 1) = n := by omega
        have hLast : first + 1 + n = s.pushed := by omega
        rw [hn, hRest, List.range'_1_concat, hLast]
      rw [hQueue, List.count_cons] at hOld
      dsimp only
      rw [hConcat, List.count_append, List.count_append, List.count_singleton, List.count_singleton]
      grind
    · exact Nat.lt_succ_of_lt (h.takenBefore k hk)
  · have hPush : s.push = { s with
        queue := { s.queue with
          queue := s.queue.queue ++ [s.pushed], queueSize := s.queue.queueSize + 1, full := false }
        wasFull := false, pushed := s.pushed + 1 } := by
      rw [State.push, SubscriptionQueue.push, if_neg (by simp [hFull])]
      simp only [Bool.false_eq_true, if_false]
    have hSized : s.push.queue.Sized := h.sized.push s.pushed
    rw [hPush] at hSized ⊢
    refine ⟨first, hSized, Nat.le_succ_of_le h.within, ?_, fun k => ?_, h.takenInOrder, h.takenBefore⟩
    · have hWithin := h.within
      have hLength : s.pushed + 1 - first = s.pushed - first + 1 := by omega
      have hLast : first + (s.pushed - first) = s.pushed := by omega
      dsimp only
      rw [hLength, List.range'_1_concat, hLast, h.stored]
    · have hOld := h.places k
      dsimp only
      rw [List.count_append, List.count_singleton]
      grind

theorem clear (h : Books s first) : Books s.clear s.pushed where
  sized := SubscriptionQueue.sized_clear _
  within := Nat.le_refl _
  stored := by
    rw [State.clear, Nat.sub_self]
    rfl
  places k := by
    have hOld := h.places k
    rw [State.clear]
    dsimp only
    rw [SubscriptionQueue.clear, List.count_append, List.count_nil]
    omega
  takenInOrder := h.takenInOrder
  takenBefore k hk := Nat.lt_of_lt_of_le (h.takenBefore k hk) h.within

theorem take (h : Books s first) {item : Nat} {queue : SubscriptionQueue Nat}
    (hTake : s.queue.take = some (item, queue)) :
    item = first ∧ Books { s with queue, taken := s.taken ++ [item] } (first + 1) := by
  have hQueue := SubscriptionQueue.queue_of_take hTake
  have hLength := h.length
  rw [hQueue, List.length_cons] at hLength
  have hWithin : first + 1 ≤ s.pushed := by omega
  obtain ⟨n, hn⟩ : ∃ n, s.pushed - first = n + 1 := ⟨s.pushed - first - 1, by omega⟩
  have hStored := h.stored
  rw [hQueue, hn, List.range'_succ] at hStored
  obtain ⟨rfl, hRest⟩ := List.cons.inj hStored
  refine ⟨rfl, h.sized.take hTake, hWithin, ?_, fun k => ?_, ?_, fun k hk => ?_⟩
  · have hn' : s.pushed - (item + 1) = n := by omega
    dsimp only
    rw [hRest, hn']
  · have hOld := h.places k
    rw [hQueue, List.count_cons] at hOld
    dsimp only
    rw [List.count_append, List.count_singleton]
    omega
  · refine List.pairwise_append.mpr ⟨h.takenInOrder, List.pairwise_singleton .., fun k hk k' hk' => ?_⟩
    rw [List.mem_singleton.mp hk']
    exact h.takenBefore k hk
  · obtain hOld | hLast := List.mem_append.mp hk
    · exact Nat.lt_succ_of_lt (h.takenBefore k hOld)
    · rw [List.mem_singleton.mp hLast]
      exact Nat.lt_succ_self _

end Books

/-! ## The calls -/

structure Calls (frames : Nat → List Frame) (taken handed failed : List Nat) : Prop where
  nested : ∀ t, ∀ frame ∈ (frames t).tail, ∃ item, frame = .inCallback item
  inFlight : ∀ t item, pending (frames t) = some item → item ∈ taken ∧ item ∉ handed ∧ item ∉ failed
  apart : ∀ t t' item, pending (frames t) = some item → pending (frames t') = some item → t = t'
  handedOnce : handed.Nodup
  handedTaken : ∀ k ∈ handed, k ∈ taken ∧ k ∉ failed
  failedTaken : ∀ k ∈ failed, k ∈ taken
  goesOn : ∀ k ∈ taken, k ∈ handed ∨ k ∈ failed ∨ ∃ t, pending (frames t) = some k

theorem Calls.start : Calls (fun _ => []) [] [] [] where
  nested t frame hFrame := by cases hFrame
  inFlight t item hItem := by cases hItem
  apart t t' item hItem := by cases hItem
  handedOnce := .nil
  handedTaken k hk := by cases hk
  failedTaken k hk := by cases hk
  goesOn k hk := by cases hk

theorem pending_of_callbacks {frames : List Frame} (h : ∀ frame ∈ frames, ∃ item, frame = .inCallback item) :
    pending frames = none := by
  cases frames with
  | nil => rfl
  | cons frame rest =>
    obtain ⟨item, rfl⟩ := h frame List.mem_cons_self
    rfl

namespace Calls

variable {frames : Nat → List Frame} {taken handed failed : List Nat} {thread item : Nat} {rest new : List Frame}

theorem callbacks_of_free (h : Calls frames taken handed failed) (hFree : free (frames thread) = true) :
    ∀ frame ∈ frames thread, ∃ item, frame = .inCallback item := by
  have hNested := h.nested thread
  cases hFrames : frames thread with
  | nil =>
    intro frame hFrame
    cases hFrame
  | cons first rest =>
    rw [hFrames] at hNested hFree
    intro frame hFrame
    obtain rfl | hRest := List.mem_cons.mp hFrame
    · cases frame with
      | entered => cases hFree
      | taken item => cases hFree
      | inCallback item => exact ⟨item, rfl⟩
    · exact hNested frame hRest

theorem callbacks_of_cons {first : Frame} (h : Calls frames taken handed failed) (hOld : frames thread = first :: rest) :
    ∀ frame ∈ rest, ∃ item, frame = .inCallback item := by
  have hNested := h.nested thread
  rw [hOld] at hNested
  exact hNested

theorem nested_update (h : Calls frames taken handed failed) (hNew : ∀ frame ∈ new.tail, ∃ item, frame = .inCallback item) :
    ∀ t, ∀ frame ∈ (Function.update frames thread new t).tail, ∃ item, frame = .inCallback item :=
  forall_update (P := fun _ (frames : List Frame) => ∀ frame ∈ frames.tail, ∃ item, frame = .inCallback item) hNew fun t _ => h.nested t

theorem move (h : Calls frames taken handed failed) (hOld : pending (frames thread) = none) (hNone : pending new = none)
    (hNew : ∀ frame ∈ new.tail, ∃ item, frame = .inCallback item) :
    Calls (Function.update frames thread new) taken handed failed := by
  have hSame : ∀ t, pending (Function.update frames thread new t) = pending (frames t) :=
    forall_update (P := fun t new => pending new = pending (frames t)) (hNone.trans hOld.symm) fun _ _ => rfl
  refine ⟨h.nested_update hNew, fun t item => ?_, fun t t' item => ?_, h.handedOnce, h.handedTaken, h.failedTaken,
    fun k hk => ?_⟩
  · rw [hSame]
    exact h.inFlight t item
  · rw [hSame, hSame]
    exact h.apart t t' item
  · simp only [hSame]
    exact h.goesOn k hk

theorem take (h : Calls frames taken handed failed) (hOld : frames thread = .entered :: rest) (hFresh : item ∉ taken) :
    Calls (Function.update frames thread (.taken item :: rest)) (taken ++ [item]) handed failed := by
  have hOthers : ∀ t, t ≠ thread → pending (Function.update frames thread (.taken item :: rest) t) = pending (frames t) :=
    fun t ht => by rw [Function.update_of_ne ht]
  have hOwn : pending (Function.update frames thread (.taken item :: rest) thread) = some item := by
    rw [Function.update_self, pending]
  refine ⟨h.nested_update (h.callbacks_of_cons hOld), fun t k hk => ?_, fun t t' k hk hk' => ?_, h.handedOnce,
    fun k hk => ?_, fun k hk => List.mem_append_left _ (h.failedTaken k hk), fun k hk => ?_⟩
  · obtain rfl | ht := eq_or_ne t thread
    · rw [hOwn] at hk
      cases hk
      refine ⟨List.mem_append_right _ List.mem_cons_self, fun hIn => ?_, fun hIn => hFresh (h.failedTaken _ hIn)⟩
      exact hFresh (h.handedTaken _ hIn).1
    · rw [hOthers t ht] at hk
      obtain ⟨hTaken, hRest⟩ := h.inFlight t k hk
      exact ⟨List.mem_append_left _ hTaken, hRest⟩
  · have hNotOld : ∀ t, pending (frames t) ≠ some item := fun t ht => hFresh (h.inFlight t item ht).1
    obtain rfl | ht := eq_or_ne t thread
    · rw [hOwn] at hk
      cases hk
      by_contra hNe
      rw [hOthers t' (Ne.symm hNe)] at hk'
      exact hNotOld t' hk'
    · rw [hOthers t ht] at hk
      obtain rfl | ht' := eq_or_ne t' thread
      · rw [hOwn] at hk'
        cases hk'
        exact absurd hk (hNotOld t)
      · rw [hOthers t' ht'] at hk'
        exact h.apart t t' k hk hk'
  · obtain ⟨hTaken, hRest⟩ := h.handedTaken k hk
    exact ⟨List.mem_append_left _ hTaken, hRest⟩
  · obtain hk | hk := List.mem_append.mp hk
    · refine (h.goesOn k hk).imp_right fun hk => hk.imp_right fun hk => ?_
      refine exists_update (f := pending) hk fun hPending => ?_
      rw [hOld] at hPending
      cases hPending
    · rw [List.mem_singleton.mp hk]
      exact .inr (.inr ⟨thread, hOwn⟩)

theorem release (h : Calls frames taken handed failed) (hOld : frames thread = .taken item :: rest)
    (hNone : pending new = none) (hNew : ∀ frame ∈ new.tail, ∃ item, frame = .inCallback item) {handed' failed' : List Nat}
    (hEnds : handed' = handed ++ [item] ∧ failed' = failed ∨ handed' = handed ∧ failed' = failed ++ [item]) :
    Calls (Function.update frames thread new) taken handed' failed' := by
  have hPending : pending (frames thread) = some item := by rw [hOld, pending]
  obtain ⟨hTaken, hNotHanded, hNotFailed⟩ := h.inFlight thread item hPending
  have hOthers : ∀ t k, pending (Function.update frames thread new t) = some k →
      pending (frames t) = some k ∧ k ≠ item := by
    intro t k hk
    obtain rfl | ht := eq_or_ne t thread
    · rw [Function.update_self, hNone] at hk
      cases hk
    · rw [Function.update_of_ne ht] at hk
      refine ⟨hk, ?_⟩
      rintro rfl
      exact ht (h.apart t thread _ hk hPending)
  have hGoesOn : ∀ k ∈ taken, k ≠ item → k ∈ handed ∨ k ∈ failed ∨
      ∃ t, pending (Function.update frames thread new t) = some k := by
    intro k hk hNe
    refine (h.goesOn k hk).imp_right fun hk => hk.imp_right fun hk => ?_
    refine exists_update (f := pending) hk fun hSame => ?_
    exact absurd (Option.some.inj (hSame.symm.trans hPending)) hNe
  have hApart : ∀ t t' k, pending (Function.update frames thread new t) = some k →
      pending (Function.update frames thread new t') = some k → t = t' :=
    fun t t' k hk hk' => h.apart t t' k (hOthers t k hk).1 (hOthers t' k hk').1
  obtain ⟨rfl, rfl⟩ | ⟨rfl, rfl⟩ := hEnds
  · refine ⟨h.nested_update hNew, fun t k hk => ?_, hApart, ?_, fun k hk => ?_, h.failedTaken, fun k hk => ?_⟩
    · obtain ⟨hk, hNe⟩ := hOthers t k hk
      obtain ⟨hTaken, hHanded, hFailed⟩ := h.inFlight t k hk
      exact ⟨hTaken, by simp [hHanded, hNe], hFailed⟩
    · exact h.handedOnce.append (List.nodup_singleton _) (List.disjoint_singleton.mpr hNotHanded)
    · obtain hk | hk := List.mem_append.mp hk
      · exact h.handedTaken k hk
      · rw [List.mem_singleton.mp hk]
        exact ⟨hTaken, hNotFailed⟩
    · obtain rfl | hNe := eq_or_ne k item
      · exact .inl (List.mem_append_right _ List.mem_cons_self)
      · exact (hGoesOn k hk hNe).imp_left (List.mem_append_left _)
  · refine ⟨h.nested_update hNew, fun t k hk => ?_, hApart, h.handedOnce, fun k hk => ?_, fun k hk => ?_, fun k hk => ?_⟩
    · obtain ⟨hk, hNe⟩ := hOthers t k hk
      obtain ⟨hTaken, hHanded, hFailed⟩ := h.inFlight t k hk
      exact ⟨hTaken, hHanded, by simp [hFailed, hNe]⟩
    · obtain ⟨hk', hFailed⟩ := h.handedTaken k hk
      refine ⟨hk', fun hIn => ?_⟩
      obtain hIn | hIn := List.mem_append.mp hIn
      · exact hFailed hIn
      · rw [List.mem_singleton.mp hIn] at hk
        exact hNotHanded hk
    · obtain hk | hk := List.mem_append.mp hk
      · exact h.failedTaken k hk
      · rw [List.mem_singleton.mp hk]
        exact hTaken
    · obtain rfl | hNe := eq_or_ne k item
      · exact .inr (.inl (List.mem_append_right _ List.mem_cons_self))
      · exact (hGoesOn k hk hNe).imp_right (Or.imp_left (List.mem_append_left _))

theorem hand (h : Calls frames taken handed failed) (hOld : frames thread = .taken item :: rest) :
    Calls (Function.update frames thread (.inCallback item :: rest)) taken (handed ++ [item]) failed :=
  h.release hOld rfl (h.callbacks_of_cons hOld) (.inl ⟨rfl, rfl⟩)

end Calls

/-! ## The lock of the callbacks -/

structure Locked (frames : Nat → List Frame) (mutex : Option (Nat × Nat)) (handed : List Nat) : Prop where
  owner : ∀ t, frames t ≠ [] → mutex = some (t, (frames t).length)
  depth : ∀ t n, mutex = some (t, n) → n = (frames t).length ∧ n ≠ 0
  order : handed.Pairwise (· < ·)
  latest : ∀ t item, pending (frames t) = some item → ∀ k ∈ handed, k < item

theorem Locked.start : Locked (fun _ => []) none [] where
  owner t hSome := absurd rfl hSome
  depth t n hSome := by cases hSome
  order := .nil
  latest t item hSome := by cases hSome

namespace Locked

variable {frames : Nat → List Frame} {mutex : Option (Nat × Nat)} {handed : List Nat} {thread item : Nat}
  {rest new : List Frame} {frame : Frame}

theorem alone (h : Locked frames mutex handed) {t : Nat} (hThread : frames thread ≠ []) (hOther : frames t ≠ []) :
    t = thread :=
  congrArg Prod.fst (Option.some.inj ((h.owner t hOther).symm.trans (h.owner thread hThread)))

theorem of_alone (hAlone : ∀ t ≠ thread, frames t = []) {mutex' : Option (Nat × Nat)}
    (hMutex : new = [] ∧ mutex' = none ∨ new ≠ [] ∧ mutex' = some (thread, new.length)) {handed' : List Nat}
    (hOrder : handed'.Pairwise (· < ·)) (hLatest : ∀ item, pending new = some item → ∀ k ∈ handed', k < item) :
    Locked (Function.update frames thread new) mutex' handed' := by
  have hOthers : ∀ t ≠ thread, Function.update frames thread new t = [] :=
    fun t ht => (Function.update_of_ne ht ..).trans (hAlone t ht)
  refine ⟨fun t hSome => ?_, fun t n hSome => ?_, hOrder, fun t item hItem => ?_⟩
  · obtain rfl | ht := eq_or_ne t thread
    · rw [Function.update_self] at hSome ⊢
      exact (hMutex.resolve_left fun hNil => hSome hNil.1).2
    · exact absurd (hOthers t ht) hSome
  · obtain ⟨-, rfl⟩ | ⟨hNew, rfl⟩ := hMutex
    · cases hSome
    · cases hSome
      rw [Function.update_self]
      exact ⟨rfl, fun hZero => hNew (List.length_eq_zero_iff.mp hZero)⟩
  · obtain rfl | ht := eq_or_ne t thread
    · rw [Function.update_self] at hItem
      exact hLatest item hItem
    · rw [hOthers t ht] at hItem
      cases hItem

theorem tryLock (h : Locked frames mutex handed) {locked : Nat × Nat} (hLock : tryLock thread mutex = some locked) :
    locked = (thread, (frames thread).length + 1) ∧ ∀ t ≠ thread, frames t = [] := by
  cases mutex with
  | none =>
    cases hLock
    have hNone : ∀ t, frames t = [] := by
      intro t
      by_contra hSome
      cases h.owner t hSome
    exact ⟨by rw [hNone thread, List.length_nil], fun t _ => hNone t⟩
  | some pair =>
    obtain ⟨owner, count⟩ := pair
    rw [SubscriptionCalls.tryLock] at hLock
    split at hLock
    · rename_i hSame
      cases hLock
      subst hSame
      obtain ⟨hCount, -⟩ := h.depth owner count rfl
      refine ⟨by rw [hCount], fun t ht => ?_⟩
      by_contra hSome
      exact ht (congrArg Prod.fst (Option.some.inj (h.owner t hSome))).symm
    · cases hLock

theorem enter (h : Locked frames mutex handed) {locked : Nat × Nat} (hLock : SubscriptionCalls.tryLock thread mutex = some locked) :
    Locked (Function.update frames thread (.entered :: frames thread)) (some locked) handed := by
  obtain ⟨rfl, hAlone⟩ := h.tryLock hLock
  exact of_alone hAlone (.inr ⟨List.cons_ne_nil _ _, rfl⟩) h.order fun item hItem => by cases hItem

theorem others (h : Locked frames mutex handed) (hOld : frames thread = frame :: rest) : ∀ t ≠ thread, frames t = [] := by
  intro t ht
  by_contra hSome
  exact ht (h.alone (by simp [hOld]) hSome)

theorem take (h : Locked frames mutex handed) (hOld : frames thread = .entered :: rest) (hNewer : ∀ k ∈ handed, k < item) :
    Locked (Function.update frames thread (.taken item :: rest)) mutex handed := by
  refine of_alone (h.others hOld) (.inr ⟨List.cons_ne_nil _ _, ?_⟩) h.order fun item' hItem => ?_
  · rw [h.owner thread (by simp [hOld]), hOld, List.length_cons, List.length_cons]
  · cases hItem
    exact hNewer

theorem hand (h : Locked frames mutex handed) (hOld : frames thread = .taken item :: rest) :
    Locked (Function.update frames thread (.inCallback item :: rest)) mutex (handed ++ [item]) := by
  refine of_alone (h.others hOld) (.inr ⟨List.cons_ne_nil _ _, ?_⟩) ?_ fun item' hItem => by cases hItem
  · rw [h.owner thread (by simp [hOld]), hOld, List.length_cons, List.length_cons]
  · refine List.pairwise_append.mpr ⟨h.order, List.pairwise_singleton .., fun k hk k' hk' => ?_⟩
    rw [List.mem_singleton.mp hk']
    exact h.latest thread item (by rw [hOld, pending]) k hk

theorem leave (h : Locked frames mutex handed) (hOld : frames thread = frame :: rest) (hNone : pending rest = none) :
    Locked (Function.update frames thread rest) (unlock mutex) handed := by
  refine of_alone (h.others hOld) ?_ h.order fun item hItem => ?_
  · rw [h.owner thread (by simp [hOld]), hOld, List.length_cons]
    cases rest with
    | nil => exact .inl ⟨rfl, rfl⟩
    | cons next rest => exact .inr ⟨List.cons_ne_nil _ _, rfl⟩
  · cases hNone.symm.trans hItem

end Locked

/-! ## Whole runs -/

structure Inv (s : State) : Prop where
  books : ∃ first, Books s first
  calls : Calls s.frames s.taken s.handed s.failed
  locked : s.queue.allowConcurrentCallbacks = false → Locked s.frames s.callbackMutex s.handed

theorem Inv.start (size : Int32) (allowConcurrentCallbacks : Bool) : Inv (.start size allowConcurrentCallbacks) where
  books := ⟨0, .start size allowConcurrentCallbacks⟩
  calls := .start
  locked _ := .start

theorem Inv.semantics {s : State} (h : Inv s) : Semantics s := by
  obtain ⟨first, hBooks⟩ := h.books
  refine ⟨hBooks.sized.count, fun hSize => ⟨hBooks.sized.count_toNat hSize, hBooks.sized.within hSize⟩, hBooks.places,
    hBooks.takenInOrder, h.calls.goesOn, h.calls.handedOnce, h.calls.handedTaken, fun hAllow => (h.locked hAllow).order, ?_⟩
  intro hAllow t t' k k' hk hk'
  exact (h.locked hAllow).alone (List.ne_nil_of_mem hk') (List.ne_nil_of_mem hk)

theorem push_allowConcurrentCallbacks (s : State) :
    s.push.queue.allowConcurrentCallbacks = s.queue.allowConcurrentCallbacks := by
  show (s.queue.push s.pushed).1.allowConcurrentCallbacks = _
  rw [SubscriptionQueue.push]
  split <;> rfl

theorem take_allowConcurrentCallbacks {q q' : SubscriptionQueue Nat} {item : Nat} (h : q.take = some (item, q')) :
    q'.allowConcurrentCallbacks = q.allowConcurrentCallbacks := by
  rw [SubscriptionQueue.take] at h
  split at h
  · cases h
  · cases h
    rfl

namespace Inv

variable {s : State} {thread item : Nat} {rest : List Frame}

theorem push (h : Inv s) : Inv s.push := by
  obtain ⟨first, hBooks⟩ := h.books
  refine ⟨hBooks.push, h.calls, fun hAllow => ?_⟩
  rw [push_allowConcurrentCallbacks] at hAllow
  exact h.locked hAllow

theorem clear (h : Inv s) : Inv s.clear := by
  obtain ⟨first, hBooks⟩ := h.books
  exact ⟨⟨_, hBooks.clear⟩, h.calls, h.locked⟩

theorem call (h : Inv s) (hFree : free (s.frames thread) = true) : Inv (s.call thread) := by
  obtain ⟨first, hBooks⟩ := h.books
  have hCallbacks := h.calls.callbacks_of_free hFree
  have hCalls := h.calls.move (pending_of_callbacks hCallbacks) (rfl : pending (.entered :: s.frames thread) = none)
    hCallbacks
  simp only [State.call]
  split
  · rename_i hAllow
    refine ⟨⟨first, { hBooks with }⟩, hCalls, fun hNot => ?_⟩
    cases hAllow.symm.trans hNot
  · split
    · rename_i hLock
      exact ⟨⟨first, { hBooks with }⟩, hCalls, fun hAllow => (h.locked hAllow).enter hLock⟩
    · exact h

theorem leave (h : Inv s) {frame : Frame} (hOld : s.frames thread = frame :: rest) (hNone : pending (frame :: rest) = none) :
    Inv (s.leave thread rest) := by
  obtain ⟨first, hBooks⟩ := h.books
  have hCallbacks := h.calls.callbacks_of_cons hOld
  have hRest := pending_of_callbacks hCallbacks
  refine ⟨⟨first, { hBooks with }⟩, ?_, fun hAllow => ?_⟩
  · exact h.calls.move (hOld ▸ hNone) hRest fun frame hFrame => hCallbacks frame (List.mem_of_mem_tail hFrame)
  · have hAllow : s.queue.allowConcurrentCallbacks = false := hAllow
    simp only [State.leave, hAllow, Bool.false_eq_true, if_false]
    exact (h.locked hAllow).leave hOld hRest

theorem take (h : Inv s) (hOld : s.frames thread = .entered :: rest) : Inv (s.take thread rest) := by
  obtain ⟨first, hBooks⟩ := h.books
  rw [State.take]
  cases hTake : s.queue.take with
  | none => exact h.leave hOld rfl
  | some pair =>
    obtain ⟨item, queue⟩ := pair
    obtain ⟨rfl, hBooks'⟩ := hBooks.take hTake
    refine ⟨⟨_, { hBooks' with }⟩, ?_, fun hAllow => ?_⟩
    · exact h.calls.take hOld fun hIn => Nat.lt_irrefl _ (hBooks.takenBefore item hIn)
    · have hAllow' := (take_allowConcurrentCallbacks hTake).symm.trans hAllow
      exact (h.locked hAllow').take hOld fun k hk => hBooks.takenBefore k (h.calls.handedTaken k hk).1

theorem hand (h : Inv s) (hOld : s.frames thread = .taken item :: rest) (msg : Bool) : Inv (s.hand thread item msg rest) := by
  obtain ⟨first, hBooks⟩ := h.books
  have hCallbacks := h.calls.callbacks_of_cons hOld
  rw [State.hand]
  cases msg with
  | true =>
    rw [if_pos rfl]
    refine ⟨⟨first, { hBooks with }⟩, ?_, fun hAllow => (h.locked hAllow).hand hOld⟩
    exact h.calls.hand hOld
  | false =>
    rw [if_neg (by simp)]
    have hRest := pending_of_callbacks hCallbacks
    refine ⟨⟨first, { hBooks with }⟩, ?_, fun hAllow => ?_⟩
    · exact h.calls.release hOld hRest (fun frame hFrame => hCallbacks frame (List.mem_of_mem_tail hFrame))
        (.inr ⟨rfl, rfl⟩)
    · have hAllow : s.queue.allowConcurrentCallbacks = false := hAllow
      simp only [State.leave, hAllow, Bool.false_eq_true, if_false]
      exact (h.locked hAllow).leave hOld hRest

theorem step (h : Inv s) {a : Label} {s' : State} (hStep : s.step a = some s') : Inv s' := by
  cases a with
  | push thread =>
    obtain ⟨-, rfl⟩ := of_guard hStep
    exact h.push
  | full thread =>
    obtain ⟨-, rfl⟩ := of_guard hStep
    exact h
  | clear thread =>
    obtain ⟨-, rfl⟩ := of_guard hStep
    exact h.clear
  | call thread =>
    obtain ⟨hFree, rfl⟩ := of_guard hStep
    exact h.call hFree
  | take thread =>
    rw [State.step] at hStep
    split at hStep
    · rename_i rest hOld
      cases hStep
      exact h.take hOld
    all_goals cases hStep
  | hand thread msg =>
    rw [State.step] at hStep
    split at hStep
    · rename_i item rest hOld
      cases hStep
      exact h.hand hOld msg
    all_goals cases hStep
  | finish thread =>
    rw [State.step] at hStep
    split at hStep
    · rename_i item rest hOld
      cases hStep
      exact h.leave hOld rfl
    all_goals cases hStep

theorem discardsOldest (h : Inv s) {a : Label} {s' : State} (hStep : s.step a = some s') : DiscardsOldest s a s' := by
  obtain ⟨first, hBooks⟩ := h.books
  cases a with
  | push thread =>
    obtain ⟨-, rfl⟩ := of_guard hStep
    obtain hFull | hFull := Bool.eq_false_or_eq_true s.queue.fullNoLock
    · obtain ⟨-, hPush⟩ := hBooks.push_full hFull
      obtain ⟨hSize, hLength⟩ := length_of_full hBooks.sized hFull
      rw [hBooks.length] at hLength
      rw [hPush]
      refine ⟨[first], rfl, iff_of_true rfl (List.cons_ne_nil _ _), fun k hk => ⟨hSize, ?_⟩⟩
      rw [List.mem_singleton.mp hk, ← hLength]
    · refine ⟨[], ?_, ?_, fun k hk => by cases hk⟩
      · simp [State.push, SubscriptionQueue.push, hFull]
      · simp [State.push, SubscriptionQueue.push, hFull]
  | full thread =>
    obtain ⟨-, rfl⟩ := of_guard hStep
    rfl
  | clear thread =>
    obtain ⟨-, rfl⟩ := of_guard hStep
    rfl
  | call thread =>
    obtain ⟨-, rfl⟩ := of_guard hStep
    simp only [State.call]
    split
    · rfl
    · split <;> rfl
  | take thread =>
    rw [State.step] at hStep
    split at hStep
    · cases hStep
      rw [State.take]
      split <;> rfl
    all_goals cases hStep
  | hand thread msg =>
    rw [State.step] at hStep
    split at hStep
    · cases hStep
      rw [State.hand]
      split <;> rfl
    all_goals cases hStep
  | finish thread =>
    rw [State.step] at hStep
    split at hStep
    · cases hStep
      rfl
    all_goals cases hStep

end Inv

theorem queue_semantics {size : Int32} {allowConcurrentCallbacks : Bool} {s : State}
    (h : (calls size allowConcurrentCallbacks).Reachable s) :
    Semantics s ∧ ∀ a s', s.step a = some s' → DiscardsOldest s a s' := by
  have hInv : Inv s := h.invariant Inv (fun s (hInit : s = .start _ _) => hInit ▸ .start size allowConcurrentCallbacks)
    fun _ _ _ hInv _ hStep => hInv.step hStep
  exact ⟨hInv.semantics, fun _ _ hStep => hInv.discardsOldest hStep⟩

/-! ## Threads that call at once, messages that do not deserialize, and a queue without bound -/

def filled (n : Nat) : State :=
  { State.start 0 false with
    queue := ⟨List.range n, 0, false, UInt32.ofNat n, false⟩, pushed := n }

theorem filled_queueSize (n : Nat) : (filled n).queue.queueSize.toNat = n % 2 ^ 32 := UInt32.toNat_ofNat'

theorem filled_length (n : Nat) : (filled n).queue.queue.length = n := List.length_range

theorem reachable_filled (n : Nat) : (calls 0 false).Reachable (filled n) := by
  induction n with
  | zero => exact .init rfl
  | succ n ih =>
    refine ih.step (a := .push 0) trivial ?_
    have hFull : (filled n).queue.fullNoLock = false := rfl
    show some (filled n).push = some (filled (n + 1))
    rw [State.push, SubscriptionQueue.push, if_neg (by simp [hFull])]
    simp only [filled, List.range_succ, SubscriptionQueue.ofNat_succ, Bool.false_eq_true, if_false]
    rfl

def overtaken : List Label := [.push 0, .push 0, .call 1, .take 1, .call 2, .take 2, .hand 2 true, .hand 1 true]

def broken : List Label := [.push 0, .call 1, .take 1, .hand 1 false]

/-- A queue of two items that discards one; the callback of the next calls the queue itself. -/
def nestedCall : List Label :=
  [.push 0, .push 0, .push 0, .call 1, .call 2, .take 1, .hand 1 true, .call 1, .take 1, .hand 1 true, .finish 1, .push 1,
    .finish 1, .clear 0, .call 2, .take 2]

theorem queue_semantics_broken :
    (∃ s, (calls 2 true).Reachable s ∧ ¬ s.handed.Pairwise (· < ·)) ∧
      (∃ s, (calls 2 false).Reachable s ∧ s.pushed = 1 ∧ s.queue.queue = [] ∧ s.handed = [] ∧ s.cleared = [] ∧
        ∀ t, s.frames t = []) ∧
      ∃ s, (calls 0 false).Reachable s ∧ s.queue.queueSize.toNat ≠ s.queue.queue.length := by
  refine ⟨⟨_, .run (.init rfl) (rfl : (calls 2 true).run (.start 2 true) overtaken = some _), by decide⟩,
    ⟨_, .run (.init rfl) (rfl : (calls 2 false).run (.start 2 false) broken = some _), rfl, rfl, rfl, rfl, fun t => ?_⟩,
    ⟨filled (2 ^ 32), reachable_filled _, ?_⟩⟩
  · obtain _ | _ | t := t <;> rfl
  · rw [filled_queueSize, filled_length, Nat.mod_self]
    decide

theorem queue_semantics_nestedCall :
    ∃ s, (calls 2 false).run (.start 2 false) nestedCall = some s ∧ s.discarded = [0] ∧ s.handed = [1, 2] ∧
      s.cleared = [3] ∧ Semantics s := by
  refine ⟨_, rfl, rfl, rfl, rfl, (queue_semantics (.run (.init rfl)
    (rfl : (calls 2 false).run (.start 2 false) nestedCall = some _))).1⟩

end XcRos.Libros.SubscriptionCalls
