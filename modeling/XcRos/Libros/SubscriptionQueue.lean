import Mathlib.Data.Nat.Basic

/-! # The messages of a subscription

`SubscriptionQueue`: what is received is pushed here, and each call of the queue takes the first
message. A bounded queue that is full gives up its oldest message for the new one.
-/

namespace XcRos.Libros

/-- `queue` has the messages, of type `μ`, with what is needed to hand them over. -/
structure SubscriptionQueue (μ : Type) where
  queue : List μ
  size : Int32
  full : Bool
  queueSize : UInt32
  allowConcurrentCallbacks : Bool

namespace SubscriptionQueue

variable {μ : Type}

def new (size : Int32) (allowConcurrentCallbacks : Bool) : SubscriptionQueue μ :=
  ⟨[], size, false, 0, allowConcurrentCallbacks⟩

def fullNoLock (q : SubscriptionQueue μ) : Bool := 0 < q.size && q.size.toUInt32 ≤ q.queueSize

/-- `push`, with what it leaves in `was_full`. -/
def push (q : SubscriptionQueue μ) (i : μ) : SubscriptionQueue μ × Bool :=
  if q.fullNoLock then
    ({ q with queue := q.queue.tail ++ [i], queueSize := q.queueSize - 1 + 1, full := true }, true)
  else ({ q with queue := q.queue ++ [i], queueSize := q.queueSize + 1, full := false }, false)

def clear (q : SubscriptionQueue μ) : SubscriptionQueue μ := { q with queue := [], queueSize := 0 }

/-- The section of `call` under `queue_mutex_`. -/
def take (q : SubscriptionQueue μ) : Option (μ × SubscriptionQueue μ) :=
  match q.queue with
  | [] => none
  | i :: rest => some (i, { q with queue := rest, queueSize := q.queueSize - 1 })

/-- `queue_size_` counts the messages, and a bounded queue has no more than it may. -/
structure Sized (q : SubscriptionQueue μ) : Prop where
  count : q.queueSize = UInt32.ofNat q.queue.length
  within : 0 < q.size → q.queue.length ≤ q.size.toUInt32.toNat

theorem sized_new (size : Int32) (allowConcurrentCallbacks : Bool) :
    Sized (new size allowConcurrentCallbacks : SubscriptionQueue μ) := ⟨rfl, fun _ => Nat.zero_le _⟩

theorem toNat_pos {size : Int32} (h : 0 < size) : 0 < size.toUInt32.toNat := by
  apply Nat.pos_of_ne_zero
  intro hZero
  have hSize : size.toUInt32 = 0 := UInt32.toNat_inj.mp hZero
  have hEq : size = 0 := by
    cases size
    exact congrArg Int32.ofUInt32 hSize
  rw [hEq] at h
  exact absurd h (by decide)

theorem ofNat_succ (n : Nat) : UInt32.ofNat (n + 1) = UInt32.ofNat n + 1 := UInt32.ofNat_add n 1

variable {q : SubscriptionQueue μ}

theorem Sized.count_toNat (h : Sized q) (hSize : 0 < q.size) : q.queueSize.toNat = q.queue.length := by
  have hWithin := h.within hSize
  have hBound := q.size.toUInt32.toNat_lt
  rw [h.count, UInt32.toNat_ofNat', Nat.mod_eq_of_lt (Nat.lt_of_le_of_lt hWithin hBound)]

theorem Sized.queue_ne_nil (h : Sized q) (hFull : q.fullNoLock = true) : q.queue ≠ [] := by
  obtain ⟨hSize, hLe⟩ := Bool.and_eq_true_iff.mp hFull
  have hPos := of_decide_eq_true hSize
  have hCount := UInt32.le_iff_toNat_le.mp (of_decide_eq_true hLe)
  rw [h.count_toNat hPos] at hCount
  exact List.ne_nil_of_length_pos (Nat.lt_of_lt_of_le (toNat_pos hPos) hCount)

theorem Sized.push (h : Sized q) (i : μ) : Sized (q.push i).1 := by
  rw [SubscriptionQueue.push]
  split
  · rename_i hFull
    have hLength : (q.queue.tail ++ [i]).length = q.queue.length := by
      have := List.length_pos_iff.mpr (h.queue_ne_nil hFull)
      rw [List.length_append, List.length_tail, List.length_singleton]
      omega
    constructor
    · dsimp only
      rw [hLength, UInt32.sub_add_cancel, h.count]
    · dsimp only
      rw [hLength]
      exact h.within
  · rename_i hFull
    constructor
    · dsimp only
      rw [h.count, List.length_append, List.length_singleton, ofNat_succ]
    · intro hSize
      have hCount := h.count_toNat hSize
      have hLess : ¬ q.size.toUInt32 ≤ q.queueSize := by
        intro hLe
        exact hFull (Bool.and_eq_true_iff.mpr ⟨decide_eq_true hSize, decide_eq_true hLe⟩)
      rw [UInt32.le_iff_toNat_le, hCount] at hLess
      rw [List.length_append, List.length_singleton]
      exact Nat.lt_of_not_le hLess

theorem sized_clear (q : SubscriptionQueue μ) : Sized q.clear := ⟨rfl, fun _ => Nat.zero_le _⟩

theorem Sized.take (h : Sized q) {i : μ} {q' : SubscriptionQueue μ} (hTake : q.take = some (i, q')) : Sized q' := by
  rw [SubscriptionQueue.take] at hTake
  split at hTake
  · cases hTake
  · rename_i rest hQueue
    cases hTake
    constructor
    · dsimp only
      rw [h.count, hQueue, List.length_cons, ofNat_succ, UInt32.add_sub_cancel]
    · intro hSize
      have hWithin := h.within hSize
      rw [hQueue, List.length_cons] at hWithin
      exact Nat.le_of_succ_le hWithin

theorem Sized.length_push (h : Sized q) (i : μ) :
    (q.push i).1.queue.length = if (q.push i).2 then q.queue.length else q.queue.length + 1 := by
  rw [SubscriptionQueue.push]
  split
  · rename_i hFull
    have := List.length_pos_iff.mpr (h.queue_ne_nil hFull)
    simp only [if_true, List.length_append, List.length_tail, List.length_singleton]
    omega
  · simp only [Bool.false_eq_true, if_false, List.length_append, List.length_singleton]

theorem take_eq_none : q.take = none ↔ q.queue = [] := by
  rw [take]
  split
  · rename_i hQueue
    exact iff_of_true rfl hQueue
  · rename_i hQueue
    rw [hQueue]
    exact iff_of_false (fun h => by cases h) (List.cons_ne_nil _ _)

theorem queue_of_take {i : μ} {q' : SubscriptionQueue μ} (hTake : q.take = some (i, q')) : q.queue = i :: q'.queue := by
  rw [take] at hTake
  split at hTake
  · cases hTake
  · rename_i hQueue
    cases hTake
    exact hQueue

end SubscriptionQueue

end XcRos.Libros
