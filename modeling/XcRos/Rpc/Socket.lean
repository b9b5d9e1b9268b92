import Mathlib.Data.List.Basic

/-! # Non-blocking socket transfers

`nbRead` and `nbWrite` loop over `read(2)` and `write(2)`. What the kernel answers to the
successive calls is a list of results; when the list ends the call would block.
-/

namespace XcRos.Rpc

abbrev Bytes := List UInt8

def bytes (s : String) : Bytes := s.toList.map fun c => UInt8.ofNat c.toNat

/-- `__INT_MAX__` -/
def intMax : Nat := 2147483647

/-- One `write(2)`: `wrote n` is a kernel that takes `n + 1` bytes, or the rest if that is less. -/
inductive WriteResult where
  | wrote (n : Nat)
  | nonFatalError
  | fatalError
deriving DecidableEq, Repr

/-- One `read(2)` of at least one byte, of end of file, or of an error. -/
inductive ReadResult where
  | data (first : UInt8) (rest : Bytes)
  | eof
  | nonFatalError
  | fatalError
deriving DecidableEq, Repr

/-- The loop of `nbWrite` from `bytesSoFar` on: the value returned and the new `*bytesSoFar`. -/
def nbWriteLoop (s : Bytes) : Nat → List WriteResult → Bool × Nat
  | bytesSoFar, [] => (true, bytesSoFar)
  | bytesSoFar, result :: results =>
    if bytesSoFar < s.length then
      match result with
      | .wrote n => nbWriteLoop s (bytesSoFar + min (n + 1) (s.length - bytesSoFar)) results
      | .nonFatalError => (true, bytesSoFar)
      | .fatalError => (false, bytesSoFar)
    else (true, bytesSoFar)

def nbWrite (s : Bytes) (bytesSoFar : Nat) (results : List WriteResult) : Bool × Nat :=
  if s.length > intMax then (false, bytesSoFar)
  else nbWriteLoop s bytesSoFar results

/-- The bytes that a call of `nbWrite` moving `*bytesSoFar` from `start` to `stop` puts on the wire. -/
def written (s : Bytes) (start stop : Nat) : Bytes := (s.take stop).drop start

structure NbRead where
  ok : Bool
  text : Bytes
  eof : Bool
deriving DecidableEq, Repr

def nbReadLoop : Bytes → List ReadResult → NbRead
  | s, [] => ⟨true, s, false⟩
  | s, .data first rest :: results => nbReadLoop (s ++ first :: rest) results
  | s, .eof :: _ => ⟨true, s, true⟩
  | s, .nonFatalError :: _ => ⟨true, s, false⟩
  | s, .fatalError :: _ => ⟨false, s, false⟩

def nbRead (s : Bytes) (results : List ReadResult) : NbRead :=
  let r := nbReadLoop s results
  -- a fatal error returns before the overrun check, so the text read so far stays
  if r.ok = true ∧ r.text.length > intMax then ⟨false, [], r.eof⟩ else r

theorem nbWriteLoop_bounds (s : Bytes) (results : List WriteResult) (bytesSoFar : Nat)
    (h : bytesSoFar ≤ s.length) :
    bytesSoFar ≤ (nbWriteLoop s bytesSoFar results).2 ∧
      (nbWriteLoop s bytesSoFar results).2 ≤ s.length := by
  induction results generalizing bytesSoFar with
  | nil => exact ⟨Nat.le_refl _, h⟩
  | cons result results ih =>
    cases result with
    | wrote n =>
      rw [nbWriteLoop]
      split
      · obtain ⟨hLow, hHigh⟩ := ih (bytesSoFar + min (n + 1) (s.length - bytesSoFar)) (by omega)
        exact ⟨by omega, hHigh⟩
      · exact ⟨Nat.le_refl _, h⟩
    | nonFatalError | fatalError =>
      rw [nbWriteLoop]
      split <;> exact ⟨Nat.le_refl _, h⟩

theorem nbWrite_bounds (s : Bytes) (results : List WriteResult) (bytesSoFar : Nat)
    (h : bytesSoFar ≤ s.length) :
    bytesSoFar ≤ (nbWrite s bytesSoFar results).2 ∧ (nbWrite s bytesSoFar results).2 ≤ s.length := by
  rw [nbWrite]
  split
  · exact ⟨Nat.le_refl _, h⟩
  · exact nbWriteLoop_bounds s results bytesSoFar h

theorem nbWriteLoop_ok (s : Bytes) (results : List WriteResult) (bytesSoFar : Nat)
    (h : .fatalError ∉ results) : (nbWriteLoop s bytesSoFar results).1 = true := by
  induction results generalizing bytesSoFar with
  | nil => rfl
  | cons result results ih =>
    have hRest : .fatalError ∉ results := fun hMem => h (List.mem_cons_of_mem _ hMem)
    cases result with
    | wrote n =>
      rw [nbWriteLoop]
      split
      · exact ih _ hRest
      · rfl
    | nonFatalError =>
      rw [nbWriteLoop]
      split <;> rfl
    | fatalError => exact absurd List.mem_cons_self h

theorem take_append_written (s : Bytes) {start stop : Nat} (h : start ≤ stop) :
    s.take start ++ written s start stop = s.take stop := by
  have hTake : s.take start = (s.take stop).take start := by
    rw [List.take_take, Nat.min_eq_left h]
  rw [hTake, written, List.take_append_drop]

end XcRos.Rpc
