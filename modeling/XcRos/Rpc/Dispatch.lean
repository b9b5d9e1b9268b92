import XcRos.Foundation.Machine

/-! # One source under the dispatcher

What a pass of `RobotRpcDispatch::work` does for one source: it calls `handleEvent` for the events
that `poll` reported, and the conjunction of the returned masks says what to watch from then on.
-/

namespace XcRos.Rpc

inductive EventType where
  | readableEvent
  | writableEvent
  | exception
deriving DecidableEq, Repr

/-- An event mask; the three bits of the source's `unsigned`. -/
structure Mask where
  readable : Bool
  writable : Bool
  exception : Bool
deriving DecidableEq, Repr

namespace Mask

/-- `0` -/
def none : Mask := ⟨false, false, false⟩

/-- `(unsigned) -1` -/
def all : Mask := ⟨true, true, true⟩

def readableEvent : Mask := ⟨true, false, false⟩

def writableEvent : Mask := ⟨false, true, false⟩

/-- `WritableEvent | Exception` -/
def writableOrException : Mask := ⟨false, true, true⟩

def inter (m n : Mask) : Mask := ⟨m.readable && n.readable, m.writable && n.writable, m.exception && n.exception⟩

/-- The events requested by the mask that `poll` answers, in the order in which `work` tests them. -/
def answered (requested revents : Mask) : List EventType :=
  (if requested.readable && revents.readable then [.readableEvent] else []) ++
    (if requested.writable && revents.writable then [.writableEvent] else []) ++
    (if requested.exception && revents.exception then [.exception] else [])

end Mask

/-- `if (_connectionState == state) if (!helper()) return 0;` in front of the rest of a handler. -/
def stage {σ : Type} (inState : σ → Prop) [DecidablePred inState] (helper : σ → Bool × σ) (rest : σ → Mask × σ)
    (s : σ) : Mask × σ :=
  if inState s then
    let r := helper s
    if r.1 then rest r.2 else (.none, r.2)
  else rest s

/-- A pass in progress: the events still to be handled, and the conjunction of the masks returned. -/
structure Pass where
  pending : List EventType
  newMask : Mask
deriving DecidableEq, Repr

theorem stage_sound {σ : Type} {inState : σ → Prop} [DecidablePred inState] {helper : σ → Bool × σ}
    {rest : σ → Mask × σ} (inv : σ → Prop) {s : σ} (hHelper : inState s → inv (helper s).2)
    (hRest : ∀ next, inv next →
      (next = s ∧ ¬ inState s ∨ inState s ∧ (helper s).1 = true ∧ next = (helper s).2) → inv (rest next).2)
    (h : inv s) : inv (stage inState helper rest s).2 := by
  rw [stage]
  split
  · rename_i hState
    simp only
    split
    · rename_i hOk
      exact hRest _ (hHelper hState) (.inr ⟨hState, hOk, rfl⟩)
    · exact hHelper hState
  · rename_i hState
    exact hRest s h (.inl ⟨rfl, hState⟩)

theorem stage_map {σ τ : Type} (proj : σ → τ) {inState : τ → Prop} [DecidablePred inState] {helper : σ → Bool × σ}
    {helper' : τ → Bool × τ} {rest : σ → Mask × σ} {rest' : τ → Mask × τ} {s : σ}
    (hHelper : inState (proj s) → helper' (proj s) = ((helper s).1, proj (helper s).2))
    (hRest : ∀ next, (next = s ∧ ¬ inState (proj s) ∨ inState (proj s) ∧ next = (helper s).2) →
      rest' (proj next) = ((rest next).1, proj (rest next).2)) :
    stage inState helper' rest' (proj s) =
      ((stage (fun s => inState (proj s)) helper rest s).1, proj (stage (fun s => inState (proj s)) helper rest s).2) := by
  rw [stage, stage]
  split
  · rename_i hState
    simp only [hHelper hState]
    split
    · exact hRest _ (.inr ⟨hState, rfl⟩)
    · rfl
  · rename_i hState
    exact hRest s (.inl ⟨rfl, hState⟩)

end XcRos.Rpc
