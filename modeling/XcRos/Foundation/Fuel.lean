import Mathlib.Data.List.Basic

/-! # Recursion on fuel

`fuelled body n` unfolds a recursive partial function `n` times. If the body is monotone, the
result does not depend on the fuel, and if the calls are well-founded, enough fuel exists.
-/

namespace XcRos.Foundation

universe u v

variable {α : Type u} {β : Type v}

def fuelled (body : (α → Option β) → α → Option β) : Nat → α → Option β
  | 0 => fun _ => none
  | fuel + 1 => body (fuelled body fuel)

/-- A body that keeps its result when the recursive calls return more often. -/
def Monotonic (body : (α → Option β) → α → Option β) : Prop :=
  ∀ f g : α → Option β, (∀ a b, f a = some b → g a = some b) →
    ∀ a b, body f a = some b → body g a = some b

section

variable {body : (α → Option β) → α → Option β} (hBody : Monotonic body)

include hBody

theorem fuelled_succ {fuel : Nat} {a : α} {b : β} (h : fuelled body fuel a = some b) :
    fuelled body (fuel + 1) a = some b := by
  induction fuel generalizing a b with
  | zero => cases h
  | succ fuel ih => exact hBody _ _ (fun _ _ => ih) a b h

theorem fuelled_le {fuel more : Nat} (hLe : fuel ≤ more) {a : α} {b : β} (h : fuelled body fuel a = some b) :
    fuelled body more a = some b := by
  induction hLe with
  | refl => exact h
  | step _ ih => exact fuelled_succ hBody ih

theorem fuelled_unique {fuel fuel' : Nat} {a : α} {b b' : β} (h : fuelled body fuel a = some b)
    (h' : fuelled body fuel' a = some b') : b = b' := by
  have hMax := fuelled_le hBody (Nat.le_max_left fuel fuel') h
  have hMax' := fuelled_le hBody (Nat.le_max_right fuel fuel') h'
  exact Option.some.inj (hMax.symm.trans hMax')

end

/-- `ok` holds of the argument and of everything it leads to, and the calls are well-founded. -/
inductive Hereditary (calls : α → List α) (ok : α → Prop) : α → Prop
  | intro {a : α} (hOk : ok a) (hCalls : ∀ c ∈ calls a, Hereditary calls ok c) : Hereditary calls ok a

theorem exists_fuelled {body : (α → Option β) → α → Option β} (hBody : Monotonic body)
    {calls : α → List α} {ok : α → Prop}
    (hReturns : ∀ f a, ok a → (∀ c ∈ calls a, (f c).isSome) → (body f a).isSome) {a : α}
    (h : Hereditary calls ok a) : ∃ fuel b, fuelled body fuel a = some b := by
  induction h with
  | @intro a hOk _ ih =>
    have hEnough : ∀ cs : List α, (∀ c ∈ cs, ∃ fuel b, fuelled body fuel c = some b) →
        ∃ fuel, ∀ c ∈ cs, (fuelled body fuel c).isSome := by
      intro cs
      induction cs with
      | nil => exact fun _ => ⟨0, fun c hc => absurd hc List.not_mem_nil⟩
      | cons c cs ihCalls =>
        intro hAll
        obtain ⟨fuel, b, hHead⟩ := hAll c List.mem_cons_self
        obtain ⟨more, hTail⟩ := ihCalls fun d hd => hAll d (List.mem_cons_of_mem c hd)
        refine ⟨max fuel more, fun d hd => ?_⟩
        rcases List.mem_cons.mp hd with rfl | hd
        · rw [fuelled_le hBody (Nat.le_max_left fuel more) hHead]
          rfl
        · obtain ⟨b', hb'⟩ := Option.isSome_iff_exists.mp (hTail d hd)
          rw [fuelled_le hBody (Nat.le_max_right fuel more) hb']
          rfl
    obtain ⟨fuel, hCalls⟩ := hEnough (calls a) ih
    obtain ⟨b, hb⟩ := Option.isSome_iff_exists.mp (hReturns _ a hOk hCalls)
    exact ⟨fuel + 1, b, hb⟩

end XcRos.Foundation
