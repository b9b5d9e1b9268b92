import Mathlib.Data.Set.Finite.Basic
import Mathlib.Logic.Relation
import Mathlib.Order.WellFounded

/-! # Relations without cycles -/

namespace XcRos.Foundation

open Relation

variable {α : Type}

def Acyclic (r : α → α → Prop) : Prop := ∀ x, ¬ TransGen r x x

theorem acyclic_of_rank {r : α → α → Prop} (rank : α → Nat) (h : ∀ x y, r x y → rank y < rank x) :
    Acyclic r := by
  have hPath : ∀ {x y}, TransGen r x y → rank y < rank x := by
    intro x y hPath
    induction hPath with
    | single hStep => exact h _ _ hStep
    | tail _ hStep ih => exact Nat.lt_trans (h _ _ hStep) ih
  exact fun x hCycle => Nat.lt_irrefl _ (hPath hCycle)

theorem Acyclic.exists_last {r : α → α → Prop} (h : Acyclic r) {xs : List α} (hxs : xs ≠ []) :
    ∃ x ∈ xs, ∀ y ∈ xs, ¬ TransGen r x y := by
  induction xs with
  | nil => exact absurd rfl hxs
  | cons first rest ih =>
    by_cases hRest : rest = []
    · subst hRest
      refine ⟨first, List.mem_cons_self, fun y hy => ?_⟩
      rw [List.mem_singleton.mp hy]
      exact h first
    · obtain ⟨x, hx, hLast⟩ := ih hRest
      by_cases hFirst : TransGen r x first
      · refine ⟨first, List.mem_cons_self, fun y hy => ?_⟩
        obtain rfl | hy := List.mem_cons.mp hy
        · exact h y
        · exact fun hPath => hLast y hy (hFirst.trans hPath)
      · refine ⟨x, List.mem_cons_of_mem first hx, fun y hy => ?_⟩
        obtain rfl | hy := List.mem_cons.mp hy
        · exact hFirst
        · exact hLast y hy

theorem Acyclic.wellFounded [Finite α] {r : α → α → Prop} (h : Acyclic r) : WellFounded fun b a => r a b := by
  have hTrans : IsTrans α fun b a => TransGen r a b := ⟨fun _ _ _ hab hbc => hbc.trans hab⟩
  have hIrrefl : Std.Irrefl fun b a => TransGen r a b := ⟨h⟩
  have hWell : WellFounded fun b a => TransGen r a b := Finite.wellFounded_of_trans_of_irrefl _
  exact Subrelation.wf (fun hStep => TransGen.single hStep) hWell

theorem not_rel_of_acc {s : α → α → Prop} {a : α} (h : Acc s a) : ¬ s a a := by
  induction h with
  | intro a _ ih => exact fun hSelf => ih a hSelf hSelf

/-- From `a` every path ends, if what it leads to is finite and without cycles. -/
theorem acc_iff_of_finite {r : α → α → Prop} {a : α} (hFinite : {b | ReflTransGen r a b}.Finite) :
    Acc (fun b a => r a b) a ↔ ∀ b, ReflTransGen r a b → ¬ TransGen r b b := by
  constructor
  · intro h b hPath
    have hAcc : Acc (fun b a => r a b) b := by
      induction hPath with
      | refl => exact h
      | tail _ hStep ih => exact ih.inv hStep
    intro hCycle
    have hTrans : Acc (fun b a => TransGen r a b) b := by
      have hSwap := hAcc.transGen
      rwa [show TransGen (fun b a => r a b) = fun b a => TransGen r a b from
        funext fun _ => funext fun _ => propext transGen_swap] at hSwap
    exact not_rel_of_acc hTrans hCycle
  · intro hAcyclic
    have : Finite {b | ReflTransGen r a b} := hFinite
    have hSub : Acyclic fun x y : {b | ReflTransGen r a b} => r x.1 y.1 := fun b hCycle =>
      hAcyclic b.1 b.2 (TransGen.lift (p := r) Subtype.val (fun _ _ h => h) _ _ hCycle)
    have hWell := hSub.wellFounded
    have hAcc : ∀ b : {b | ReflTransGen r a b}, Acc (fun b a => r a b) b.1 := by
      intro b
      induction b using hWell.induction with
      | _ b ih => exact Acc.intro b.1 fun c hStep => ih ⟨c, b.2.tail hStep⟩ hStep
    exact hAcc ⟨a, .refl⟩

end XcRos.Foundation
