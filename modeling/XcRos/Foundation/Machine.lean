import Mathlib.Data.Option.Basic
import Mathlib.Logic.Basic

/-! # Machines with labelled partial steps

A label carries every choice that is not the program's own: which thread moves, what a system
call returns, what the network does. The step function is then a partial function, so a run is
fixed by its labels and can be evaluated.
-/

namespace XcRos.Foundation

universe u v

theorem of_guard {σ : Type u} {P : Prop} [Decidable P] {next s' : σ} (h : (if P then some next else none) = some s') :
    P ∧ s' = next :=
  (Option.ite_none_right_eq_some.mp h).imp_right fun hNext => (Option.some.inj hNext).symm

/-- Where a machine may start, and the state (if any) to which each label leads. -/
structure Machine (σ : Type u) (α : Type v) where
  Init : σ → Prop
  step : σ → α → Option σ

namespace Machine

variable {σ : Type u} {α : Type v} (M : Machine σ α)

/-- The states of the runs in which every step is permitted by `ok` in the state it leaves. -/
inductive ReachableWhen (ok : σ → α → Prop) : σ → Prop
  | init {s : σ} (hInit : M.Init s) : ReachableWhen ok s
  | step {s s' : σ} {a : α} (hReach : ReachableWhen ok s) (hOk : ok s a)
      (hStep : M.step s a = some s') : ReachableWhen ok s'

/-- The states of all runs. -/
abbrev Reachable : σ → Prop := M.ReachableWhen fun _ _ => True

/-- The state after the steps `as`, if each of them is enabled in its turn. -/
def run : σ → List α → Option σ
  | s, [] => some s
  | s, a :: as =>
    match M.step s a with
    | some s' => run s' as
    | none => none

variable {M}

theorem run_cons {s s' : σ} {a : α} {as : List α} (h : M.step s a = some s') :
    M.run s (a :: as) = M.run s' as := by
  simp only [run, h]

theorem run_append {s s' : σ} {as : List α} (h : M.run s as = some s') (bs : List α) :
    M.run s (as ++ bs) = M.run s' bs := by
  induction as generalizing s with
  | nil =>
    cases h
    rfl
  | cons a as ih =>
    rw [Machine.run] at h
    cases hStep : M.step s a with
    | none => simp only [hStep, reduceCtorEq] at h
    | some next =>
      simp only [hStep] at h
      rw [List.cons_append, run_cons hStep]
      exact ih h

theorem ReachableWhen.run {ok : σ → α → Prop} {s s' : σ} {as : List α} (hReach : M.ReachableWhen ok s)
    (hOk : ∀ a ∈ as, ∀ t, ok t a) (hRun : M.run s as = some s') : M.ReachableWhen ok s' := by
  induction as generalizing s with
  | nil =>
    cases hRun
    exact hReach
  | cons a as ih =>
    simp only [Machine.run] at hRun
    cases hStep : M.step s a with
    | none => simp only [hStep, reduceCtorEq] at hRun
    | some next =>
      simp only [hStep] at hRun
      exact ih (hReach.step (hOk a List.mem_cons_self s) hStep)
        (fun b hb => hOk b (List.mem_cons_of_mem a hb)) hRun

theorem Reachable.run {s s' : σ} {as : List α} (hReach : M.Reachable s)
    (hRun : M.run s as = some s') : M.Reachable s' :=
  ReachableWhen.run hReach (fun _ _ _ => trivial) hRun

/-- A run that stops at the first step that is not permitted. -/
def runWhen (M : Machine σ α) (ok : σ → α → Prop) [∀ s a, Decidable (ok s a)] : σ → List α → Option σ
  | s, [] => some s
  | s, a :: as =>
    if ok s a then
      match M.step s a with
      | some s' => runWhen M ok s' as
      | none => none
    else none

theorem ReachableWhen.runWhen {ok : σ → α → Prop} [∀ s a, Decidable (ok s a)] {s s' : σ} {as : List α}
    (hReach : M.ReachableWhen ok s) (hRun : M.runWhen ok s as = some s') : M.ReachableWhen ok s' := by
  induction as generalizing s with
  | nil =>
    cases hRun
    exact hReach
  | cons a as ih =>
    simp only [Machine.runWhen] at hRun
    split at hRun
    · rename_i hOk
      split at hRun
      · rename_i hStep
        exact ih (hReach.step hOk hStep) hRun
      · cases hRun
    · cases hRun

theorem ReachableWhen.invariant {ok : σ → α → Prop} (inv : σ → Prop)
    (hInit : ∀ s, M.Init s → inv s)
    (hStep : ∀ s a s', inv s → ok s a → M.step s a = some s' → inv s') {s : σ}
    (hReach : M.ReachableWhen ok s) : inv s := by
  induction hReach with
  | init h => exact hInit _ h
  | step _ hOk h ih => exact hStep _ _ _ ih hOk h

/-- If some step always lowers the measure until the goal holds, then a run to the goal exists. -/
theorem exists_run_of_measure (inv goal : σ → Prop) (μ : σ → Nat)
    (hProgress : ∀ s, inv s → ¬ goal s → ∃ a s', M.step s a = some s' ∧ inv s' ∧ μ s' < μ s)
    (s : σ) (hInv : inv s) : ∃ as s', M.run s as = some s' ∧ goal s' := by
  induction h : μ s using Nat.strongRecOn generalizing s with
  | ind n ih =>
    by_cases hGoal : goal s
    · exact ⟨[], s, rfl, hGoal⟩
    · obtain ⟨a, next, hStep, hNext, hLess⟩ := hProgress s hInv hGoal
      obtain ⟨as, last, hRun, hLast⟩ := ih (μ next) (h ▸ hLess) next hNext rfl
      exact ⟨a :: as, last, by rw [run_cons hStep, hRun], hLast⟩

end Machine

end XcRos.Foundation
