import Mathlib.Data.List.Basic
import Mathlib.Logic.Function.Basic

/-! # One member of many

What holds of a family of values, such as the calls of all threads, after one of them has changed, and of a
list after the entry under a key has gone.
-/

namespace XcRos.Foundation

theorem not_of_mem_eraseP {α β : Type} [BEq β] [LawfulBEq β] {f : α → β} {l : List α} {b : β}
    (h : l.Pairwise fun a a' => f a ≠ f a') {a : α} (ha : a ∈ l.eraseP fun a => f a == b) : f a ≠ b := by
  induction l with
  | nil => cases ha
  | cons first rest ih =>
    obtain ⟨hFirst, hRest⟩ := List.pairwise_cons.mp h
    by_cases hEq : f first = b
    · rw [List.eraseP_cons_of_pos (by simpa using hEq)] at ha
      exact fun hEq' => hFirst a ha (hEq.trans hEq'.symm)
    · rw [List.eraseP_cons_of_neg (by simpa using hEq)] at ha
      obtain rfl | ha := List.mem_cons.mp ha
      · exact hEq
      · exact ih hRest ha

variable {ι γ β : Type} [DecidableEq ι] {calls : ι → γ} {u : ι} {c : γ} {f : γ → Option β} {b : β}

theorem forall_update {P : ι → γ → Prop} (hNew : P u c) (hOld : ∀ t ≠ u, P t (calls t)) (t : ι) :
    P t (Function.update calls u c t) := by
  obtain rfl | ht := eq_or_ne t u
  · rw [Function.update_self]
    exact hNew
  · rw [Function.update_of_ne ht]
    exact hOld t ht

theorem exists_update_of {P : γ → Prop} (h : ∃ t, P (calls t)) (hKeeps : P (calls u) → P c) :
    ∃ t, P (Function.update calls u c t) := by
  obtain ⟨t, ht⟩ := h
  refine ⟨t, ?_⟩
  obtain rfl | hNe := eq_or_ne t u
  · rw [Function.update_self]
    exact hKeeps ht
  · rw [Function.update_of_ne hNe]
    exact ht

theorem exists_update (h : ∃ t, f (calls t) = some b) (hKeeps : f (calls u) = some b → f c = some b) :
    ∃ t, f (Function.update calls u c t) = some b :=
  @exists_update_of _ _ _ _ _ _ (fun call => f call = some b) h hKeeps

theorem exists_update_of_self {P : γ → Prop} (h : P c) : ∃ t, P (Function.update calls u c t) :=
  ⟨u, by rwa [Function.update_self]⟩

theorem exists_update_self (h : f c = some b) : ∃ t, f (Function.update calls u c t) = some b :=
  ⟨u, (congrArg f (Function.update_self ..)).trans h⟩

theorem exists_update_iff (h : f c = some b ↔ f (calls u) = some b) :
    (∃ t, f (Function.update calls u c t) = some b) ↔ ∃ t, f (calls t) = some b := by
  refine exists_congr fun t => ?_
  obtain rfl | hNe := eq_or_ne t u
  · rw [Function.update_self, h]
  · rw [Function.update_of_ne hNe]

theorem exists_of_update (h : ∃ t, f (Function.update calls u c t) = some b) (hKeeps : f c ≠ some b) :
    ∃ t, t ≠ u ∧ f (calls t) = some b := by
  obtain ⟨t, ht⟩ := h
  obtain rfl | hNe := eq_or_ne t u
  · rw [Function.update_self] at ht
    exact absurd ht hKeeps
  · rw [Function.update_of_ne hNe] at ht
    exact ⟨t, hNe, ht⟩

end XcRos.Foundation
