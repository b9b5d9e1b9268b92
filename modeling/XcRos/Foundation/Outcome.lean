import Mathlib.Data.List.Basic

/-! # Results that may be errors

What a result says about the steps that it was made in: each of them had a result.
-/

namespace XcRos.Foundation

universe u

variable {α β ε : Type u}

theorem exists_of_bind {x : Except ε α} {f : α → Except ε β} {b : β} (h : x.bind f = .ok b) :
    ∃ a, x = .ok a ∧ f a = .ok b := by
  cases x with
  | error e => cases h
  | ok a => exact ⟨a, rfl, h⟩

@[simp]
theorem ok_bind (a : α) (f : α → Except ε β) : (Except.ok a).bind f = f a := rfl

@[simp]
theorem error_bind (e : ε) (f : α → Except ε β) : (Except.error e).bind f = .error e := rfl

theorem exists_of_map {x : Except ε α} {f : α → β} {b : β} (h : x.map f = .ok b) : ∃ a, x = .ok a ∧ f a = b := by
  cases x with
  | error e => cases h
  | ok a => exact ⟨a, rfl, Except.ok.inj h⟩

theorem exists_bind_iff {x : Except ε α} {f : α → Except ε β} :
    (∃ b, x.bind f = .ok b) ↔ ∃ a, x = .ok a ∧ ∃ b, f a = .ok b := by
  constructor
  · rintro ⟨b, h⟩
    obtain ⟨a, hx, ha⟩ := exists_of_bind h
    exact ⟨a, hx, b, ha⟩
  · rintro ⟨a, rfl, b, ha⟩
    exact ⟨b, ha⟩

theorem exists_map_iff {x : Except ε α} {f : α → β} : (∃ b, x.map f = .ok b) ↔ ∃ a, x = .ok a := by
  constructor
  · rintro ⟨b, h⟩
    obtain ⟨a, hx, -⟩ := exists_of_map h
    exact ⟨a, hx⟩
  · rintro ⟨a, rfl⟩
    exact ⟨f a, rfl⟩

/-! ## Forgetting the error -/

theorem toOption_eq_some {x : Except ε α} {a : α} : x.toOption = some a ↔ x = .ok a := by
  cases x with
  | error e => exact iff_of_false (fun h => by cases h) (fun h => by cases h)
  | ok b => exact ⟨fun h => congrArg Except.ok (Option.some.inj h), fun h => congrArg some (Except.ok.inj h)⟩

theorem toOption_bind (x : Except ε α) (f : α → Except ε β) :
    (x.bind f).toOption = x.toOption.bind fun a => (f a).toOption := by
  cases x <;> rfl

theorem toOption_map (x : Except ε α) (f : α → β) : (x.map f).toOption = x.toOption.map f := by
  cases x <;> rfl

theorem toOption_foldlM (f : β → α → Except ε β) (b : β) (as : List α) :
    (as.foldlM f b).toOption = as.foldlM (fun b a => (f b a).toOption) b := by
  induction as generalizing b with
  | nil => rfl
  | cons a as ih =>
    rw [List.foldlM_cons, List.foldlM_cons]
    show ((f b a).bind fun b' => as.foldlM f b').toOption = (f b a).toOption.bind fun b' => as.foldlM _ b'
    rw [toOption_bind]
    exact congrArg (f b a).toOption.bind (funext ih)

end XcRos.Foundation
