import Mathlib.Data.List.Basic

/-! # Prefix codes

A code in which no word goes on to another is read off a stream in one way only, however much of
the stream has arrived.
-/

namespace XcRos.Foundation

universe u v

variable {α : Type u} {β : Type v}

/-- On the values that satisfy `ok` no code word is empty or starts another. -/
structure PrefixCode (ok : α → Prop) (enc : α → List β) : Prop where
  nonempty : ∀ a, ok a → enc a ≠ []
  unique : ∀ a b, ok a → ok b → ∀ x y, enc a ++ x = enc b ++ y → a = b

namespace PrefixCode

variable {ok : α → Prop} {enc : α → List β} (hCode : PrefixCode ok enc)

include hCode

theorem eq_append {as bs : List α} {x : List β} (hAs : ∀ a ∈ as, ok a) (hBs : ∀ b ∈ bs, ok b)
    (h : as.flatMap enc ++ x = bs.flatMap enc) : ∃ cs, bs = as ++ cs ∧ x = cs.flatMap enc := by
  induction as generalizing bs with
  | nil => exact ⟨bs, rfl, h⟩
  | cons a as ih =>
    have ha := hAs a List.mem_cons_self
    cases bs with
    | nil =>
      rw [List.flatMap_cons, List.append_assoc, List.flatMap_nil] at h
      exact absurd (List.append_eq_nil_iff.mp h).1 (hCode.nonempty a ha)
    | cons b bs =>
      rw [List.flatMap_cons, List.flatMap_cons, List.append_assoc] at h
      have hHead : a = b := hCode.unique a b ha (hBs b List.mem_cons_self) _ _ h
      subst hHead
      obtain ⟨cs, rfl, hRest⟩ := ih (fun c hc => hAs c (List.mem_cons_of_mem a hc))
        (fun c hc => hBs c (List.mem_cons_of_mem a hc)) (List.append_cancel_left h)
      exact ⟨cs, rfl, hRest⟩

end PrefixCode

end XcRos.Foundation
