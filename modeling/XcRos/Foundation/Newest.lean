import Mathlib.Data.List.Infix

/-! # Queues that drop their oldest

A queue with room for `bound` elements makes room for another one by dropping the element that has waited
longest. What gets through is in order, and the last `bound` elements put in always do.
-/

namespace XcRos.Foundation

open scoped List

variable {α β : Type} {bound : Nat} {all kept : List α}

/-- What such a queue makes of `all`: some of it, in order, with the last `bound` elements. -/
structure KeepsNewest (bound : Nat) (all kept : List α) : Prop where
  sublist : kept <+ all
  newest : all.drop (all.length - bound) <:+ kept

namespace KeepsNewest

theorem nil : KeepsNewest bound ([] : List α) [] := ⟨.slnil, by simp⟩

theorem map (h : KeepsNewest bound all kept) (f : α → β) : KeepsNewest bound (all.map f) (kept.map f) := by
  constructor
  · exact h.sublist.map f
  · rw [List.length_map, ← List.map_drop]
    exact h.newest.map f

theorem newest_concat (hBound : 0 < bound) (hFull : bound ≤ all.length) (a : α) :
    (all ++ [a]).drop ((all ++ [a]).length - bound) = (all.drop (all.length - bound)).tail ++ [a] := by
  rw [List.length_append, List.length_singleton, List.drop_append_of_le_length (by omega), List.tail_drop]
  congr 2
  omega

theorem push (h : KeepsNewest bound all kept) (hBound : 0 < bound) (a : α) :
    KeepsNewest bound (all ++ [a]) (kept ++ [a]) := by
  constructor
  · exact h.sublist.append_right [a]
  · obtain hRoom | hFull := Nat.lt_or_ge all.length bound
    · have hAll := h.newest
      rw [Nat.sub_eq_zero_of_le hRoom.le, List.drop_zero] at hAll
      rw [List.length_append, List.length_singleton, Nat.sub_eq_zero_of_le hRoom, List.drop_zero]
      exact List.suffix_append_self_iff.mpr hAll
    · rw [newest_concat hBound hFull]
      exact List.suffix_append_self_iff.mpr ((List.tail_suffix _).trans h.newest)

theorem dropOldest {front waiting : List α} {oldest : α} (h : KeepsNewest bound all (front ++ oldest :: waiting))
    (hBound : 0 < bound) (hNone : bound ≤ waiting.length + 1) (a : α) :
    KeepsNewest bound (all ++ [a]) (front ++ waiting ++ [a]) := by
  have hLess : front ++ waiting <+ all :=
    ((List.sublist_cons_self oldest waiting).append_left front).trans h.sublist
  have hLength := h.sublist.length_le
  rw [List.length_append, List.length_cons] at hLength
  constructor
  · exact hLess.append_right [a]
  · rw [newest_concat hBound (by omega)]
    apply List.suffix_append_self_iff.mpr
    have hWaiting : waiting <:+ front ++ oldest :: waiting :=
      (List.suffix_cons oldest waiting).trans (List.suffix_append front _)
    have hNewest : (all.drop (all.length - bound)).tail <:+ waiting := by
      apply List.suffix_of_suffix_length_le ((List.tail_suffix _).trans h.newest) hWaiting
      rw [List.length_tail, List.length_drop]
      omega
    exact hNewest.trans (List.suffix_append front waiting)

end KeepsNewest

end XcRos.Foundation
