import XcRos.Rpc.CodableValue

/-! # Arrays that are filled by index

`XmlRpcValue::operator[]` on values that may change: an invalid value becomes an array, and an array grows up to the
index. An index is an `int`. `none` stands for an exception.
-/

namespace XcRos.Rpc

open XcRos.Foundation

universe u

namespace Value

/-- The elements of the array that `assertArray(size)` leaves. -/
def assertArray (size : Nat) : Value → Option (List Value)
  | .invalid => some (List.replicate size .invalid)
  | .array elements => some (elements ++ List.replicate (size - elements.length) .invalid)
  | _ => none

def setSize (size : Nat) (v : Value) : Option Value := (v.assertArray size).map .array

def size : Value → Option Nat
  | .string s => some s.length
  | .base64 data => some data.length
  | .array elements => some elements.length
  | .struct members => some members.length
  | _ => none

/-- A change of `v[i]`. -/
def modifyAt (i : Nat) (f : Value → Option Value) (v : Value) : Option Value :=
  if i < intMax then
    (v.assertArray (i + 1)).bind fun elements => elements[i]?.bind fun element =>
      (f element).map fun new => .array (elements.set i new)
  else none

/-- `v[i] = x` -/
def assign (v : Value) (i : Nat) (x : Value) : Option Value := v.modifyAt i fun _ => some x

/-- `v[i++] = f(a)` for one `a` after another. -/
def assignEach {α : Type u} (f : α → Option Value) : Nat → List α → Value → Option Value
  | _, [], v => some v
  | i, a :: as, v => (f a).bind fun x => (v.assign i x).bind (assignEach f (i + 1) as)

/-- `v[0] = …; v[1] = …; …` -/
def fill (cells : List Value) (v : Value) : Option Value := v.assignEach some 0 cells

theorem modifyAt_append {front : List Value} (h : front.length < intMax) (f : Value → Option Value) (old : List Value) :
    (array (front ++ old)).modifyAt front.length f =
      (f (old.headD .invalid)).map fun new => .array (front ++ new :: old.tail) := by
  rw [modifyAt, if_pos h]
  cases old with
  | nil =>
    simp [assertArray]
  | cons first old =>
    simp [assertArray]

theorem modifyAt_of_le {i : Nat} (h : intMax ≤ i) (f : Value → Option Value) (v : Value) : v.modifyAt i f = none := by
  rw [modifyAt, if_neg (Nat.not_lt.mpr h)]

theorem assign_invalid (x : Value) : invalid.assign 0 x = some (.array [x]) := rfl

theorem assign_append {front : List Value} (h : front.length < intMax) (x : Value) (old : List Value) :
    (array (front ++ old)).assign front.length x = some (.array (front ++ x :: old.tail)) := by
  rw [assign, modifyAt_append h]
  rfl

theorem assignEach_eq {xs front old : List Value} (hOld : old.length ≤ xs.length)
    (hBound : front.length + xs.length ≤ intMax) :
    (array (front ++ old)).assignEach some front.length xs = some (.array (front ++ xs)) := by
  induction xs generalizing front old with
  | nil =>
    rw [List.eq_nil_of_length_eq_zero (Nat.le_zero.mp hOld)]
    rfl
  | cons x xs ih =>
    rw [List.length_cons] at hBound hOld
    have hNext : old.tail.length ≤ xs.length := by
      rw [List.length_tail]
      omega
    have hTail := @ih (front ++ [x]) old.tail hNext (by rw [List.length_append, List.length_singleton]; omega)
    rw [List.length_append, List.length_singleton, List.append_assoc, List.append_assoc] at hTail
    rw [assignEach, Option.bind_some, assign_append (by omega), Option.bind_some]
    exact hTail

theorem assignEach_over {α : Type u} {f : α → Option Value} {as : List α} {front old : List Value} {v : Value}
    (h : (array (front ++ old)).assignEach f front.length as = some v) :
    ∃ xs, as.mapM f = some xs ∧ v = .array (front ++ xs ++ old.drop xs.length) := by
  induction as generalizing front old with
  | nil =>
    cases h
    exact ⟨[], rfl, by rw [List.append_nil]; rfl⟩
  | cons a as ih =>
    obtain ⟨x, hx, hRest⟩ := Option.bind_eq_some_iff.mp h
    obtain ⟨next, hAssign, hTail⟩ := Option.bind_eq_some_iff.mp hRest
    rcases Nat.lt_or_ge front.length intMax with hLt | hGe
    · have hNext : next = .array (front ++ [x] ++ old.tail) := by
        have hEq := assign_append hLt x old
        rw [hAssign] at hEq
        rw [List.append_assoc]
        exact Option.some.inj hEq
      have hLength : front.length + 1 = (front ++ [x]).length := by rw [List.length_append]; rfl
      rw [hNext, hLength] at hTail
      obtain ⟨xs, hxs, rfl⟩ := ih hTail
      refine ⟨x :: xs, ?_, ?_⟩
      · rw [List.mapM_cons, hx, hxs]
        rfl
      · rw [List.append_assoc front [x] xs, List.drop_tail]
        rfl
    · rw [assign, modifyAt_of_le hGe] at hAssign
      cases hAssign

theorem assignEach_some {α : Type u} {f : α → Option Value} {as : List α} {front : List Value} {v : Value}
    (h : (array front).assignEach f front.length as = some v) :
    ∃ xs, as.mapM f = some xs ∧ v = .array (front ++ xs) := by
  have hOver : (array (front ++ [])).assignEach f front.length as = some v := by rwa [List.append_nil]
  obtain ⟨xs, hxs, rfl⟩ := assignEach_over hOver
  exact ⟨xs, hxs, by rw [List.drop_nil, List.append_nil]⟩

theorem assignEach_mapM {α : Type u} {f : α → Option Value} {as : List α} {xs : List Value} (h : as.mapM f = some xs)
    (i : Nat) (v : Value) : v.assignEach f i as = v.assignEach some i xs := by
  induction as generalizing xs i v with
  | nil =>
    cases h
    rfl
  | cons a as ih =>
    rw [List.mapM_cons] at h
    obtain ⟨x, hx, hRest⟩ := Option.bind_eq_some_iff.mp h
    obtain ⟨ys, hys, hPure⟩ := Option.bind_eq_some_iff.mp hRest
    cases hPure
    rw [assignEach, assignEach, hx, Option.bind_some, Option.bind_some]
    congr 1
    funext w
    exact ih hys (i + 1) w

theorem fill_invalid {cells : List Value} (hSome : cells ≠ []) (hBound : cells.length ≤ intMax) :
    invalid.fill cells = some (.array cells) := by
  obtain ⟨x, xs, rfl⟩ := List.exists_cons_of_ne_nil hSome
  rw [List.length_cons] at hBound
  rw [fill, assignEach, Option.bind_some, assign_invalid, Option.bind_some]
  exact @assignEach_eq xs [x] [] (Nat.zero_le _) (by rw [List.length_singleton]; omega)

theorem fill_array {cells old : List Value} (hOld : old.length ≤ cells.length) (hBound : cells.length ≤ intMax) :
    (array old).fill cells = some (.array cells) :=
  @assignEach_eq cells [] old hOld (by rw [List.length_nil]; omega)

end Value

/-! ## Texts -/

section

variable [DoubleText]

theorem fromXml_of_codable {v : Value} (h : v.Codable) (hLength : v.toXml.length ≤ intMax) :
    fromXml v.toXml 0 = some (v, v.toXml.length) := by
  have hNoBlanks : ∀ c ∈ ([] : Bytes), isspace c = true := by simp
  have hDrop : v.toXml.drop 0 = [] ++ (v.toXml ++ []) := by rw [List.append_nil]; rfl
  have hRead := fromXml_behind h hLength hNoBlanks hDrop
  rwa [List.length_nil, Nat.zero_add] at hRead

theorem length_le_elementsToXml {elements : List Value} (h : ∀ v ∈ elements, v.Codable) :
    elements.length ≤ (elementsToXml elements).length := by
  induction elements with
  | nil => exact Nat.le_refl _
  | cons v elements ih =>
    obtain ⟨rest, hOpens⟩ := toXml_opens (h v List.mem_cons_self).ne_invalid
    have hTag : 0 < valueTag.length := by decide
    have hTail := ih fun w hw => h w (List.mem_cons_of_mem v hw)
    rw [elementsToXml, List.length_append, List.length_cons, hOpens, List.length_append]
    omega

theorem elementsToXml_length_le (elements : List Value) :
    (elementsToXml elements).length ≤ (Value.array elements).toXml.length := by
  simp only [Value.toXml, List.length_append]
  omega

end

end XcRos.Rpc
