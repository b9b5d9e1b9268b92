import Mathlib.Data.Vector.Basic

/-! # Readers

A reader takes a value off the front of a stream, or fails. Reading many values one after another
undoes writing them one after another.
-/

namespace XcRos.Foundation

universe u v

variable {α : Type u} {β : Type v}

abbrev Reader (β : Type v) (α : Type u) : Type (max u v) := List β → Option (α × List β)

def advance (n : Nat) : Reader β (List β) := fun s => if n ≤ s.length then some (s.take n, s.drop n) else none

def readEach (read : Reader β α) : (n : Nat) → Reader β (List.Vector α n)
  | 0, s => some (.nil, s)
  | n + 1, s => (read s).bind fun (a, s) => (readEach read n s).map fun (as, s) => (a ::ᵥ as, s)

def readList (read : Reader β α) (n : Nat) : Reader β (List α) := fun s =>
  (readEach read n s).map fun (as, s) => (as.toList, s)

theorem advance_append (front rest : List β) : advance front.length (front ++ rest) = some (front, rest) := by
  rw [advance, if_pos (by simp), List.take_left, List.drop_left]

/-- What a partial encoder writes for the elements of a list, one behind the other. -/
def encodeEach (enc : α → Option (List β)) : List α → Option (List β)
  | [] => some []
  | a :: as => (enc a).bind fun front => (encodeEach enc as).map (front ++ ·)

theorem encodeEach_singleton (enc : α → Option (List β)) (a : α) : encodeEach enc [a] = enc a := by
  rw [encodeEach]
  cases enc a with
  | none => rfl
  | some front => simp [encodeEach]

theorem encodeEach_map {γ : Type u} (enc : α → Option (List β)) (g : γ → α) (as : List γ) :
    encodeEach enc (as.map g) = encodeEach (fun a => enc (g a)) as := by
  induction as with
  | nil => rfl
  | cons a as ih => rw [List.map_cons, encodeEach, encodeEach, ih]

theorem encodeEach_eq_none {enc : α → Option (List β)} {as : List α} {a : α} (ha : a ∈ as) (h : enc a = none) :
    encodeEach enc as = none := by
  induction as with
  | nil => exact absurd ha List.not_mem_nil
  | cons b as ih =>
    rw [encodeEach]
    rcases List.mem_cons.mp ha with rfl | ha
    · rw [h]
      rfl
    · rw [ih ha]
      cases enc b <;> rfl

theorem encodeEach_append (enc : α → Option (List β)) (as more : List α) :
    encodeEach enc (as ++ more) =
      (encodeEach enc as).bind fun front => (encodeEach enc more).map (front ++ ·) := by
  induction as with
  | nil => simp [encodeEach]
  | cons a as ih =>
    rw [List.cons_append, encodeEach, encodeEach, ih]
    cases enc a with
    | none => rfl
    | some front => cases encodeEach enc as <;> cases encodeEach enc more <;> simp

theorem encodeEach_congr {enc enc' : α → Option (List β)} {as : List α} (h : ∀ a ∈ as, enc a = enc' a) :
    encodeEach enc as = encodeEach enc' as := by
  induction as with
  | nil => rfl
  | cons a as ih =>
    rw [encodeEach, encodeEach, h a List.mem_cons_self, ih fun b hb => h b (List.mem_cons_of_mem a hb)]

theorem readEach_flatMap {read : Reader β α} {enc : α → List β} {n : Nat} {as : List.Vector α n}
    (h : ∀ a ∈ as.toList, ∀ rest, read (enc a ++ rest) = some (a, rest)) (rest : List β) :
    readEach read n (as.toList.flatMap enc ++ rest) = some (as, rest) := by
  induction n with
  | zero => rw [as.eq_nil]; rfl
  | succ n ih =>
    obtain ⟨a, as, rfl⟩ := as.exists_eq_cons
    rw [List.Vector.toList_cons] at h ⊢
    rw [List.flatMap_cons, List.append_assoc, readEach, h a List.mem_cons_self, Option.bind_some]
    show (readEach read n (as.toList.flatMap enc ++ rest)).map _ = _
    rw [ih fun b hb => h b (List.mem_cons_of_mem a hb)]
    rfl

theorem readList_flatMap {read : Reader β α} {enc : α → List β} {n : Nat} {as : List α} (hn : n = as.length)
    (h : ∀ a ∈ as, ∀ rest, read (enc a ++ rest) = some (a, rest)) (rest : List β) :
    readList read n (as.flatMap enc ++ rest) = some (as, rest) := by
  subst hn
  have hEach := @readEach_flatMap _ _ read enc as.length ⟨as, rfl⟩ h rest
  exact congrArg (Option.map fun (as, s) => (as.toList, s)) hEach

theorem readEach_forall {read : Reader β α} {P : α → Prop} (h : ∀ s a s', read s = some (a, s') → P a) {n : Nat}
    {as : List.Vector α n} {s s' : List β} (hRead : readEach read n s = some (as, s')) : ∀ a ∈ as.toList, P a := by
  induction n generalizing s with
  | zero =>
    rw [as.eq_nil]
    simp
  | succ n ih =>
    obtain ⟨⟨a, t⟩, hHead, hRest⟩ := Option.bind_eq_some_iff.mp hRead
    obtain ⟨⟨as', t'⟩, hTail, hEq⟩ := Option.map_eq_some_iff.mp hRest
    cases hEq
    rw [List.Vector.toList_cons]
    intro b hb
    obtain rfl | hb := List.mem_cons.mp hb
    · exact h s b t hHead
    · exact ih hTail b hb

theorem readList_forall {read : Reader β α} {P : α → Prop} (h : ∀ s a s', read s = some (a, s') → P a) {n : Nat}
    {as : List α} {s s' : List β} (hRead : readList read n s = some (as, s')) : as.length = n ∧ ∀ a ∈ as, P a := by
  obtain ⟨⟨v, t⟩, hEach, hEq⟩ := Option.map_eq_some_iff.mp hRead
  cases hEq
  exact ⟨v.toList_length, readEach_forall h hEach⟩

end XcRos.Foundation
