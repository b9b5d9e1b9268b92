import Mathlib.Data.List.ReduceOption
import Mathlib.Data.Set.Finite.Basic
import XcRos.Foundation.Fuel
import XcRos.Foundation.Graph

/-! # Walks in order

A walk takes the children of a node one after the other, each with all that is below it, and gives
up at the first one that is missing. It keeps no record of where it has been: it ends exactly if it
enters no cycle before it gives up.
-/

namespace XcRos.Foundation

open Relation

variable {α : Type} (next : α → List (Option α))

/-- The children in order: `false` when one is missing, here or below. -/
def visit (f : α → Option Bool) : List (Option α) → Option Bool
  | [] => some true
  | none :: _ => some false
  | some b :: rest =>
    match f b with
    | none => none
    | some false => some false
    | some true => visit f rest

def walk : Nat → α → Option Bool := fuelled fun f a => visit f (next a)

/-- Nothing is missing below. -/
def Whole : α → Prop := Hereditary (fun a => (next a).reduceOption) fun a => none ∉ next a

/-- A walk from `a` gets as far as the child `b`. -/
def Enters (a b : α) : Prop :=
  ∃ front back, next a = front ++ some b :: back ∧ none ∉ front ∧ ∀ c, some c ∈ front → Whole next c

variable {next}

theorem visit_le {f g : α → Option Bool} (h : ∀ a r, f a = some r → g a = some r) {children : List (Option α)}
    {r : Bool} (hVisit : visit f children = some r) : visit g children = some r := by
  induction children with
  | nil => exact hVisit
  | cons child rest ih =>
    cases child with
    | none => exact hVisit
    | some b =>
      rw [visit] at hVisit ⊢
      cases hf : f b with
      | none =>
        rw [hf] at hVisit
        cases hVisit
      | some found =>
        rw [h b found hf]
        rw [hf] at hVisit
        cases found with
        | false => exact hVisit
        | true => exact ih hVisit

theorem visit_monotonic : Monotonic fun f a => visit f (next a) := fun _ _ h _ _ => visit_le h

theorem walk_le {fuel more : Nat} (hLe : fuel ≤ more) {a : α} {r : Bool} (h : walk next fuel a = some r) :
    walk next more a = some r :=
  fuelled_le visit_monotonic hLe h

theorem whole_iff {a : α} : Whole next a ↔ none ∉ next a ∧ ∀ b, some b ∈ next a → Whole next b := by
  constructor
  · rintro ⟨hNone, hBelow⟩
    exact ⟨hNone, fun b hb => hBelow b (List.reduceOption_mem_iff.mpr hb)⟩
  · rintro ⟨hNone, hBelow⟩
    exact .intro hNone fun b hb => hBelow b (List.reduceOption_mem_iff.mp hb)

theorem visit_true {f : α → Option Bool} {children : List (Option α)} (h : visit f children = some true) :
    none ∉ children ∧ ∀ b, some b ∈ children → f b = some true := by
  induction children with
  | nil => exact ⟨List.not_mem_nil, fun b hb => absurd hb List.not_mem_nil⟩
  | cons child rest ih =>
    cases child with
    | none => cases h
    | some b =>
      rw [visit] at h
      split at h
      · cases h
      · cases h
      · rename_i hb
        obtain ⟨hNone, hRest⟩ := ih h
        refine ⟨?_, fun c hc => ?_⟩
        · rintro (_ | ⟨_, hMem⟩)
          exact hNone hMem
        · obtain hEq | hMem := List.mem_cons.mp hc
          · cases hEq
            exact hb
          · exact hRest c hMem

/-- A walk that gives `true` has met everything below. -/
theorem whole_of_walk {fuel : Nat} {a : α} (h : walk next fuel a = some true) : Whole next a := by
  induction fuel generalizing a with
  | zero => cases h
  | succ fuel ih =>
    obtain ⟨hNone, hChildren⟩ := visit_true h
    exact whole_iff.mpr ⟨hNone, fun b hb => ih (hChildren b hb)⟩

theorem visit_isSome {f : α → Option Bool} {children : List (Option α)}
    (h : ∀ b, some b ∈ children → (f b).isSome) : (visit f children).isSome := by
  induction children with
  | nil => rfl
  | cons child rest ih =>
    cases child with
    | none => rfl
    | some b =>
      obtain ⟨found, hFound⟩ := Option.isSome_iff_exists.mp (h b List.mem_cons_self)
      rw [visit, hFound]
      cases found with
      | false => rfl
      | true => exact ih fun c hc => h c (List.mem_cons_of_mem _ hc)

theorem visit_eq_true {f : α → Option Bool} {children : List (Option α)} (hNone : none ∉ children)
    (hFalse : ∀ b, some b ∈ children → f b ≠ some false) {r : Bool} (h : visit f children = some r) : r = true := by
  induction children with
  | nil => exact (Option.some.inj h).symm
  | cons child rest ih =>
    cases child with
    | none => exact absurd List.mem_cons_self hNone
    | some b =>
      rw [visit] at h
      split at h
      · cases h
      · rename_i hb
        exact absurd hb (hFalse b List.mem_cons_self)
      · exact ih (fun hMem => hNone (List.mem_cons_of_mem _ hMem))
          (fun c hc => hFalse c (List.mem_cons_of_mem _ hc)) h

theorem visit_reaches {f : α → Option Bool} {front back : List (Option α)} {b : α} (hNone : none ∉ front)
    (hFalse : ∀ c, some c ∈ front → f c ≠ some false) {r : Bool}
    (h : visit f (front ++ some b :: back) = some r) : ∃ found, f b = some found := by
  induction front with
  | nil =>
    rw [List.nil_append, visit] at h
    cases hb : f b with
    | none =>
      rw [hb] at h
      cases h
    | some found => exact ⟨found, rfl⟩
  | cons child front ih =>
    cases child with
    | none => exact absurd List.mem_cons_self hNone
    | some c =>
      rw [List.cons_append, visit] at h
      split at h
      · cases h
      · rename_i hc
        exact absurd hc (hFalse c List.mem_cons_self)
      · exact ih (fun hMem => hNone (List.mem_cons_of_mem _ hMem))
          (fun d hd => hFalse d (List.mem_cons_of_mem _ hd)) h

theorem Whole.eq_true {a : α} (h : Whole next a) {fuel : Nat} {r : Bool} (hWalk : walk next fuel a = some r) :
    r = true := by
  induction fuel generalizing a r with
  | zero => cases hWalk
  | succ fuel ih =>
    obtain ⟨hNone, hBelow⟩ := whole_iff.mp h
    refine visit_eq_true hNone (fun b hb hFalse => ?_) hWalk
    cases ih (hBelow b hb) hFalse

theorem Whole.walk {a : α} (h : Whole next a) : ∃ fuel, walk next fuel a = some true := by
  have hReturns : ∀ (f : α → Option Bool) a, none ∉ next a → (∀ c ∈ (next a).reduceOption, (f c).isSome) →
      (visit f (next a)).isSome := fun f a _ hBelow =>
    visit_isSome fun b hb => hBelow b (List.reduceOption_mem_iff.mpr hb)
  obtain ⟨fuel, r, hWalk⟩ := exists_fuelled visit_monotonic hReturns h
  have hTrue : r = true := h.eq_true hWalk
  exact ⟨fuel, hTrue ▸ hWalk⟩

theorem walk_ends_iff_acc {a : α} :
    (∃ fuel r, walk next fuel a = some r) ↔ Acc (fun b a => Enters next a b) a := by
  constructor
  · rintro ⟨fuel, r, hWalk⟩
    induction fuel generalizing a r with
    | zero => cases hWalk
    | succ fuel ih =>
      refine Acc.intro a fun b hb => ?_
      obtain ⟨front, back, hNext, hNone, hFront⟩ := hb
      have hVisit : visit (walk next fuel) (front ++ some b :: back) = some r := hNext ▸ hWalk
      have hFalse : ∀ c, some c ∈ front → walk next fuel c ≠ some false := by
        intro c hc hFalse
        cases (hFront c hc).eq_true hFalse
      obtain ⟨found, hFound⟩ := visit_reaches hNone hFalse hVisit
      exact ih found hFound
  · intro h
    induction h with
    | intro a _ ih =>
      have hRest : ∀ back front, next a = front ++ back → none ∉ front → (∀ c, some c ∈ front → Whole next c) →
          ∃ fuel r, visit (walk next fuel) back = some r := by
        intro back
        induction back with
        | nil => exact fun _ _ _ _ => ⟨0, true, rfl⟩
        | cons child back ihBack =>
          intro front hNext hNone hFront
          cases child with
          | none => exact ⟨0, false, rfl⟩
          | some b =>
            obtain ⟨fuel, found, hFound⟩ := ih b ⟨front, back, hNext, hNone, hFront⟩
            cases found with
            | false =>
              refine ⟨fuel, false, ?_⟩
              rw [visit, hFound]
            | true =>
              have hFront' : ∀ c, some c ∈ front ++ [some b] → Whole next c := by
                intro c hc
                obtain hc | hc := List.mem_append.mp hc
                · exact hFront c hc
                · cases List.mem_singleton.mp hc
                  exact whole_of_walk hFound
              obtain ⟨more, r, hMore⟩ := ihBack (front ++ [some b]) (by rw [hNext, List.append_assoc]; rfl)
                (by simpa using hNone) hFront'
              refine ⟨max fuel more, r, ?_⟩
              rw [visit, walk_le (Nat.le_max_left fuel more) hFound]
              exact visit_le (fun _ _ => walk_le (Nat.le_max_right fuel more)) hMore
      obtain ⟨fuel, r, hVisit⟩ := hRest (next a) [] rfl List.not_mem_nil fun c hc => absurd hc List.not_mem_nil
      exact ⟨fuel + 1, r, hVisit⟩

/-- Among finitely many nodes a walk ends exactly if it enters no cycle. -/
theorem walk_ends_iff {a : α} (hFinite : {b | ReflTransGen (Enters next) a b}.Finite) :
    (∃ fuel r, walk next fuel a = some r) ↔ ∀ b, ReflTransGen (Enters next) a b → ¬ TransGen (Enters next) b b :=
  walk_ends_iff_acc.trans (acc_iff_of_finite hFinite)

end XcRos.Foundation
