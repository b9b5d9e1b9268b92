import Mathlib.Data.List.Basic

/-! # Substring search

`indexOf pat s` is the position of the first occurrence of `pat` in `s`. The lemmas say where the
first occurrence lies when the text in front of it cannot contain the pattern's first letter.
-/

namespace XcRos.Foundation

universe u

variable {α : Type u} [DecidableEq α]

def indexOf (pat : List α) : List α → Option Nat
  | [] => if pat = [] then some 0 else none
  | c :: rest =>
    if pat <+: c :: rest then some 0
    else (indexOf pat rest).map (· + 1)

theorem indexOf_prefix (pat rest : List α) : indexOf pat (pat ++ rest) = some 0 := by
  cases hText : pat ++ rest with
  | nil =>
    have hPat : pat = [] := (List.append_eq_nil_iff.mp hText).1
    simp [indexOf, hPat]
  | cons c tail =>
    have hPrefix : pat <+: c :: tail := ⟨rest, hText⟩
    rw [indexOf, if_pos hPrefix]

theorem indexOf_append {c : α} {pat front : List α} (hFront : c ∉ front) (rest : List α) :
    indexOf (c :: pat) (front ++ rest) = (indexOf (c :: pat) rest).map (· + front.length) := by
  induction front with
  | nil => simp
  | cons d front ih =>
    have hHead : ¬ c :: pat <+: d :: (front ++ rest) := by
      intro h
      have hEq : c = d := (List.cons_prefix_cons.mp h).1
      exact hFront (hEq ▸ List.mem_cons_self)
    rw [List.cons_append, indexOf, if_neg hHead, ih (fun h => hFront (List.mem_cons_of_mem d h)),
      Option.map_map]
    rfl

theorem indexOf_first {c : α} {pat front : List α} (hFront : c ∉ front) (rest : List α) :
    indexOf (c :: pat) (front ++ (c :: pat ++ rest)) = some front.length := by
  rw [indexOf_append hFront, indexOf_prefix, Option.map_some, Nat.zero_add]

theorem indexOf_add_le {pat text : List α} {i : Nat} (h : indexOf pat text = some i) : i + pat.length ≤ text.length := by
  induction text generalizing i with
  | nil =>
    rw [indexOf] at h
    split at h
    · cases h
      simp [*]
    · cases h
  | cons c rest ih =>
    rw [indexOf] at h
    split at h
    · rename_i hPrefix
      cases h
      rw [Nat.zero_add]
      exact hPrefix.length_le
    · obtain ⟨j, hRest, rfl⟩ := Option.map_eq_some_iff.mp h
      have := ih hRest
      rw [List.length_cons]
      omega

theorem indexOf_prefix_drop {pat text : List α} {i : Nat} (h : indexOf pat text = some i) : pat <+: text.drop i := by
  induction text generalizing i with
  | nil =>
    rw [indexOf] at h
    split at h
    · cases h
      simp [*]
    · cases h
  | cons c rest ih =>
    rw [indexOf] at h
    split at h
    · rename_i hPrefix
      cases h
      exact hPrefix
    · obtain ⟨j, hRest, rfl⟩ := Option.map_eq_some_iff.mp h
      exact ih hRest

theorem indexOf_passed {pat passed : List α} (hPassed : ∀ i < passed.length, ¬ (passed.drop i).take pat.length <+: pat)
    (rest : List α) : indexOf pat (passed ++ rest) = (indexOf pat rest).map (· + passed.length) := by
  induction passed with
  | nil => simp
  | cons c passed ih =>
    have hHere : ¬ pat <+: c :: (passed ++ rest) := by
      intro h
      refine hPassed 0 (Nat.zero_lt_succ _) ?_
      have hFront : (c :: passed).take pat.length <+: c :: (passed ++ rest) :=
        (List.take_prefix _ _).trans (List.prefix_append (c :: passed) rest)
      exact List.prefix_of_prefix_length_le hFront h (List.length_take_le _ _)
    have hTail := ih fun i hi => hPassed (i + 1) (Nat.succ_lt_succ hi)
    rw [List.cons_append, indexOf, if_neg hHere, hTail, Option.map_map]
    congr 1

theorem indexOf_isSome_iff {pat text : List α} : (indexOf pat text).isSome = true ↔ pat <:+: text := by
  induction text with
  | nil =>
    rw [indexOf, List.infix_nil]
    split <;> simp [*]
  | cons c rest ih =>
    rw [indexOf, List.infix_cons_iff, ← ih]
    split <;> simp [*]

omit [DecidableEq α] in
theorem prefix_append_cons_iff {c : α} {pat : List α} (hPat : c ∉ pat) (front rest : List α) :
    pat <+: front ++ c :: rest ↔ pat <+: front := by
  induction front generalizing pat with
  | nil =>
    cases pat with
    | nil => simp
    | cons d pat =>
      rw [List.nil_append, List.cons_prefix_cons, List.prefix_nil]
      refine ⟨fun h => absurd h.1.symm (List.ne_of_not_mem_cons hPat), fun h => ?_⟩
      cases h
  | cons d front ih =>
    cases pat with
    | nil => simp
    | cons e pat =>
      rw [List.cons_append, List.cons_prefix_cons, List.cons_prefix_cons, ih (List.not_mem_of_not_mem_cons hPat)]

omit [DecidableEq α] in
theorem infix_append_cons_iff {c : α} {pat : List α} (hPat : c ∉ pat) (hNonempty : pat ≠ []) (front rest : List α) :
    pat <:+: front ++ c :: rest ↔ pat <:+: front ∨ pat <:+: rest := by
  induction front with
  | nil =>
    have hHead : ¬ pat <+: c :: rest := by
      rw [← List.nil_append (c :: rest), prefix_append_cons_iff hPat, List.prefix_nil]
      exact hNonempty
    rw [List.nil_append, List.infix_cons_iff, List.infix_nil]
    simp only [hHead, hNonempty, false_or]
  | cons d front ih =>
    rw [List.cons_append, List.infix_cons_iff, List.infix_cons_iff, ih, ← List.cons_append,
      prefix_append_cons_iff hPat, or_assoc]

end XcRos.Foundation
