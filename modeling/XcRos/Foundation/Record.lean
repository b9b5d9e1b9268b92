import Mathlib.Data.List.Basic

/-! # Records

A record is a list of values by key. `modifyField` changes the value under a key, and fails if the
key is absent or the change fails.
-/

namespace XcRos.Foundation

universe u v

variable {κ : Type u} [DecidableEq κ] {α : Type v}

def modifyField (k : κ) (g : α → Option α) : List (κ × α) → Option (List (κ × α))
  | [] => none
  | (l, a) :: rest =>
    if l = k then (g a).map fun b => (l, b) :: rest
    else (modifyField k g rest).map ((l, a) :: ·)

variable {k l : κ} {f g : α → Option α} {r r' : List (κ × α)}

theorem modifyField_cons_self (a : α) (rest : List (κ × α)) :
    modifyField k g ((k, a) :: rest) = (g a).map fun b => (k, b) :: rest := by
  rw [modifyField, if_pos rfl]

theorem modifyField_cons_ne (h : l ≠ k) (a : α) (rest : List (κ × α)) :
    modifyField k g ((l, a) :: rest) = (modifyField k g rest).map ((l, a) :: ·) := by
  rw [modifyField, if_neg h]

theorem modifyField_append (h : k ∉ r.map Prod.fst) (rest : List (κ × α)) :
    modifyField k g (r ++ rest) = (modifyField k g rest).map (r ++ ·) := by
  induction r with
  | nil => simp
  | cons entry r ih =>
    obtain ⟨l, a⟩ := entry
    obtain ⟨hHead, hTail⟩ := not_or.mp (fun hMem => h (List.mem_cons.mpr hMem))
    rw [List.cons_append, modifyField_cons_ne (Ne.symm hHead), ih hTail, Option.map_map]
    rfl

theorem modifyField_modifyField :
    (modifyField k f r).bind (modifyField k g) = modifyField k (fun a => (f a).bind g) r := by
  induction r with
  | nil => rfl
  | cons entry r ih =>
    obtain ⟨l, a⟩ := entry
    rcases eq_or_ne l k with rfl | h
    · rw [modifyField_cons_self, modifyField_cons_self]
      cases f a with
      | none => rfl
      | some b => exact modifyField_cons_self b r
    · rw [modifyField_cons_ne h, modifyField_cons_ne h, ← ih]
      cases modifyField k f r with
      | none => rfl
      | some r' => exact modifyField_cons_ne h a r'

theorem modifyField_comm (h : k ≠ l) :
    (modifyField k f r).bind (modifyField l g) = (modifyField l g r).bind (modifyField k f) := by
  induction r with
  | nil => rfl
  | cons entry r ih =>
    obtain ⟨m, a⟩ := entry
    rcases eq_or_ne m k with rfl | hk
    · rw [modifyField_cons_self, modifyField_cons_ne h]
      cases hHead : f a <;> cases hRest : modifyField l g r <;> simp [modifyField_cons_self, modifyField_cons_ne h, *]
    · rw [modifyField_cons_ne hk]
      rcases eq_or_ne m l with rfl | hl
      · rw [modifyField_cons_self]
        cases hHead : g a <;> cases hRest : modifyField k f r <;> simp [modifyField_cons_self, modifyField_cons_ne hk, *]
      · rw [modifyField_cons_ne hl]
        have hK : ∀ o : Option (List (κ × α)), (o.map ((m, a) :: ·)).bind (modifyField l g) =
            (o.bind (modifyField l g)).map ((m, a) :: ·) := by
          rintro (_ | r')
          · rfl
          · exact modifyField_cons_ne hl a r'
        have hL : ∀ o : Option (List (κ × α)), (o.map ((m, a) :: ·)).bind (modifyField k f) =
            (o.bind (modifyField k f)).map ((m, a) :: ·) := by
          rintro (_ | r')
          · rfl
          · exact modifyField_cons_ne hk a r'
        rw [hK, hL, ih]

theorem lookup_modifyField [BEq κ] [LawfulBEq κ] (h : modifyField k g r = some r') :
    ∃ a b, r.lookup k = some a ∧ g a = some b ∧ r'.lookup k = some b := by
  induction r generalizing r' with
  | nil => cases h
  | cons entry r ih =>
    obtain ⟨l, a⟩ := entry
    rcases eq_or_ne l k with rfl | hNe
    · rw [modifyField_cons_self] at h
      obtain ⟨b, hb, rfl⟩ := Option.map_eq_some_iff.mp h
      exact ⟨a, b, List.lookup_cons_self, hb, List.lookup_cons_self⟩
    · rw [modifyField_cons_ne hNe] at h
      obtain ⟨rest, hRest, rfl⟩ := Option.map_eq_some_iff.mp h
      have hKey : (k == l) = false := beq_false_of_ne hNe.symm
      obtain ⟨b, c, hOld, hChange, hNew⟩ := ih hRest
      refine ⟨b, c, ?_, hChange, ?_⟩
      · rwa [List.lookup_cons, hKey]
      · rwa [List.lookup_cons, hKey]

theorem lookup_modifyField_ne [BEq κ] [LawfulBEq κ] (hNe : k ≠ l) (h : modifyField k g r = some r') :
    r'.lookup l = r.lookup l := by
  induction r generalizing r' with
  | nil => cases h
  | cons entry r ih =>
    obtain ⟨m, a⟩ := entry
    rcases eq_or_ne m k with rfl | hm
    · rw [modifyField_cons_self] at h
      obtain ⟨b, _, rfl⟩ := Option.map_eq_some_iff.mp h
      have hKey : (l == m) = false := beq_false_of_ne hNe.symm
      rw [List.lookup_cons, List.lookup_cons, hKey]
    · rw [modifyField_cons_ne hm] at h
      obtain ⟨rest, hRest, rfl⟩ := Option.map_eq_some_iff.mp h
      rw [List.lookup_cons, List.lookup_cons, ih hRest]

theorem modifyField_congr [BEq κ] [LawfulBEq κ] {a : α} (hOld : r.lookup k = some a) (h : f a = g a) :
    modifyField k f r = modifyField k g r := by
  induction r with
  | nil => cases hOld
  | cons entry r ih =>
    obtain ⟨l, b⟩ := entry
    rcases eq_or_ne l k with rfl | hNe
    · rw [List.lookup_cons_self] at hOld
      obtain rfl := Option.some.inj hOld
      rw [modifyField_cons_self, modifyField_cons_self, h]
    · have hKey : (k == l) = false := beq_false_of_ne hNe.symm
      rw [List.lookup_cons, hKey] at hOld
      rw [modifyField_cons_ne hNe, modifyField_cons_ne hNe, ih hOld]

theorem modifyField_some [BEq κ] [LawfulBEq κ] {a : α} (hOld : r.lookup k = some a) : modifyField k some r = some r := by
  induction r with
  | nil => cases hOld
  | cons entry r ih =>
    obtain ⟨l, b⟩ := entry
    rcases eq_or_ne l k with rfl | hNe
    · rw [modifyField_cons_self]
      rfl
    · have hKey : (k == l) = false := beq_false_of_ne hNe.symm
      rw [List.lookup_cons, hKey] at hOld
      rw [modifyField_cons_ne hNe, ih hOld]
      rfl

theorem modifyField_isSome [BEq κ] [LawfulBEq κ] {a b : α} (hOld : r.lookup k = some a) (h : g a = some b) :
    ∃ r', modifyField k g r = some r' := by
  induction r with
  | nil => cases hOld
  | cons entry r ih =>
    obtain ⟨l, c⟩ := entry
    rcases eq_or_ne l k with rfl | hNe
    · rw [List.lookup_cons_self] at hOld
      obtain rfl := Option.some.inj hOld
      rw [modifyField_cons_self, h]
      exact ⟨_, rfl⟩
    · have hKey : (k == l) = false := beq_false_of_ne hNe.symm
      rw [List.lookup_cons, hKey] at hOld
      obtain ⟨r', hr⟩ := ih hOld
      rw [modifyField_cons_ne hNe, hr]
      exact ⟨_, rfl⟩

end XcRos.Foundation
