import Mathlib.Data.List.Basic
import Mathlib.Data.List.Forall2

/-! # Text made of terminated lines

A text in which every line ends with a terminator that no line contains determines its lines. The
lemmas at the end relate the elements of two lists one by one.
-/

namespace XcRos.Foundation

universe u v w

variable {α : Type u} {β : Type v} {γ : Type w}

theorem eq_of_append_cons {c : α} {a a' b b' : List α} (ha : c ∉ a) (ha' : c ∉ a')
    (h : a ++ c :: b = a' ++ c :: b') : a = a' ∧ b = b' := by
  induction a generalizing a' with
  | nil =>
    cases a' with
    | nil => exact ⟨rfl, (List.cons.inj h).2⟩
    | cons d a' => exact absurd ((List.cons.inj h).1 ▸ List.mem_cons_self) ha'
  | cons d a ih =>
    cases a' with
    | nil => exact absurd ((List.cons.inj h).1 ▸ List.mem_cons_self) ha
    | cons d' a' =>
      obtain ⟨hHead, hTail⟩ := List.cons.inj h
      obtain ⟨hFront, hBack⟩ := ih (fun hMem => ha (List.mem_cons_of_mem d hMem))
        (fun hMem => ha' (List.mem_cons_of_mem d' hMem)) hTail
      exact ⟨by rw [hHead, hFront], hBack⟩

def terminated (sep : α) (lines : List (List α)) : List α := lines.flatMap (· ++ [sep])

@[simp] theorem terminated_nil (sep : α) : terminated sep [] = [] := rfl

@[simp] theorem terminated_cons (sep : α) (line : List α) (lines : List (List α)) :
    terminated sep (line :: lines) = line ++ sep :: terminated sep lines := by
  simp [terminated]

theorem terminated_append (sep : α) (lines more : List (List α)) :
    terminated sep (lines ++ more) = terminated sep lines ++ terminated sep more := by
  simp [terminated]

theorem terminated_injective {sep : α} {lines lines' : List (List α)} (h : ∀ line ∈ lines, sep ∉ line)
    (h' : ∀ line ∈ lines', sep ∉ line) (hEq : terminated sep lines = terminated sep lines') :
    lines = lines' := by
  induction lines generalizing lines' with
  | nil =>
    cases lines' with
    | nil => rfl
    | cons line' lines' => simp at hEq
  | cons line lines ih =>
    cases lines' with
    | nil => simp at hEq
    | cons line' lines' =>
      rw [terminated_cons, terminated_cons] at hEq
      obtain ⟨hLine, hRest⟩ := eq_of_append_cons (h line List.mem_cons_self) (h' line' List.mem_cons_self) hEq
      rw [hLine, ih (fun l hl => h l (List.mem_cons_of_mem line hl))
        (fun l hl => h' l (List.mem_cons_of_mem line' hl)) hRest]

theorem eq_of_map_eq {f : α → β} {as bs : List α} (h : ∀ a ∈ as, ∀ b ∈ bs, f a = f b → a = b)
    (hMap : as.map f = bs.map f) : as = bs := by
  induction as generalizing bs with
  | nil => exact (List.map_eq_nil_iff.mp hMap.symm).symm
  | cons a as ih =>
    cases bs with
    | nil => cases hMap
    | cons b bs =>
      obtain ⟨hHead, hTail⟩ := List.cons.inj hMap
      rw [h a List.mem_cons_self b List.mem_cons_self hHead,
        ih (fun c hc d hd => h c (List.mem_cons_of_mem a hc) d (List.mem_cons_of_mem b hd)) hTail]

/-- `mapM` over a list in `Option` relates the elements one by one. -/
theorem mapM_eq_some_iff {f : α → Option β} {as : List α} {bs : List β} :
    as.mapM f = some bs ↔ List.Forall₂ (fun a b => f a = some b) as bs := by
  induction as generalizing bs with
  | nil => cases bs <;> simp
  | cons a as ih =>
    rw [List.mapM_cons]
    constructor
    · intro h
      obtain ⟨b, hb, hRest⟩ := Option.bind_eq_some_iff.mp h
      obtain ⟨bs', hbs, hPure⟩ := Option.bind_eq_some_iff.mp hRest
      cases hPure
      exact .cons hb (ih.mp hbs)
    · intro h
      cases h with
      | cons hb hbs =>
        rw [hb, ih.mpr hbs]
        rfl

theorem exists_forall₂ {R : α → β → Prop} {as : List α} (h : ∀ a ∈ as, ∃ b, R a b) :
    ∃ bs, List.Forall₂ R as bs := by
  induction as with
  | nil => exact ⟨[], .nil⟩
  | cons a as ih =>
    obtain ⟨b, hb⟩ := h a List.mem_cons_self
    obtain ⟨bs, hbs⟩ := ih fun c hc => h c (List.mem_cons_of_mem a hc)
    exact ⟨b :: bs, .cons hb hbs⟩

theorem exists_left_of_forall₂ {R : α → β → Prop} {as : List α} {bs : List β} (h : List.Forall₂ R as bs) {b : β}
    (hb : b ∈ bs) : ∃ a ∈ as, R a b := by
  induction h with
  | nil => cases hb
  | @cons a b' as bs hHead _ ih =>
    rcases List.mem_cons.mp hb with rfl | hRest
    · exact ⟨a, List.mem_cons_self, hHead⟩
    · obtain ⟨a', ha', hRel⟩ := ih hRest
      exact ⟨a', List.mem_cons_of_mem a ha', hRel⟩

theorem forall₂_meet {R : α → γ → Prop} {S : β → γ → Prop} {as : List α} {bs : List β} {cs : List γ}
    (h : List.Forall₂ R as cs) (h' : List.Forall₂ S bs cs) :
    List.Forall₂ (fun a b => ∃ c, R a c ∧ S b c) as bs := by
  induction h generalizing bs with
  | nil =>
    cases h'
    exact .nil
  | @cons a c as cs hHead _ ih =>
    cases h' with
    | cons hHead' hTail' => exact .cons ⟨c, hHead, hHead'⟩ (ih hTail')

theorem eq_iff_forall_zip {R : α → γ → Prop} {S : β → γ → Prop} {P Q : α → β → Prop}
    (hPlace : ∀ a b c d, R a c → S b d → P a b → (c = d ↔ Q a b)) {as : List α} {bs : List β} {cs ds : List γ}
    (hR : List.Forall₂ R as cs) (hS : List.Forall₂ S bs ds) (hP : List.Forall₂ P as bs) :
    cs = ds ↔ ∀ pair ∈ as.zip bs, Q pair.1 pair.2 := by
  induction hP generalizing cs ds with
  | nil =>
    cases hR
    cases hS
    simp
  | @cons a b as bs hHead _ ih =>
    cases hR with
    | cons hRHead hRTail =>
      cases hS with
      | cons hSHead hSTail =>
        rw [List.cons.injEq, hPlace _ _ _ _ hRHead hSHead hHead, ih hRTail hSTail, List.zip_cons_cons]
        simp only [List.mem_cons, forall_eq_or_imp]

end XcRos.Foundation
