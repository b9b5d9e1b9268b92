import Mathlib.Data.List.Basic

/-! # Slash-separated paths

A path is a list over any alphabet with one letter for the separator. Its components are what stands
between the separators and is not empty; `absolute` puts a separator in front of each component.
-/

namespace XcRos.Foundation.Path

variable {α : Type} (sep : α)

def absolute (parts : List (List α)) : List α := parts.flatMap (sep :: ·)

@[simp] theorem absolute_nil : absolute sep [] = [] := rfl

@[simp] theorem absolute_cons (part : List α) (parts : List (List α)) :
    absolute sep (part :: parts) = sep :: (part ++ absolute sep parts) := rfl

theorem absolute_append (front back : List (List α)) :
    absolute sep (front ++ back) = absolute sep front ++ absolute sep back := List.flatMap_append

theorem absolute_eq_nil_iff (parts : List (List α)) : absolute sep parts = [] ↔ parts = [] := by
  cases parts with
  | nil => exact iff_of_true rfl rfl
  | cons part parts => exact iff_of_false (List.cons_ne_nil _ _) (List.cons_ne_nil _ _)

theorem cons_intercalate {parts : List (List α)} (h : parts ≠ []) :
    sep :: [sep].intercalate parts = absolute sep parts := by
  induction parts with
  | nil => exact absurd rfl h
  | cons part parts ih =>
    cases parts with
    | nil => simp [absolute]
    | cons next parts =>
      rw [List.intercalate_cons_cons, absolute_cons, ← ih (List.cons_ne_nil _ _), List.append_assoc,
        List.singleton_append]

theorem forall_mem_absolute_iff (p : α → Prop) (hSep : p sep) (parts : List (List α)) :
    (∀ c ∈ absolute sep parts, p c) ↔ ∀ part ∈ parts, ∀ c ∈ part, p c := by
  simp only [absolute, List.mem_flatMap, List.mem_cons]
  constructor
  · intro h part hPart c hc
    exact h c ⟨part, hPart, .inr hc⟩
  · rintro h c ⟨part, hPart, rfl | hc⟩
    · exact hSep
    · exact h part hPart c hc

variable [DecidableEq α]

def components (s : List α) : List (List α) := (s.splitOn sep).filter (· ≠ [])

theorem components_append_cons (front back : List α) :
    components sep (front ++ sep :: back) = components sep front ++ components sep back := by
  rw [components, List.splitOn_append_cons_self, List.filter_append]
  rfl

theorem components_of_not_mem {s : List α} (h : sep ∉ s) (hs : s ≠ []) : components sep s = [s] := by
  rw [components, List.splitOn_eq_singleton h]
  exact List.filter_cons_of_pos (by simpa using hs)

@[simp] theorem components_nil : components sep [] = [] := by
  rw [components, List.splitOn_nil]
  rfl

@[simp] theorem components_cons_self (s : List α) : components sep (sep :: s) = components sep s := by
  have h := components_append_cons sep [] s
  rwa [components_nil, List.nil_append, List.nil_append] at h

@[simp] theorem components_concat_self (s : List α) :
    components sep (s ++ [sep]) = components sep s := by
  rw [components_append_cons, components_nil, List.append_nil]

variable {sep}

theorem components_cons_cons_self {c : α} (hc : c ≠ sep) (s : List α) :
    components sep (c :: sep :: s) = [c] :: components sep s := by
  have h := components_append_cons sep [c] s
  rwa [components_of_not_mem sep (by simpa using Ne.symm hc) (List.cons_ne_nil _ _)] at h

theorem components_cons_cons {c d : α} (hc : c ≠ sep) (hd : d ≠ sep) (s : List α) :
    ∃ part parts, components sep (d :: s) = part :: parts ∧
      components sep (c :: d :: s) = (c :: part) :: parts := by
  obtain ⟨part, parts, hSplit⟩ := List.exists_cons_of_ne_nil (List.splitOn_ne_nil sep s)
  have hOne : (d :: s).splitOn sep = (d :: part) :: parts := by
    rw [List.splitOn_cons_eq_if_modifyHead, if_neg (by simpa using hd), hSplit]
    rfl
  have hTwo : (c :: d :: s).splitOn sep = (c :: d :: part) :: parts := by
    rw [List.splitOn_cons_eq_if_modifyHead, if_neg (by simpa using hc), hOne]
    rfl
  refine ⟨d :: part, parts.filter (· ≠ []), ?_, ?_⟩
  · rw [components, hOne]
    exact List.filter_cons_of_pos (by simp)
  · rw [components, hTwo]
    exact List.filter_cons_of_pos (by simp)

theorem components_cons_congr (c : α) {s t : List α} (hHead : s.head? = t.head?)
    (h : components sep s = components sep t) : components sep (c :: s) = components sep (c :: t) := by
  by_cases hc : c = sep
  · rw [hc, components_cons_self, components_cons_self, h]
  · cases s with
    | nil =>
      have ht : t = [] := List.head?_eq_none_iff.mp hHead.symm
      rw [ht]
    | cons d s =>
      obtain ⟨t, rfl⟩ := List.head?_eq_some_iff.mp hHead.symm
      by_cases hd : d = sep
      · rw [hd, components_cons_self, components_cons_self] at h
        rw [hd, components_cons_cons_self hc, components_cons_cons_self hc, h]
      · obtain ⟨part, parts, hOne, hTwo⟩ := components_cons_cons hc hd s
        obtain ⟨part', parts', hOne', hTwo'⟩ := components_cons_cons hc hd t
        rw [hOne, hOne', List.cons.injEq] at h
        rw [hTwo, hTwo', h.1, h.2]

theorem absolute_components {s : List α} (hDoubled : ¬ [sep, sep] <:+: s)
    (hLast : s.getLast? ≠ some sep) (hs : s ≠ []) :
    absolute sep (components sep s) = if s.head? = some sep then s else sep :: s := by
  induction s with
  | nil => exact absurd rfl hs
  | cons c rest ih =>
    have hDoubled' : ¬ [sep, sep] <:+: rest := fun h => hDoubled (List.infix_cons h)
    cases rest with
    | nil =>
      have hc : c ≠ sep := fun h => hLast (by rw [h]; rfl)
      rw [components_of_not_mem sep (by simpa using Ne.symm hc) hs, List.head?_cons,
        if_neg (by simpa using hc)]
      rfl
    | cons d rest =>
      have ih := ih hDoubled' (by rwa [List.getLast?_cons_cons] at hLast) (List.cons_ne_nil _ _)
      rw [List.head?_cons] at ih ⊢
      by_cases hc : c = sep
      · have hd : d ≠ sep := by
          rintro rfl
          exact hDoubled ⟨[], rest, by rw [hc]; rfl⟩
        rw [if_neg (by simpa using hd)] at ih
        rw [hc, components_cons_self, ih, if_pos rfl]
      · rw [if_neg (by simpa using hc)]
        by_cases hd : d = sep
        · rw [if_pos (by rw [hd])] at ih
          subst hd
          rw [components_cons_self] at ih
          rw [components_cons_cons_self hc, absolute_cons, ih]
          rfl
        · obtain ⟨part, parts, hOne, hTwo⟩ := components_cons_cons hc hd rest
          rw [if_neg (by simpa using hd), hOne, absolute_cons, List.cons.injEq] at ih
          rw [hTwo, absolute_cons, List.cons_append, ih.2]

theorem splitOn_map {β : Type} [DecidableEq β] {f : α → β} (hf : ∀ c, f c = f sep ↔ c = sep) (s : List α) :
    (s.map f).splitOn (f sep) = (s.splitOn sep).map (List.map f) := by
  induction s with
  | nil => rfl
  | cons c rest ih =>
    rw [List.map_cons, List.splitOn_cons_eq_if_modifyHead, List.splitOn_cons_eq_if_modifyHead, ih]
    by_cases hc : c = sep
    · rw [if_pos (by simpa using (hf c).mpr hc), if_pos (by simpa using hc)]
      rfl
    · rw [if_neg (by simpa using mt (hf c).mp hc), if_neg (by simpa using hc)]
      cases rest.splitOn sep <;> rfl

theorem components_map {β : Type} [DecidableEq β] {f : α → β} (hf : ∀ c, f c = f sep ↔ c = sep)
    (s : List α) : components (f sep) (s.map f) = (components sep s).map (List.map f) := by
  rw [components, splitOn_map hf, components, List.filter_map]
  congr 1
  refine List.filter_congr fun part _ => ?_
  simp

theorem mem_of_mem_splitOn {s part : List α} {c : α} (hPart : part ∈ s.splitOn sep) (hc : c ∈ part) :
    c ∈ s := by
  induction s generalizing part with
  | nil =>
    rw [List.splitOn_nil, List.mem_singleton] at hPart
    rwa [hPart] at hc
  | cons d rest ih =>
    rw [List.splitOn_cons_eq_if_modifyHead] at hPart
    split at hPart
    · obtain rfl | hPart := List.mem_cons.mp hPart
      · exact absurd hc List.not_mem_nil
      · exact List.mem_cons_of_mem d (ih hPart hc)
    · obtain ⟨first, parts, hSplit⟩ := List.exists_cons_of_ne_nil (List.splitOn_ne_nil sep rest)
      rw [hSplit, List.modifyHead_cons] at hPart
      obtain rfl | hPart := List.mem_cons.mp hPart
      · obtain rfl | hc := List.mem_cons.mp hc
        · exact List.mem_cons_self
        · exact List.mem_cons_of_mem d (ih (by rw [hSplit]; exact List.mem_cons_self) hc)
      · exact List.mem_cons_of_mem d (ih (by rw [hSplit]; exact List.mem_cons_of_mem first hPart) hc)

theorem mem_of_mem_components {s part : List α} {c : α} (hPart : part ∈ components sep s)
    (hc : c ∈ part) : c ∈ s :=
  mem_of_mem_splitOn (List.mem_of_mem_filter hPart) hc

end XcRos.Foundation.Path
