import Mathlib.Data.List.Infix
import XcRos.Foundation.Lines
import XcRos.Foundation.Search

/-! # Delimiters of several elements

Splitting a list at a delimiter, and replacing a part of it, from the left: what was found last
takes the next `skip` elements. Splitting inverts joining if the delimiter begins nowhere in the
chunks; a delimiter that is a whole line begins nowhere in chunks without this line.
-/

namespace XcRos.Foundation

universe u

variable {α : Type u}

/-- The delimiter begins nowhere in the chunk, whatever stands behind the next delimiter. -/
def Undelimited (sep chunk : List α) : Prop :=
  ∀ front x back, chunk = front ++ x → x ≠ [] → ¬ sep <+: x ++ sep ++ back

theorem Undelimited.tail {sep : List α} {c : α} {chunk : List α} (h : Undelimited sep (c :: chunk)) :
    Undelimited sep chunk :=
  fun front x back hChunk => h (c :: front) x back (by rw [hChunk, List.cons_append])

variable [DecidableEq α]

def splitAround (sep : List α) : Nat → List α → List (List α)
  | _, [] => [[]]
  | skip + 1, _ :: rest => splitAround sep skip rest
  | 0, c :: rest =>
    if sep <+: c :: rest then [] :: splitAround sep (sep.length - 1) rest
    else
      match splitAround sep 0 rest with
      | [] => [[c]]
      | part :: parts => (c :: part) :: parts

def replaceAll (old new : List α) : Nat → List α → List α
  | _, [] => []
  | skip + 1, _ :: rest => replaceAll old new skip rest
  | 0, c :: rest =>
    if old <+: c :: rest then new ++ replaceAll old new (old.length - 1) rest
    else c :: replaceAll old new 0 rest

/-! ## Splitting -/

variable {sep : List α}

theorem splitAround_skip (front back : List α) :
    splitAround sep front.length (front ++ back) = splitAround sep 0 back := by
  induction front with
  | nil => rfl
  | cons c front ih => exact ih

theorem splitAround_delimiter (hSep : sep ≠ []) (back : List α) :
    splitAround sep 0 (sep ++ back) = [] :: splitAround sep 0 back := by
  obtain ⟨c, tail, rfl⟩ := List.exists_cons_of_ne_nil hSep
  rw [List.cons_append, splitAround, if_pos (by rw [← List.cons_append]; exact List.prefix_append _ _)]
  exact congrArg ([] :: ·) (splitAround_skip tail back)

theorem Undelimited.split_append {chunk : List α} (h : Undelimited sep chunk) (hSep : sep ≠ []) (back : List α) :
    splitAround sep 0 (chunk ++ sep ++ back) = chunk :: splitAround sep 0 back := by
  induction chunk with
  | nil => exact splitAround_delimiter hSep back
  | cons c chunk ih =>
    have hHere : ¬ sep <+: c :: (chunk ++ sep ++ back) := h [] (c :: chunk) back rfl (List.cons_ne_nil c chunk)
    rw [List.cons_append, List.cons_append, splitAround, if_neg hHere, ih h.tail]

theorem Undelimited.split {chunk : List α} (h : Undelimited sep chunk) : splitAround sep 0 chunk = [chunk] := by
  induction chunk with
  | nil => rfl
  | cons c chunk ih =>
    have hHere : ¬ sep <+: c :: chunk := by
      intro hPrefix
      refine h [] (c :: chunk) [] rfl (List.cons_ne_nil c chunk) ?_
      rw [List.append_assoc]
      exact hPrefix.trans (List.prefix_append _ _)
    rw [splitAround, if_neg hHere, ih h.tail]

theorem splitAround_intercalate (hSep : sep ≠ []) {chunk : List α} {chunks : List (List α)}
    (h : ∀ part ∈ chunk :: chunks, Undelimited sep part) :
    splitAround sep 0 (sep.intercalate (chunk :: chunks)) = chunk :: chunks := by
  induction chunks generalizing chunk with
  | nil =>
    rw [List.intercalate_singleton]
    exact (h chunk List.mem_cons_self).split
  | cons next chunks ih =>
    rw [List.intercalate_cons_cons, (h chunk List.mem_cons_self).split_append hSep,
      ih fun part hPart => h part (List.mem_cons_of_mem chunk hPart)]

theorem undelimited_of_line {newline : α} {line chunk : List α} (hNewline : newline ∉ line)
    (hLine : line ∉ chunk.splitOn newline) : Undelimited (newline :: (line ++ [newline])) chunk := by
  rintro front x back rfl hSome ⟨rest, hRest⟩
  obtain ⟨c, y, rfl⟩ := List.exists_cons_of_ne_nil hSome
  simp only [List.cons_append, List.cons.injEq, List.append_assoc, List.nil_append] at hRest
  obtain ⟨rfl, hRest⟩ := hRest
  rw [List.splitOn_append_cons_self] at hLine
  refine hLine (List.mem_append_right _ ?_)
  -- the first line of what follows is the delimiter's
  by_cases hMore : newline ∈ y
  · obtain ⟨first, others, rfl, hFirst⟩ := List.eq_append_cons_of_mem hMore
    rw [List.append_assoc, List.cons_append] at hRest
    obtain ⟨rfl, -⟩ := eq_of_append_cons hNewline hFirst hRest
    rw [List.splitOn_append_cons_self_of_not_mem hFirst]
    exact List.mem_cons_self
  · obtain ⟨rfl, -⟩ := eq_of_append_cons hNewline hMore hRest
    rw [List.splitOn_eq_singleton hMore]
    exact List.mem_singleton_self _

/-! ## Replacing -/

variable {old new : List α}

theorem replaceAll_skip (front back : List α) :
    replaceAll old new front.length (front ++ back) = replaceAll old new 0 back := by
  induction front with
  | nil => rfl
  | cons c front ih => exact ih

theorem replaceAll_of_not_infix {s : List α} (h : ¬ old <:+: s) : replaceAll old new 0 s = s := by
  induction s with
  | nil => rfl
  | cons c rest ih =>
    rw [replaceAll, if_neg fun hPrefix => h hPrefix.isInfix, ih fun hInfix => h (hInfix.trans (List.suffix_cons c rest).isInfix)]

theorem replaceAll_singleton (c : α) (new s : List α) :
    replaceAll [c] new 0 s = s.flatMap fun d => if d = c then new else [d] := by
  induction s with
  | nil => rfl
  | cons d s ih =>
    rw [replaceAll, List.flatMap_cons]
    by_cases h : d = c
    · rw [if_pos (List.cons_prefix_cons.mpr ⟨h.symm, List.nil_prefix⟩), if_pos h]
      exact congrArg (new ++ ·) ih
    · rw [if_neg fun hPrefix => h (List.cons_prefix_cons.mp hPrefix).1.symm, if_neg h, ih]
      rfl

theorem mem_replaceAll {c : α} {skip : Nat} {s : List α} (h : c ∈ replaceAll old new skip s) : c ∈ s ∨ c ∈ new := by
  fun_induction replaceAll old new skip s with
  | case1 => cases h
  | case2 skip d rest ih => exact (ih h).imp_left (List.mem_cons_of_mem d)
  | case3 d rest _ ih =>
    obtain hNew | hRest := List.mem_append.mp h
    · exact .inr hNew
    · exact (ih hRest).imp_left (List.mem_cons_of_mem d)
  | case4 d rest _ ih =>
    obtain rfl | hRest := List.mem_cons.mp h
    · exact .inl List.mem_cons_self
    · exact (ih hRest).imp_left (List.mem_cons_of_mem d)

theorem replaceAll_append {front : List α} (hOld : old ≠ []) (h : ∀ c ∈ front, old.head? ≠ some c) (s : List α) :
    replaceAll old new 0 (front ++ s) = front ++ replaceAll old new 0 s := by
  induction front with
  | nil => rfl
  | cons c front ih =>
    have hHere : ¬ old <+: c :: (front ++ s) := by
      rintro ⟨rest, hRest⟩
      obtain ⟨d, tail, rfl⟩ := List.exists_cons_of_ne_nil hOld
      exact h c List.mem_cons_self (congrArg some (List.cons.inj hRest).1)
    rw [List.cons_append, replaceAll, if_neg hHere, ih fun d hd => h d (List.mem_cons_of_mem c hd), List.cons_append]

theorem replaceAll_append_cons {c : α} (hOld : old ≠ []) (hc : c ∉ old) (a b : List α) :
    replaceAll old new 0 (a ++ c :: b) = replaceAll old new 0 a ++ c :: replaceAll old new 0 b := by
  have hGeneral : ∀ skip, skip ≤ a.length →
      replaceAll old new skip (a ++ c :: b) = replaceAll old new skip a ++ c :: replaceAll old new 0 b := by
    induction a with
    | nil =>
      intro skip hSkip
      obtain rfl := Nat.le_zero.mp hSkip
      have hHere : ¬ old <+: c :: b := fun h => hOld (List.prefix_nil.mp ((prefix_append_cons_iff hc [] b).mp h))
      have hBack : replaceAll old new 0 (c :: b) = c :: replaceAll old new 0 b := by
        rw [replaceAll, if_neg hHere]
      exact hBack
    | cons d a ih =>
      intro skip hSkip
      cases skip with
      | succ skip => exact ih skip (Nat.le_of_succ_le_succ hSkip)
      | zero =>
        have hSame : old <+: d :: (a ++ c :: b) ↔ old <+: d :: a := prefix_append_cons_iff hc (d :: a) b
        rw [List.cons_append, replaceAll, replaceAll]
        by_cases hHere : old <+: d :: a
        · have hLength : old.length - 1 ≤ a.length := Nat.sub_le_of_le_add hHere.length_le
          rw [if_pos (hSame.mpr hHere), if_pos hHere, ih _ hLength, List.append_assoc]
        · rw [if_neg fun h => hHere (hSame.mp h), if_neg hHere, ih 0 (Nat.zero_le _), List.cons_append]
  exact hGeneral 0 (Nat.zero_le _)

theorem replaceAll_once (hOld : old ≠ []) {front : List α} (h : Undelimited old front) (back : List α) :
    replaceAll old new 0 (front ++ old ++ back) = front ++ new ++ replaceAll old new 0 back := by
  induction front with
  | nil =>
    obtain ⟨c, tail, rfl⟩ := List.exists_cons_of_ne_nil hOld
    rw [List.nil_append, List.cons_append, replaceAll, if_pos (by rw [← List.cons_append]; exact List.prefix_append _ _)]
    exact congrArg (new ++ ·) (replaceAll_skip tail back)
  | cons c front ih =>
    have hHere : ¬ old <+: c :: (front ++ old ++ back) := h [] (c :: front) back rfl (List.cons_ne_nil c front)
    rw [List.cons_append, List.cons_append, replaceAll, if_neg hHere, ih h.tail, List.cons_append, List.cons_append]

theorem replaceAll_intercalate (hOld : old ≠ []) {newline : α} (hNewline : newline ∉ old) {line : List α}
    (hLine : ¬ old <:+: line) (chunk : List α) (chunks : List (List α)) :
    replaceAll old new 0 ((newline :: (line ++ [newline])).intercalate (chunk :: chunks)) =
      (newline :: (line ++ [newline])).intercalate ((chunk :: chunks).map (replaceAll old new 0)) := by
  induction chunks generalizing chunk with
  | nil => rw [List.intercalate_singleton, List.map_singleton, List.intercalate_singleton]
  | cons next chunks ih =>
    have hSplit (front back : List α) : front ++ newline :: (line ++ [newline]) ++ back =
        front ++ newline :: (line ++ newline :: back) := by simp
    rw [List.intercalate_cons_cons, hSplit, replaceAll_append_cons hOld hNewline, replaceAll_append_cons hOld hNewline,
      replaceAll_of_not_infix hLine, ih, List.map_cons, List.map_cons, List.map_cons, List.intercalate_cons_cons, hSplit]

end XcRos.Foundation
