import Mathlib.Data.List.Sort

/-! # Sorted association lists

An ordered map is the list of its entries, sorted strictly by key. `insertAbsent` keeps the entry
that is there already, as `std::map::insert` does, and `insertOrAssign` replaces it.
-/

namespace XcRos.Foundation

universe u v

variable {κ : Type u} {ν : Type v} [LT κ]

/-- The entries stand in the strict order of their keys. -/
def KeysSorted (entries : List (κ × ν)) : Prop := entries.Pairwise fun a b => a.1 < b.1

def insertAbsent [DecidableLT κ] (key : κ) (value : ν) : List (κ × ν) → List (κ × ν)
  | [] => [(key, value)]
  | entry :: entries =>
    if key < entry.1 then (key, value) :: entry :: entries
    else if entry.1 < key then entry :: insertAbsent key value entries
    else entry :: entries

theorem mem_insertAbsent [DecidableLT κ] (key : κ) (value : ν) {entries : List (κ × ν)}
    {e : κ × ν} (h : e ∈ entries) : e ∈ insertAbsent key value entries := by
  induction entries with
  | nil => cases h
  | cons entry entries ih =>
    rw [insertAbsent]
    split
    · exact List.mem_cons_of_mem _ h
    · split
      · rcases List.mem_cons.mp h with rfl | h
        · exact List.mem_cons_self
        · exact List.mem_cons_of_mem _ (ih h)
      · exact h

theorem insertAbsent_last [DecidableLT κ] [Std.Asymm (α := κ) (· < ·)] {key : κ} (value : ν)
    {entries : List (κ × ν)} (h : ∀ entry ∈ entries, entry.1 < key) :
    insertAbsent key value entries = entries ++ [(key, value)] := by
  induction entries with
  | nil => rfl
  | cons entry entries ih =>
    have hEntry : entry.1 < key := h entry List.mem_cons_self
    have hNot : ¬ key < entry.1 := Std.Asymm.asymm _ _ hEntry
    rw [insertAbsent, if_neg hNot, if_pos hEntry, ih fun e he => h e (List.mem_cons_of_mem entry he),
      List.cons_append]

theorem find?_map_eq_some_iff [DecidableEq κ] [Std.Irrefl (α := κ) (· < ·)] {entries : List (κ × ν)}
    (h : KeysSorted entries) {key : κ} {value : ν} :
    (entries.find? fun e => e.1 = key).map Prod.snd = some value ↔ (key, value) ∈ entries := by
  induction entries with
  | nil => simp
  | cons entry entries ih =>
    obtain ⟨hHead, hTail⟩ := List.pairwise_cons.mp h
    rcases eq_or_ne entry.1 key with rfl | hKey
    · rw [List.find?_cons_of_pos (by simp), Option.map_some, Option.some.injEq, List.mem_cons]
      constructor
      · rintro rfl
        exact .inl rfl
      · rintro (hEntry | hLater)
        · rw [← hEntry]
        · exact absurd (hHead _ hLater) (Std.Irrefl.irrefl entry.1)
    · rw [List.find?_cons_of_neg (by simpa using hKey), ih hTail, List.mem_cons, or_iff_right]
      intro hEntry
      exact hKey (congrArg Prod.fst hEntry).symm

theorem keysSorted_ext [DecidableEq κ] [Std.Asymm (α := κ) (· < ·)] {entries others : List (κ × ν)}
    (h : KeysSorted entries) (h' : KeysSorted others)
    (hFind : ∀ key, (entries.find? fun e => e.1 = key).map Prod.snd = (others.find? fun e => e.1 = key).map Prod.snd) :
    entries = others := by
  have hAsymm : Std.Asymm (α := κ × ν) fun a b => a.1 < b.1 := ⟨fun a b => Std.Asymm.asymm a.1 b.1⟩
  refine List.Pairwise.eq_of_mem_iff h h' ?_
  rintro ⟨key, value⟩
  rw [← find?_map_eq_some_iff h, ← find?_map_eq_some_iff h', hFind]

def insertOrAssign [DecidableLT κ] (key : κ) (value : ν) : List (κ × ν) → List (κ × ν)
  | [] => [(key, value)]
  | entry :: entries =>
    if key < entry.1 then (key, value) :: entry :: entries
    else if entry.1 < key then entry :: insertOrAssign key value entries
    else (entry.1, value) :: entries

theorem insertOrAssign_last [DecidableLT κ] [Std.Asymm (α := κ) (· < ·)] {key : κ} (value : ν)
    {entries : List (κ × ν)} (h : ∀ entry ∈ entries, entry.1 < key) :
    insertOrAssign key value entries = entries ++ [(key, value)] := by
  induction entries with
  | nil => rfl
  | cons entry entries ih =>
    have hEntry : entry.1 < key := h entry List.mem_cons_self
    have hNot : ¬ key < entry.1 := Std.Asymm.asymm _ _ hEntry
    rw [insertOrAssign, if_neg hNot, if_pos hEntry, ih fun e he => h e (List.mem_cons_of_mem entry he),
      List.cons_append]

theorem mem_insertOrAssign [DecidableLT κ] {key : κ} {value : ν} {entries : List (κ × ν)} {e : κ × ν}
    (h : e ∈ insertOrAssign key value entries) : e.1 = key ∨ ∃ entry ∈ entries, e.1 = entry.1 := by
  induction entries with
  | nil => exact .inl (List.mem_singleton.mp h ▸ rfl)
  | cons entry entries ih =>
    rw [insertOrAssign] at h
    split at h
    · obtain rfl | hOld := List.mem_cons.mp h
      · exact .inl rfl
      · exact .inr ⟨e, hOld, rfl⟩
    · split at h
      · obtain rfl | hTail := List.mem_cons.mp h
        · exact .inr ⟨e, List.mem_cons_self, rfl⟩
        · obtain hKey | ⟨other, hOther, hKey⟩ := ih hTail
          · exact .inl hKey
          · exact .inr ⟨other, List.mem_cons_of_mem entry hOther, hKey⟩
      · obtain rfl | hTail := List.mem_cons.mp h
        · exact .inr ⟨entry, List.mem_cons_self, rfl⟩
        · exact .inr ⟨e, List.mem_cons_of_mem entry hTail, rfl⟩

theorem find?_insertOrAssign_self [DecidableEq κ] [DecidableLT κ] [Std.Asymm (α := κ) (· < ·)]
    [Std.Trichotomous (α := κ) (· < ·)] (key : κ) (value : ν) (entries : List (κ × ν)) :
    (insertOrAssign key value entries).find? (fun e => e.1 = key) = some (key, value) := by
  induction entries with
  | nil => simp [insertOrAssign]
  | cons entry entries ih =>
    rw [insertOrAssign]
    split
    · simp
    · split
      · rename_i hEntry
        have hNe : entry.1 ≠ key := by
          intro h
          rw [h] at hEntry
          exact Std.Asymm.asymm _ _ hEntry hEntry
        rw [List.find?_cons_of_neg (by simpa using hNe), ih]
      · rename_i hBelow hAbove
        have hKey : entry.1 = key := (Std.Trichotomous.trichotomous _ _ hBelow hAbove).symm
        simp [hKey]

theorem find?_insertOrAssign_of_ne [DecidableEq κ] [DecidableLT κ] [Std.Trichotomous (α := κ) (· < ·)]
    {key other : κ} (h : other ≠ key) (value : ν) (entries : List (κ × ν)) :
    (insertOrAssign key value entries).find? (fun e => e.1 = other) = entries.find? fun e => e.1 = other := by
  induction entries with
  | nil => simp [insertOrAssign, Ne.symm h]
  | cons entry entries ih =>
    rw [insertOrAssign]
    split
    · simp [Ne.symm h]
    · split
      · rw [List.find?_cons, List.find?_cons, ih]
      · rename_i hBelow hAbove
        have hKey : entry.1 = key := (Std.Trichotomous.trichotomous _ _ hBelow hAbove).symm
        simp [hKey, Ne.symm h]

theorem keysSorted_insertOrAssign [DecidableLT κ] [IsTrans κ (· < ·)] (key : κ) (value : ν)
    {entries : List (κ × ν)} (h : KeysSorted entries) : KeysSorted (insertOrAssign key value entries) := by
  induction entries with
  | nil => exact List.pairwise_singleton _ _
  | cons entry entries ih =>
    obtain ⟨hHead, hTail⟩ := List.pairwise_cons.mp h
    rw [insertOrAssign]
    split
    · refine List.pairwise_cons.mpr ⟨fun e he => ?_, h⟩
      obtain rfl | hOld := List.mem_cons.mp he
      · assumption
      · exact IsTrans.trans key entry.1 e.1 ‹_› (hHead e hOld)
    · split
      · refine List.pairwise_cons.mpr ⟨fun e he => ?_, ih hTail⟩
        obtain hKey | ⟨other, hOther, hKey⟩ := mem_insertOrAssign he
        · rw [hKey]
          assumption
        · rw [hKey]
          exact hHead other hOther
      · exact List.pairwise_cons.mpr ⟨hHead, hTail⟩

/-- The entries of one map are assigned to another. -/
def assignAll [DecidableLT κ] (entries into : List (κ × ν)) : List (κ × ν) :=
  entries.foldl (fun m e => insertOrAssign e.1 e.2 m) into

theorem keysSorted_assignAll [DecidableLT κ] [IsTrans κ (· < ·)] (entries : List (κ × ν)) {into : List (κ × ν)}
    (h : KeysSorted into) : KeysSorted (assignAll entries into) := by
  induction entries generalizing into with
  | nil => exact h
  | cons e entries ih => exact ih (keysSorted_insertOrAssign e.1 e.2 h)

theorem find?_assignAll [DecidableEq κ] [DecidableLT κ] [Std.Asymm (α := κ) (· < ·)]
    [Std.Trichotomous (α := κ) (· < ·)] {entries : List (κ × ν)} (h : KeysSorted entries) (into : List (κ × ν))
    (key : κ) :
    (assignAll entries into).find? (fun e => e.1 = key) =
      (entries.find? fun e => e.1 = key).or (into.find? fun e => e.1 = key) := by
  induction entries generalizing into with
  | nil => rfl
  | cons e entries ih =>
    obtain ⟨hFirst, hRest⟩ := List.pairwise_cons.mp h
    have hNext : (assignAll (e :: entries) into).find? (fun other => other.1 = key) =
        (entries.find? fun other => other.1 = key).or
          ((insertOrAssign e.1 e.2 into).find? fun other => other.1 = key) := ih hRest _
    rw [hNext]
    by_cases hKey : e.1 = key
    · have hAbsent : entries.find? (fun other => other.1 = key) = none := by
        refine List.find?_eq_none.mpr fun other hOther => ?_
        rw [decide_eq_true_iff]
        intro hSame
        have hLess := hFirst other hOther
        rw [hSame, ← hKey] at hLess
        exact Std.Asymm.asymm _ _ hLess hLess
      rw [hAbsent, Option.none_or, ← hKey, find?_insertOrAssign_self, List.find?_cons_of_pos (by simp), Option.some_or]
    · rw [find?_insertOrAssign_of_ne (Ne.symm hKey), List.find?_cons_of_neg (by simpa using hKey)]

theorem assignAll_eq_iff [DecidableEq κ] [DecidableLT κ] [Std.Asymm (α := κ) (· < ·)] [IsTrans κ (· < ·)]
    [Std.Trichotomous (α := κ) (· < ·)] {entries into : List (κ × ν)} (h : KeysSorted entries)
    (hInto : KeysSorted into) :
    assignAll entries into = entries ↔ ∀ e ∈ into, ∃ other ∈ entries, other.1 = e.1 := by
  have hFind := find?_assignAll h into
  constructor
  · intro hSame e he
    have hOld : (into.find? fun other => other.1 = e.1).isSome :=
      List.find?_isSome.mpr ⟨e, he, by simp⟩
    have hFound : (entries.find? fun other => other.1 = e.1).isSome := by
      have hEntry := hFind e.1
      rw [hSame] at hEntry
      rw [hEntry, Option.isSome_or, hOld, Bool.or_true]
    obtain ⟨other, hOther, hKey⟩ := List.find?_isSome.mp hFound
    exact ⟨other, hOther, of_decide_eq_true hKey⟩
  · intro hKeys
    refine keysSorted_ext (keysSorted_assignAll entries hInto) h fun key => ?_
    rw [hFind key]
    cases hOwn : entries.find? fun e => e.1 = key with
    | some e => rfl
    | none =>
      have hOld : into.find? (fun e => e.1 = key) = none := by
        refine List.find?_eq_none.mpr fun e he hKey => ?_
        obtain ⟨other, hOther, hSame⟩ := hKeys e he
        exact List.find?_eq_none.mp hOwn other hOther (by rw [hSame]; exact hKey)
      rw [hOld]
      rfl

end XcRos.Foundation
