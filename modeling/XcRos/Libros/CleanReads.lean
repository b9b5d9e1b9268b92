import XcRos.Foundation.Search
import XcRos.Libros.NameResolution

/-! # What `clean` reads

`cleanText` runs the search and the erasures of `clean` by their positions, and the look at the last letter. For the
empty string that look is outside of it. The others end as `clean` says, and the result may be cleaned again unless it
is empty, which is so if there are only slashes.
-/

namespace XcRos.Libros.Names

open XcRos.Foundation XcRos.Rpc XcRos.Foundation.Path

/-- `find("//", pos)` -/
def findDoubled (s : Bytes) (pos : Nat) : Option Nat := (indexOf [47, 47] (s.drop pos)).map (pos + ·)

/-- The loop of `clean`, `none` when the fuel is used up. -/
def eraseFrom : Nat → Bytes → Option Nat → Option Bytes
  | 0, _, _ => none
  | _ + 1, clean, none => some clean
  | fuel + 1, clean, some pos => eraseFrom fuel (clean.eraseIdx pos) (findDoubled (clean.eraseIdx pos) pos)

inductive Cleaned where
  | running
  /-- `*clean.rbegin()` of an empty string. -/
  | outside
  | done (clean : Bytes)

def cleanText (fuel : Nat) (name : Bytes) : Cleaned :=
  match eraseFrom fuel name (findDoubled name 0) with
  | none => .running
  | some clean =>
    match clean.getLast? with
    | none => .outside
    | some c => .done (if c = 47 then clean.eraseIdx (clean.length - 1) else clean)

/-- The namespace that `ThisNode::init` has cleaned: the remapping `__ns`, the environment, or what is there before. -/
def givenNamespace (nsEnv remappedNs : Option Bytes) : Bytes := remappedNs.getD (nsEnv.getD [])

/-- `clean` ends, reads inside of the string, and gives `cleaned`. -/
def Cleans (name cleaned : Bytes) : Prop := ∀ fuel > name.length, cleanText fuel name = .done cleaned

/-- What a caller of `clean` may rely on. -/
def CleansSafely (name : Bytes) : Prop :=
  ∃ cleaned, Cleans name cleaned ∧ ¬ [47, 47] <:+: cleaned ∧ (cleaned.getLast? = some 47 → cleaned = [47]) ∧
    (name = [47] → cleaned = [47]) ∧ Cleans cleaned cleaned

/-! ## The loop -/

theorem prefix_doubled_iff {c : UInt8} {rest : Bytes} :
    [47, 47] <+: c :: rest ↔ c = 47 ∧ rest.head? = some 47 := by
  rw [List.cons_prefix_cons, List.head?_eq_some_iff]
  constructor
  · rintro ⟨hc, back, rfl⟩
    exact ⟨hc.symm, back, rfl⟩
  · rintro ⟨rfl, back, rfl⟩
    exact ⟨rfl, back, rfl⟩

theorem eraseDoubled_of_indexOf_none {s : Bytes} (h : indexOf [47, 47] s = none) : eraseDoubled s = s := by
  induction s with
  | nil => rfl
  | cons c rest ih =>
    rw [indexOf] at h
    split at h
    · cases h
    · rename_i hSingle
      rw [eraseDoubled, if_neg (mt prefix_doubled_iff.mpr hSingle), ih (Option.map_eq_none_iff.mp h)]

theorem eraseDoubled_of_indexOf {s : Bytes} {i : Nat} (h : indexOf [47, 47] s = some i) :
    ∃ front back, s = front ++ 47 :: 47 :: back ∧ front.length = i ∧
      eraseDoubled s = front ++ eraseDoubled (47 :: back) := by
  induction s generalizing i with
  | nil => cases h
  | cons c rest ih =>
    rw [indexOf] at h
    split at h
    · rename_i hDoubled
      cases h
      obtain ⟨rfl, hHead⟩ := prefix_doubled_iff.mp hDoubled
      obtain ⟨back, rfl⟩ := List.head?_eq_some_iff.mp hHead
      refine ⟨[], back, rfl, rfl, ?_⟩
      rw [eraseDoubled, if_pos ⟨rfl, rfl⟩, List.nil_append]
    · rename_i hSingle
      obtain ⟨j, hj, rfl⟩ := Option.map_eq_some_iff.mp h
      obtain ⟨front, back, rfl, rfl, hErased⟩ := ih hj
      refine ⟨c :: front, back, rfl, rfl, ?_⟩
      rw [eraseDoubled, if_neg (mt prefix_doubled_iff.mpr hSingle), hErased, List.cons_append]

theorem eraseFrom_eq {fuel : Nat} {rest : Bytes} (hFuel : rest.length < fuel) (front : Bytes) :
    eraseFrom fuel (front ++ rest) (findDoubled (front ++ rest) front.length) = some (front ++ eraseDoubled rest) := by
  induction fuel generalizing front rest with
  | zero => omega
  | succ fuel ih =>
    rw [findDoubled, List.drop_left]
    cases hFind : indexOf [47, 47] rest with
    | none => rw [Option.map_none, eraseFrom, eraseDoubled_of_indexOf_none hFind]
    | some i =>
      obtain ⟨passed, back, rfl, rfl, hErased⟩ := eraseDoubled_of_indexOf hFind
      have hErase : (front ++ (passed ++ 47 :: 47 :: back)).eraseIdx (front.length + passed.length) =
          front ++ passed ++ 47 :: back := by
        rw [← List.append_assoc, ← List.length_append, List.eraseIdx_append_of_length_le (Nat.le_refl _), Nat.sub_self,
          List.eraseIdx_cons_zero]
      have hShorter : (47 :: back).length < fuel := by
        simp only [List.length_append, List.length_cons] at hFuel ⊢
        omega
      rw [Option.map_some, eraseFrom, hErase, ← List.length_append, ih hShorter, hErased, List.append_assoc]

theorem eraseDoubled_eq_nil_iff {s : Bytes} : eraseDoubled s = [] ↔ s = [] := by
  rw [← List.head?_eq_none_iff, head?_eraseDoubled, List.head?_eq_none_iff]

theorem cleanText_eq {fuel : Nat} {name : Bytes} (hFuel : name.length < fuel) :
    cleanText fuel name = if name = [] then .outside else .done (clean name) := by
  have hErased : eraseFrom fuel name (findDoubled name 0) = some (eraseDoubled name) := eraseFrom_eq hFuel []
  rw [cleanText, hErased]
  dsimp only
  cases hLast : (eraseDoubled name).getLast? with
  | none => rw [if_pos (eraseDoubled_eq_nil_iff.mp (List.getLast?_eq_none_iff.mp hLast))]
  | some c =>
    have hName : name ≠ [] := by
      rintro rfl
      cases hLast
    rw [if_neg hName, clean]
    simp only [hLast, Option.some.injEq, List.eraseIdx_length_sub_one]

theorem cleans_iff {name cleaned : Bytes} : Cleans name cleaned ↔ name ≠ [] ∧ cleaned = clean name := by
  constructor
  · intro h
    have hDone := h (name.length + 1) (Nat.lt_succ_self _)
    rw [cleanText_eq (Nat.lt_succ_self _)] at hDone
    split at hDone
    · cases hDone
    · exact ⟨‹_›, (Cleaned.done.inj hDone).symm⟩
  · rintro ⟨hName, rfl⟩ fuel hFuel
    rw [cleanText_eq hFuel, if_neg hName]

/-! ## When a result may be cleaned again -/

theorem mem_eraseDoubled {c : UInt8} (hc : c ≠ 47) {s : Bytes} (h : c ∈ s) : c ∈ eraseDoubled s := by
  induction s with
  | nil => exact h
  | cons d rest ih =>
    rw [eraseDoubled]
    obtain rfl | hRest := List.mem_cons.mp h
    · rw [if_neg fun hSlash => hc hSlash.1]
      exact List.mem_cons_self
    · split
      · exact ih hRest
      · exact List.mem_cons_of_mem d (ih hRest)

theorem mem_clean {c : UInt8} (hc : c ≠ 47) {s : Bytes} (h : c ∈ s) : c ∈ clean s := by
  have hErased := mem_eraseDoubled hc h
  rw [clean]
  split
  · rename_i hLast
    obtain ⟨front, hFront⟩ := List.getLast?_eq_some_iff.mp hLast
    rw [hFront] at hErased ⊢
    rw [List.dropLast_concat]
    obtain hMem | hMem := List.mem_append.mp hErased
    · exact hMem
    · exact absurd (List.mem_singleton.mp hMem) hc
  · exact hErased

theorem clean_slashes {s : Bytes} (h : ∀ c ∈ s, c = 47) : clean s = [] := by
  rw [← components_eq_nil_iff]
  induction s with
  | nil => exact components_nil 47
  | cons c rest ih =>
    rw [h c List.mem_cons_self, components_cons_self]
    exact ih fun d hd => h d (List.mem_cons_of_mem c hd)

/-- `clean` does what its callers rely on exactly for the strings with a letter that is no slash. -/
theorem cleansSafely_iff (name : Bytes) : CleansSafely name ↔ ∃ c ∈ name, c ≠ 47 := by
  constructor
  · rintro ⟨cleaned, hFirst, -, -, -, hAgain⟩
    obtain ⟨hName, rfl⟩ := cleans_iff.mp hFirst
    by_contra hSlashes
    push Not at hSlashes
    exact (cleans_iff.mp hAgain).1 (clean_slashes hSlashes)
  · rintro ⟨c, hMem, hc⟩
    have hName : name ≠ [] := List.ne_nil_of_mem hMem
    have hCleaned : clean name ≠ [] := List.ne_nil_of_mem (mem_clean hc hMem)
    obtain ⟨hDoubled, hLast⟩ := clean_tidy name
    refine ⟨clean name, cleans_iff.mpr ⟨hName, rfl⟩, hDoubled, fun h => absurd h hLast, ?_,
      cleans_iff.mpr ⟨hCleaned, (clean_clean name).symm⟩⟩
    rintro rfl
    exact absurd (List.mem_singleton.mp hMem) hc

/-- Without a namespace in the environment and among the remappings the string is empty, and a lone slash is lost. -/
theorem clean_outside : ¬ CleansSafely (givenNamespace none none) ∧ ¬ CleansSafely [47] := by
  refine ⟨?_, ?_⟩
  · rintro ⟨cleaned, hCleans, -⟩
    cases hCleans 1 (by decide)
  · rintro ⟨cleaned, hCleans, -, -, hRoot, -⟩
    have hDone := hCleans 3 (by decide)
    rw [hRoot rfl] at hDone
    cases hDone

end XcRos.Libros.Names
