import Mathlib.Data.List.Induction
import Mathlib.Data.List.Infix
import XcRos.Libros.Param

/-! # The tree of parameters

A parameter is a path from the root, and its resolved name has a slash in front of each segment.
The master keeps one value for the root and finds a parameter by going down its structs.
-/

namespace XcRos.Libros.Param

open XcRos.Foundation XcRos.Rpc

abbrev Segment := { s : Bytes // s ≠ [] ∧ ∀ c ∈ s, Names.isValidCharInName c = true ∧ c ≠ 47 }

abbrev Path := List Segment

namespace Path

/-- What `names::resolve` makes of a key; for the root it is empty. -/
def name (p : Path) : Bytes := p.flatMap fun seg => 47 :: seg.1

/-- The key under which `getImpl` caches. -/
def cacheKey (p : Path) : Bytes := if p.name = [] then [47] else p.name

end Path

section Names

open Names

theorem Segment.slash_notMem (seg : Segment) : (47 : UInt8) ∉ seg.1 := fun h => (seg.2.2 47 h).2 rfl

namespace Path

@[simp] theorem name_nil : name [] = [] := rfl

@[simp] theorem name_cons (seg : Segment) (p : Path) : name (seg :: p) = 47 :: seg.1 ++ p.name := rfl

theorem name_concat (p : Path) (seg : Segment) : name (p ++ [seg]) = p.name ++ 47 :: seg.1 := by
  simp [name]

theorem name_eq_nil {p : Path} : p.name = [] ↔ p = [] := by
  cases p with
  | nil => exact iff_of_true rfl rfl
  | cons seg p => exact iff_of_false (List.cons_ne_nil _ _) (List.cons_ne_nil _ _)

theorem two_le_length_name {p : Path} (h : p ≠ []) : 2 ≤ p.name.length := by
  cases p with
  | nil => exact absurd rfl h
  | cons seg p =>
    have hSeg : 0 < seg.1.length := List.length_pos_iff.mpr seg.2.1
    simp only [name_cons, List.length_append, List.length_cons]
    omega

theorem name_ne_root (p : Path) : p.name ≠ [47] := by
  cases p with
  | nil => exact (List.cons_ne_nil _ _).symm
  | cons seg p =>
    intro h
    have hLength := two_le_length_name (List.cons_ne_nil seg p)
    rw [h] at hLength
    exact absurd hLength (by decide)

theorem segment_inj {a b : Bytes} {p q : Path} (ha : (47 : UInt8) ∉ a) (hb : (47 : UInt8) ∉ b)
    (h : a ++ p.name = b ++ q.name) : a = b ∧ p.name = q.name := by
  induction a generalizing b with
  | nil =>
    cases b with
    | nil => exact ⟨rfl, h⟩
    | cons d b =>
      cases p with
      | nil => exact absurd h.symm (List.cons_ne_nil _ _)
      | cons seg p =>
        have hHead : (47 : UInt8) = d := (List.cons.inj h).1
        exact absurd (hHead ▸ List.mem_cons_self) hb
  | cons c a ih =>
    cases b with
    | nil =>
      cases q with
      | nil => exact absurd h (List.cons_ne_nil _ _)
      | cons seg q =>
        have hHead : c = 47 := (List.cons.inj h).1
        exact absurd (hHead ▸ List.mem_cons_self) ha
    | cons d b =>
      obtain ⟨rfl, hTail⟩ := List.cons.inj h
      obtain ⟨rfl, hNames⟩ := ih (fun hMem => ha (List.mem_cons_of_mem c hMem))
        (fun hMem => hb (List.mem_cons_of_mem c hMem)) hTail
      exact ⟨rfl, hNames⟩

theorem name_injective {p q : Path} (h : p.name = q.name) : p = q := by
  induction p generalizing q with
  | nil => exact (name_eq_nil.mp h.symm).symm
  | cons seg p ih =>
    cases q with
    | nil => exact absurd h (List.cons_ne_nil _ _)
    | cons seg' q =>
      obtain ⟨hSeg, hNames⟩ := segment_inj seg.slash_notMem seg'.slash_notMem (List.cons.inj h).2
      rw [Subtype.ext hSeg, ih hNames]

@[simp] theorem cacheKey_nil : cacheKey [] = [47] := rfl

theorem cacheKey_of_ne {p : Path} (h : p ≠ []) : p.cacheKey = p.name := if_neg (mt name_eq_nil.mp h)

theorem cacheKey_injective {p q : Path} (h : p.cacheKey = q.cacheKey) : p = q := by
  cases p with
  | nil =>
    cases q with
    | nil => rfl
    | cons seg q => exact absurd h.symm (name_ne_root (seg :: q))
  | cons seg p =>
    cases q with
    | nil => exact absurd h (name_ne_root (seg :: p))
    | cons seg' q => exact name_injective h

theorem length_le_name (p : Path) : p.length ≤ p.name.length := by
  induction p with
  | nil => exact Nat.le_refl 0
  | cons seg p ih =>
    simp only [name_cons, List.length_append, List.length_cons]
    omega

theorem length_le_cacheKey (p : Path) : p.length ≤ p.cacheKey.length := by
  cases p with
  | nil => exact Nat.zero_le 1
  | cons seg p => exact length_le_name (seg :: p)

theorem mem_name {p : Path} {c : UInt8} (h : c ∈ p.name) : isValidCharInName c = true := by
  obtain ⟨seg, _, hMem⟩ := List.mem_flatMap.mp h
  obtain rfl | hSeg := List.mem_cons.mp hMem
  · rfl
  · exact (seg.2.2 c hSeg).1

theorem getLast?_name (p : Path) : p.name.getLast? ≠ some 47 := by
  induction p using List.reverseRecOn with
  | nil => exact fun h => by cases h
  | append_singleton p seg _ =>
    intro h
    have hTail : (47 :: seg.1).getLast? = some 47 := by
      rwa [name_concat, List.getLast?_append_of_ne_nil _ (List.cons_ne_nil _ _)] at h
    obtain ⟨c, rest, hSeg⟩ := List.exists_cons_of_ne_nil seg.2.1
    rw [hSeg, List.getLast?_cons_cons, ← hSeg] at hTail
    exact seg.slash_notMem (List.mem_of_getLast? hTail)

theorem validate_name (p : Path) : validate p.name = none := by
  cases p with
  | nil => rfl
  | cons seg p =>
    have hNone : (seg.1 ++ name p).findIdx? (fun d => !isValidCharInName d) = none := by
      rw [List.findIdx?_eq_none_iff]
      intro c hc
      have hMem : c ∈ name (seg :: p) := List.mem_cons_of_mem 47 hc
      simp [mem_name hMem]
    rw [name_cons, List.cons_append, validate, hNone]
    rfl

theorem eraseDoubled_segment {s : Bytes} (h : (47 : UInt8) ∉ s) (rest : Bytes) :
    eraseDoubled (s ++ rest) = s ++ eraseDoubled rest := by
  induction s with
  | nil => rfl
  | cons c s ih =>
    have hc : ¬ (c = 47 ∧ (s ++ rest).head? = some 47) := fun hSlash =>
      h (hSlash.1 ▸ List.mem_cons_self)
    rw [List.cons_append, eraseDoubled, if_neg hc, ih fun hMem => h (List.mem_cons_of_mem c hMem),
      List.cons_append]

theorem eraseDoubled_name (p : Path) : eraseDoubled p.name = p.name := by
  induction p with
  | nil => rfl
  | cons seg p ih =>
    obtain ⟨c, rest, hSeg⟩ := List.exists_cons_of_ne_nil seg.2.1
    have hc : c ≠ 47 := by
      rintro rfl
      exact seg.slash_notMem (hSeg ▸ List.mem_cons_self)
    have hSingle : ¬ ((47 : UInt8) = 47 ∧ (seg.1 ++ name p).head? = some 47) := by
      rw [hSeg]
      exact fun h => hc (Option.some.inj h.2)
    rw [name_cons, List.cons_append, eraseDoubled, if_neg hSingle,
      eraseDoubled_segment seg.slash_notMem, ih]

@[simp] theorem clean_name (p : Path) : clean p.name = p.name := by
  simp only [clean, eraseDoubled_name, if_neg (getLast?_name p)]

@[simp] theorem clean_name_slash (p : Path) : clean (p.name ++ [47]) = p.name :=
  clean_append_slash (clean_name p)

theorem exists_name_of_single {s : Bytes} (hSingle : eraseDoubled s = s)
    (hValid : ∀ c ∈ s, isValidCharInName c = true) (hHead : s = [] ∨ s.head? = some 47) :
    ∃ p : Path, s = p.name ∨ s = p.name ++ [47] := by
  induction hLength : s.length using Nat.strongRecOn generalizing s with
  | ind n ih =>
    subst hLength
    obtain rfl | hHead := hHead
    · exact ⟨[], Or.inl rfl⟩
    obtain ⟨rest, rfl⟩ : ∃ rest, s = 47 :: rest := List.head?_eq_some_iff.mp hHead
    have hSplit : rest.takeWhile (· ≠ 47) ++ rest.dropWhile (· ≠ 47) = rest := List.takeWhile_append_dropWhile
    have hSlash : (47 : UInt8) ∉ rest.takeWhile (· ≠ 47) := fun hMem => by
      simpa using List.mem_takeWhile_imp hMem
    have hFirst : rest.head? ≠ some 47 ∧ eraseDoubled rest = rest := by
      rw [eraseDoubled] at hSingle
      split at hSingle
      · have hLe := length_eraseDoubled_le rest
        rw [hSingle, List.length_cons] at hLe
        omega
      · rename_i hNot
        exact ⟨fun h => hNot ⟨rfl, h⟩, (List.cons.inj hSingle).2⟩
    generalize rest.takeWhile (· ≠ 47) = seg at hSplit hSlash
    have hTail : rest.dropWhile (· ≠ 47) = [] ∨ (rest.dropWhile (· ≠ 47)).head? = some 47 := by
      cases hDrop : rest.dropWhile (· ≠ 47) with
      | nil => exact Or.inl rfl
      | cons c tail =>
        have hNot := List.head?_dropWhile_not (fun c : UInt8 => decide (c ≠ 47)) rest
        rw [hDrop] at hNot
        exact Or.inr (congrArg some (by simpa using hNot))
    generalize rest.dropWhile (· ≠ 47) = tail at hSplit hTail
    subst hSplit
    cases seg with
    | nil =>
      obtain rfl | hSlashes := hTail
      · exact ⟨[], Or.inr rfl⟩
      · exact absurd hSlashes hFirst.1
    | cons c seg =>
      have hTailSingle : eraseDoubled tail = tail := by
        have h := hFirst.2
        rw [eraseDoubled_segment hSlash] at h
        exact List.append_cancel_left h
      have hShort : tail.length < (47 :: (c :: seg ++ tail)).length := by
        simp only [List.length_cons, List.length_append]
        omega
      obtain ⟨p, hp⟩ := ih tail.length hShort hTailSingle
        (fun d hd => hValid d (List.mem_cons_of_mem 47 (List.mem_append_right _ hd))) hTail rfl
      have hSegment : c :: seg ≠ [] ∧ ∀ d ∈ c :: seg, isValidCharInName d = true ∧ d ≠ 47 :=
        ⟨List.cons_ne_nil c seg, fun d hd => ⟨hValid d (List.mem_cons_of_mem 47 (List.mem_append_left _ hd)),
          fun h => hSlash (h ▸ hd)⟩⟩
      refine ⟨⟨c :: seg, hSegment⟩ :: p, ?_⟩
      obtain rfl | rfl := hp
      · exact Or.inl rfl
      · exact Or.inr (by simp)

theorem exists_name_of_validate {key : Bytes} (hHead : key.head? = some 47) (hValid : validate key = none) :
    ∃ p : Path, clean key = p.name := by
  have hChars : ∀ c ∈ key, isValidCharInName c = true := by
    obtain ⟨rest, rfl⟩ : ∃ rest, key = 47 :: rest := List.head?_eq_some_iff.mp hHead
    intro c hc
    obtain rfl | hRest := List.mem_cons.mp hc
    · rfl
    · cases hFind : rest.findIdx? (fun d => !isValidCharInName d) with
      | none => simpa using (List.findIdx?_eq_none_iff.mp hFind) c hRest
      | some i =>
        have hi : i < rest.length := (List.findIdx?_eq_some_iff_findIdx_eq.mp hFind).1
        simp [validate, hFind, hi] at hValid
  have hErased : ∀ c ∈ eraseDoubled key, c ∈ key := by
    clear hHead hValid hChars
    induction key with
    | nil => exact fun _ h => h
    | cons d rest ih =>
      intro c hc
      rw [eraseDoubled] at hc
      split at hc
      · exact List.mem_cons_of_mem d (ih c hc)
      · obtain rfl | hRest := List.mem_cons.mp hc
        · exact List.mem_cons_self
        · exact List.mem_cons_of_mem d (ih c hRest)
  obtain ⟨p, hp⟩ := exists_name_of_single (eraseDoubled_eraseDoubled key)
    (fun c hc => hChars c (hErased c hc)) (Or.inr ((head?_eraseDoubled key).trans hHead))
  refine ⟨p, ?_⟩
  obtain hName | hName := hp
  · simp only [clean, hName, if_neg (getLast?_name p)]
  · simp only [clean, hName, List.getLast?_concat, if_true, List.dropLast_concat]

end Path

theorem parentNamespace_name (p : Path) (seg : Segment) :
    parentNamespace (Path.name (p ++ [seg])) = .ok (Path.cacheKey p) := by
  have hNe : p ++ [seg] ≠ [] := List.concat_ne_nil seg p
  rw [parentNamespace, Path.validate_name]
  dsimp only
  rw [if_neg (mt Path.name_eq_nil.mp hNe), if_neg (Path.name_ne_root _), if_neg (Path.getLast?_name _),
    Path.name_concat, findLastOf_append seg.slash_notMem]
  cases p with
  | nil => rfl
  | cons first p => exact congrArg Except.ok List.take_left

end Names

section Tree

def members : Value → List (Bytes × Value)
  | .struct ms => ms
  | _ => []

def child (t : Value) (seg : Segment) : Value :=
  match (members t).find? fun m => m.1 = seg.1 with
  | some m => m.2
  | none => .invalid

def valueAt (t : Value) (p : Path) : Value := p.foldl child t

/-- The tree after `setParam`. What is no struct on the way to the parameter gives way to one. -/
def assign (t : Value) : Path → Value → Value
  | [], v => v
  | seg :: p, v => .struct (insertOrAssign seg.1 (assign (child t seg) p v) (members t))

/-- The tree after `deleteParam`; the root itself is emptied. -/
def remove (t : Value) : Path → Value
  | [] => .struct []
  | [seg] => .struct ((members t).filter fun m => m.1 ≠ seg.1)
  | seg :: p => .struct (insertOrAssign seg.1 (remove (child t seg) p) (members t))

theorem child_struct (ms : List (Bytes × Value)) (seg : Segment) :
    child (.struct ms) seg = match ms.find? fun m => m.1 = seg.1 with
      | some m => m.2
      | none => .invalid := rfl

theorem child_insertOrAssign (seg : Segment) (v : Value) (ms : List (Bytes × Value)) :
    child (.struct (insertOrAssign seg.1 v ms)) seg = v := by
  rw [child_struct, find?_insertOrAssign_self]

theorem valueAt_assign (t : Value) (p : Path) (v : Value) : valueAt (assign t p v) p = v := by
  induction p generalizing t with
  | nil => rfl
  | cons seg p ih =>
    rw [assign, valueAt, List.foldl_cons, child_insertOrAssign]
    exact ih (child t seg)

end Tree

section Invalidation

namespace Cache

theorem params_none_of_shrinks {c c' : Cache} (h : Shrinks c c') {key : Bytes} (hNone : c.params key = none) :
    c'.params key = none := by
  cases hKey : c'.params key with
  | none => rfl
  | some v =>
    have hOld := h.params key v hKey
    rw [hNone] at hOld
    cases hOld

theorem invalidateFrom_root (c : Cache) (fuel : Nat) (nsKey : Bytes) :
    (c.invalidateFrom fuel nsKey).params [47] = c.params [47] := by
  induction fuel generalizing c nsKey with
  | zero => rfl
  | succ fuel ih =>
    rw [invalidateFrom]
    split
    · rfl
    · rename_i hWalk
      have hNe : [47] ≠ nsKey := fun h => hWalk (Or.inr h.symm)
      have hNext : (if c.subscribed nsKey then c.erase nsKey else c).params [47] = c.params [47] := by
        split
        · rw [erase_params, if_neg hNe]
        · rfl
      dsimp only
      split
      · rw [ih, hNext]
      · exact hNext

theorem set_root {key : Bytes} (h : key ≠ [47]) (c : Cache) (v : Value) :
    (c.set key v).params [47] = c.params [47] := by
  have hStored : (if c.subscribed key then c.store key v else c).params [47] = c.params [47] := by
    split
    · exact store_params_of_ne h.symm c v
    · rfl
  rw [set, invalidateParentParams]
  split
  · rw [invalidateFrom_root, hStored]
  · exact hStored

theorem invalidateFrom_cacheKey {q p : Path} (hq : q <+: p) (hRoot : q ≠ []) (c : Cache)
    (hSubscribed : c.subscribed q.cacheKey = true) {fuel : Nat} (hFuel : p.length ≤ fuel) :
    (c.invalidateFrom (fuel + 1) p.cacheKey).params q.cacheKey = none := by
  induction p using List.reverseRecOn generalizing c fuel with
  | nil => exact absurd (List.prefix_nil.mp hq) hRoot
  | append_singleton p seg ih =>
    have hNe : p ++ [seg] ≠ [] := List.concat_ne_nil seg p
    have hKey : Path.cacheKey (p ++ [seg]) = Path.name (p ++ [seg]) := Path.cacheKey_of_ne hNe
    have hWalk : ¬ (Path.cacheKey (p ++ [seg]) = [] ∨ Path.cacheKey (p ++ [seg]) = [47]) := by
      rw [hKey]
      exact not_or.mpr ⟨mt Path.name_eq_nil.mp hNe, Path.name_ne_root _⟩
    rw [invalidateFrom, if_neg hWalk]
    dsimp only
    rw [hKey, parentNamespace_name, ← hKey]
    dsimp only
    obtain rfl | hAbove := List.prefix_concat_iff.mp hq
    · rw [if_pos hSubscribed]
      apply params_none_of_shrinks (shrinks_invalidateFrom _ _ _)
      rw [erase_params, if_pos rfl]
    · cases fuel with
      | zero => simp at hFuel
      | succ fuel =>
        apply ih hAbove
        · split
          · exact hSubscribed
          · exact hSubscribed
        · simpa using hFuel

theorem invalidateParentParams_name {q p : Path} (hq : q <+: p) (hBelow : q ≠ p) (hRoot : q ≠ []) (c : Cache)
    (hSubscribed : c.subscribed q.cacheKey = true) :
    (c.invalidateParentParams p.name).params q.cacheKey = none := by
  induction p using List.reverseRecOn with
  | nil => exact absurd (List.prefix_nil.mp hq) hBelow
  | append_singleton p seg _ =>
    obtain hSelf | hAbove := List.prefix_concat_iff.mp hq
    · exact absurd hSelf hBelow
    · rw [invalidateParentParams, parentNamespace_name]
      exact invalidateFrom_cacheKey hAbove hRoot c hSubscribed (Path.length_le_cacheKey p)

end Cache

end Invalidation

end XcRos.Libros.Param
