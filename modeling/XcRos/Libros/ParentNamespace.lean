import XcRos.Libros.NameResolution
import XcRos.Libros.ParamTree

/-! # The walk to the parents

`invalidateParentParams` goes from a name to its parent until it is at the root or outside of it. The walk ends from
every name, and from a canonical one it visits the proper ancestors, from the closest to the root.
-/

namespace XcRos.Libros

open XcRos.Rpc XcRos.Foundation.Path

namespace Names

theorem validate_take {name : Bytes} (h : validate name = none) (n : Nat) : validate (name.take n) = none := by
  cases name with
  | nil => simpa using h
  | cons c rest =>
    cases n with
    | zero => rfl
    | succ n =>
      obtain ⟨hFirst, hRest⟩ := validate_cons_eq_none_iff.mp h
      rw [List.take_succ_cons]
      exact validate_cons_eq_none_iff.mpr ⟨hFirst, fun d hd => hRest d (List.mem_of_mem_take hd)⟩

theorem validate_parentNamespace {name parent : Bytes} (h : parentNamespace name = .ok parent) :
    validate name = none ∧ validate parent = none := by
  rw [parentNamespace] at h
  cases hName : validate name with
  | some error =>
    rw [hName] at h
    cases h
  | none =>
    rw [hName] at h
    refine ⟨rfl, ?_⟩
    dsimp only at h
    split at h
    · cases h
      rfl
    split at h
    · cases h
      decide
    split at h
    · cases h
      rfl
    · cases h
      decide
    · cases h
      refine validate_take ?_ _
      split
      · exact validate_take hName _
      · exact hName

theorem parentNamespace_error {name : Bytes} : (∃ error, parentNamespace name = .error error) ↔ validate name ≠ none := by
  constructor
  · rintro ⟨error, h⟩ hName
    rw [parentNamespace, hName] at h
    dsimp only at h
    split at h
    · cases h
    split at h
    · cases h
    split at h <;> cases h
  · intro h
    obtain ⟨error, hName⟩ := Option.ne_none_iff_exists'.mp h
    exact ⟨error, by rw [parentNamespace, hName]⟩

theorem exists_parentNamespace {name : Bytes} (h : validate name = none) : ∃ parent, parentNamespace name = .ok parent := by
  cases hParent : parentNamespace name with
  | ok parent => exact ⟨parent, rfl⟩
  | error error => exact absurd h (parentNamespace_error.mp ⟨error, hParent⟩)

def withoutLast (name : Bytes) : Bytes :=
  let parts := (components 47 name).dropLast
  if parts = [] then [47] else absolute 47 parts

example : parentNamespace (bytes "/robot/arm/") = .ok (withoutLast (bytes "/robot/arm")) := by decide

/-- `ancestor` is a level above `name`. -/
def ProperAncestor (ancestor name : Bytes) : Prop :=
  Canonical ancestor ∧ ancestor ≠ name ∧ (ancestor = [47] ∨ ancestor ++ [47] <+: name)

end Names

namespace Param

open Names

/-- The values of `ns_key`, or the exception; `none` when the fuel is used up. -/
def nsKeysFrom : Nat → Bytes → Option (Except Bytes (List Bytes))
  | 0, _ => none
  | fuel + 1, nsKey =>
    if nsKey = [] ∨ nsKey = [47] then some (.ok [nsKey])
    else
      match parentNamespace nsKey with
      | .ok parent => (nsKeysFrom fuel parent).map fun r => r.map (nsKey :: ·)
      | .error error => some (.error error)

def nsKeys (fuel : Nat) (key : Bytes) : Option (Except Bytes (List Bytes)) :=
  match parentNamespace key with
  | .ok parent => nsKeysFrom fuel parent
  | .error error => some (.error error)

def Cache.invalidate (c : Cache) (nsKey : Bytes) : Cache := if c.subscribed nsKey then c.erase nsKey else c

/-! ## The walk ends -/

theorem nsKeysFrom_le {fuel more : Nat} (hLe : fuel ≤ more) {nsKey : Bytes} {r : Except Bytes (List Bytes)}
    (h : nsKeysFrom fuel nsKey = some r) : nsKeysFrom more nsKey = some r := by
  induction fuel generalizing more nsKey r with
  | zero => cases h
  | succ fuel ih =>
    obtain ⟨more, rfl⟩ := Nat.exists_eq_add_of_le' (Nat.le_of_add_left_le hLe)
    rw [nsKeysFrom] at h ⊢
    split
    · rename_i hEnd
      rwa [if_pos hEnd] at h
    · rename_i hWalk
      rw [if_neg hWalk] at h
      cases hParent : parentNamespace nsKey with
      | error error => rwa [hParent] at h
      | ok parent =>
        rw [hParent] at h
        obtain ⟨r', hRest, rfl⟩ := Option.map_eq_some_iff.mp h
        dsimp only
        rw [ih (Nat.le_of_succ_le_succ hLe) hRest]
        rfl

theorem exists_nsKeysFrom {nsKey : Bytes} (h : validate nsKey = none) :
    ∃ keys, nsKeysFrom (nsKey.length + 1) nsKey = some (.ok keys) := by
  induction hLength : nsKey.length using Nat.strongRecOn generalizing nsKey with
  | ind n ih =>
    subst hLength
    rw [nsKeysFrom]
    by_cases hEnd : nsKey = [] ∨ nsKey = [47]
    · exact ⟨[nsKey], if_pos hEnd⟩
    · obtain ⟨hEmpty, hRoot⟩ := not_or.mp hEnd
      obtain ⟨parent, hParent⟩ := exists_parentNamespace h
      have hShorter := length_parentNamespace_lt hEmpty hRoot hParent
      obtain ⟨keys, hKeys⟩ := ih parent.length hShorter (validate_parentNamespace hParent).2 rfl
      refine ⟨nsKey :: keys, ?_⟩
      rw [if_neg hEnd, hParent]
      dsimp only
      rw [nsKeysFrom_le hShorter hKeys]
      rfl

theorem nsKeys_ends (key : Bytes) :
    ∃ r, (∀ fuel > key.length, nsKeys fuel key = some r) ∧ (validate key = none ↔ ∃ keys, r = .ok keys) := by
  cases hKey : validate key with
  | some error =>
    obtain ⟨text, hParent⟩ := parentNamespace_error.mpr (hKey ▸ Option.some_ne_none error)
    refine ⟨.error text, fun fuel _ => by rw [nsKeys, hParent], iff_of_false (Option.some_ne_none _) ?_⟩
    rintro ⟨keys, hError⟩
    cases hError
  | none =>
    obtain ⟨parent, hParent⟩ := exists_parentNamespace hKey
    obtain ⟨keys, hKeys⟩ := exists_nsKeysFrom (validate_parentNamespace hParent).2
    refine ⟨.ok keys, fun fuel hFuel => ?_, iff_of_true rfl ⟨keys, rfl⟩⟩
    have hLe : parent.length ≤ key.length := by
      by_cases hEnd : key = [] ∨ key = [47]
      · rcases hEnd with rfl | rfl <;> cases hParent <;> exact Nat.le_refl _
      · exact Nat.le_of_lt (length_parentNamespace_lt (not_or.mp hEnd).1 (not_or.mp hEnd).2 hParent)
    rw [nsKeys, hParent]
    exact nsKeysFrom_le (by omega) hKeys

theorem invalidateFrom_eq {fuel : Nat} {nsKey : Bytes} {keys : List Bytes} (c : Cache)
    (h : nsKeysFrom fuel nsKey = some (.ok keys)) :
    (∃ front last, keys = front ++ [last] ∧ (last = [] ∨ last = [47])) ∧
      c.invalidateFrom fuel nsKey = keys.dropLast.foldl Cache.invalidate c := by
  induction fuel generalizing c nsKey keys with
  | zero => cases h
  | succ fuel ih =>
    rw [nsKeysFrom] at h
    rw [Cache.invalidateFrom]
    by_cases hEnd : nsKey = [] ∨ nsKey = [47]
    · rw [if_pos hEnd] at h ⊢
      cases h
      exact ⟨⟨[], nsKey, rfl, hEnd⟩, rfl⟩
    · rw [if_neg hEnd] at h ⊢
      cases hParent : parentNamespace nsKey with
      | error error =>
        rw [hParent] at h
        cases h
      | ok parent =>
        rw [hParent] at h
        obtain ⟨r, hRest, hCons⟩ := Option.map_eq_some_iff.mp h
        cases r with
        | error error => cases hCons
        | ok rest =>
          cases hCons
          obtain ⟨⟨front, last, rfl, hLast⟩, hCache⟩ := ih (c.invalidate nsKey) hRest
          refine ⟨⟨nsKey :: front, last, rfl, hLast⟩, ?_⟩
          have hDrop : (nsKey :: (front ++ [last])).dropLast = nsKey :: front := by
            rw [← List.cons_append, List.dropLast_concat]
          rw [List.dropLast_concat] at hCache
          exact hCache.trans (congrArg (List.foldl Cache.invalidate c) hDrop.symm)

/-! ## The names of paths -/

namespace Path

theorem components_name (p : Path) : components 47 p.name = p.map Subtype.val := by
  induction p using List.reverseRecOn with
  | nil => exact components_nil 47
  | append_singleton p seg ih =>
    rw [name_concat, components_append_cons, ih, components_of_not_mem 47 seg.slash_notMem seg.2.1, List.map_append]
    rfl

theorem name_eq_absolute (p : Path) : p.name = absolute 47 (p.map Subtype.val) := by
  rw [name, absolute, List.flatMap_map]

theorem exists_cacheKey {name : Bytes} (hCanonical : Canonical name) (hValid : validate name = none) :
    ∃ p : Path, name = p.cacheKey := by
  by_cases hRoot : name = [47]
  · exact ⟨[], hRoot⟩
  · obtain ⟨p, hp⟩ := exists_name_of_validate hCanonical.1 hValid
    have hClean : clean name = name := clean_of_tidy hCanonical.2.1 fun h => hRoot (hCanonical.2.2 h)
    have hNe : p ≠ [] := by
      rintro rfl
      have hHead := hCanonical.1
      rw [← hClean, hp] at hHead
      cases hHead
    exact ⟨p, by rw [cacheKey_of_ne hNe, ← hp, hClean]⟩

theorem canonical_cacheKey (p : Path) : Canonical p.cacheKey := by
  cases p with
  | nil => decide
  | cons seg p =>
    rw [cacheKey_of_ne (List.cons_ne_nil seg p)]
    exact canonical_iff_resolved.mpr ⟨rfl, .inl (clean_name _)⟩

theorem name_slash_prefix_iff {q p : Path} : q.name ++ [47] <+: p.name ↔ q <+: p ∧ q ≠ p := by
  constructor
  · rintro ⟨back, hBack⟩
    have hParts := congrArg (components 47) hBack
    rw [List.append_assoc, List.singleton_append, components_append_cons, components_name, components_name] at hParts
    refine ⟨(List.prefix_map_iff_of_injective Subtype.val_injective).mp ⟨_, hParts⟩, ?_⟩
    rintro rfl
    have hLength := congrArg List.length hBack
    simp only [List.length_append, List.length_singleton] at hLength
    omega
  · rintro ⟨⟨rest, rfl⟩, hNe⟩
    cases rest with
    | nil => exact absurd (List.append_nil q).symm hNe
    | cons seg rest =>
      refine ⟨seg.1 ++ name rest, ?_⟩
      simp [name]

theorem properAncestor_iff {p : Path} (hp : p ≠ []) {m : Bytes} :
    ProperAncestor m p.name ↔ ∃ q : Path, q <+: p ∧ q ≠ p ∧ m = q.cacheKey := by
  constructor
  · rintro ⟨hCanonical, _, rfl | hPrefix⟩
    · exact ⟨[], List.nil_prefix, hp.symm, rfl⟩
    · have hChars : ∀ c ∈ m, isValidCharInName c = true := fun c hc =>
        mem_name (hPrefix.subset (List.mem_append_left _ hc))
      obtain ⟨q, rfl⟩ := exists_cacheKey hCanonical ((validate_rooted_iff hCanonical.1).mpr hChars)
      refine ⟨q, ?_, ?_, rfl⟩
      · by_cases hq : q = []
        · rw [hq]
          exact List.nil_prefix
        · rw [cacheKey_of_ne hq] at hPrefix
          exact (name_slash_prefix_iff.mp hPrefix).1
      · rintro rfl
        rw [cacheKey_of_ne hp] at hPrefix
        exact (name_slash_prefix_iff.mp hPrefix).2 rfl
  · rintro ⟨q, hq, hNe, rfl⟩
    refine ⟨canonical_cacheKey q, fun h => hNe (cacheKey_injective (h.trans (cacheKey_of_ne hp).symm)), ?_⟩
    by_cases hRoot : q = []
    · exact .inl (by rw [hRoot, cacheKey_nil])
    · rw [cacheKey_of_ne hRoot]
      exact .inr (name_slash_prefix_iff.mpr ⟨hq, hNe⟩)

theorem length_cacheKey_lt {r q : Path} (h : r <+: q) (seg : Segment) :
    r.cacheKey.length < (cacheKey (q ++ [seg])).length := by
  have hSeg : 0 < seg.1.length := List.length_pos_iff.mpr seg.2.1
  rw [cacheKey_of_ne (List.concat_ne_nil seg q), name_concat, List.length_append, List.length_cons]
  by_cases hr : r = []
  · rw [hr, cacheKey_nil, List.length_singleton]
    omega
  · obtain ⟨rest, rfl⟩ := h
    rw [cacheKey_of_ne hr, name, name, List.flatMap_append, List.length_append]
    omega

theorem nsKeysFrom_cacheKey (q : Path) :
    ∃ keys, nsKeysFrom (q.length + 1) q.cacheKey = some (.ok keys) ∧
      (∀ m, m ∈ keys ↔ ∃ r : Path, r <+: q ∧ m = r.cacheKey) ∧ keys.Pairwise fun m m' => m'.length < m.length := by
  induction q using List.reverseRecOn with
  | nil =>
    refine ⟨[[47]], rfl, fun m => ?_, List.pairwise_singleton _ _⟩
    rw [List.mem_singleton]
    constructor
    · rintro rfl
      exact ⟨[], List.nil_prefix, rfl⟩
    · rintro ⟨r, hr, rfl⟩
      rw [List.prefix_nil.mp hr, cacheKey_nil]
  | append_singleton q seg ih =>
    obtain ⟨keys, hKeys, hMem, hOrder⟩ := ih
    have hNe : q ++ [seg] ≠ [] := List.concat_ne_nil seg q
    have hWalk : ¬ (cacheKey (q ++ [seg]) = [] ∨ cacheKey (q ++ [seg]) = [47]) := by
      rw [cacheKey_of_ne hNe]
      exact not_or.mpr ⟨mt name_eq_nil.mp hNe, name_ne_root _⟩
    refine ⟨cacheKey (q ++ [seg]) :: keys, ?_, fun m => ?_, List.pairwise_cons.mpr ⟨fun m hm => ?_, hOrder⟩⟩
    · rw [nsKeysFrom, if_neg hWalk, cacheKey_of_ne hNe, parentNamespace_name, List.length_append, List.length_singleton]
      dsimp only
      rw [hKeys]
      rfl
    · rw [List.mem_cons, hMem]
      constructor
      · rintro (rfl | ⟨r, hr, rfl⟩)
        · exact ⟨q ++ [seg], List.prefix_rfl, rfl⟩
        · exact ⟨r, hr.trans (List.prefix_append q [seg]), rfl⟩
      · rintro ⟨r, hr, rfl⟩
        obtain rfl | hr := List.prefix_concat_iff.mp hr
        · exact .inl rfl
        · exact .inr ⟨r, hr, rfl⟩
    · obtain ⟨r, hr, rfl⟩ := (hMem m).mp hm
      exact length_cacheKey_lt hr seg

theorem withoutLast_name (q : Path) (seg : Segment) : withoutLast (name (q ++ [seg])) = q.cacheKey := by
  have hParts : (components 47 (name (q ++ [seg]))).dropLast = q.map Subtype.val := by
    rw [components_name, List.map_append, List.map_singleton, List.dropLast_concat]
  rw [withoutLast, hParts]
  by_cases hq : q = []
  · rw [hq]
    rfl
  · rw [if_neg (mt List.map_eq_nil_iff.mp hq), cacheKey_of_ne hq, name_eq_absolute]

theorem parentNamespace_name_slash (q : Path) (seg : Segment) :
    parentNamespace (name (q ++ [seg]) ++ [47]) = .ok q.cacheKey := by
  have hNe : q ++ [seg] ≠ [] := List.concat_ne_nil seg q
  have hHead : (name (q ++ [seg]) ++ [47]).head? = some 47 := by cases q <;> rfl
  have hValid : validate (name (q ++ [seg]) ++ [47]) = none := by
    refine (validate_rooted_iff hHead).mpr fun c hc => ?_
    obtain hc | hc := List.mem_append.mp hc
    · exact mem_name hc
    · rw [List.mem_singleton.mp hc]
      decide
  have hRoot : name (q ++ [seg]) ++ [47] ≠ [47] := fun h =>
    hNe (name_eq_nil.mp (List.append_left_eq_self.mp h))
  have hStripped : (name (q ++ [seg]) ++ [47]).take ((name (q ++ [seg]) ++ [47]).length - 2) =
      q.name ++ 47 :: seg.1.dropLast := by
    have hSeg : 0 < seg.1.length := List.length_pos_iff.mpr seg.2.1
    rw [name_concat, List.append_assoc, List.cons_append, List.length_append, List.length_cons, List.length_append,
      List.length_singleton, Nat.add_sub_assoc (by omega), List.take_length_add_append, List.dropLast_eq_take]
    have hCount : seg.1.length + 1 + 1 - 2 = seg.1.length - 1 + 1 := by omega
    rw [hCount, List.take_succ_cons, List.take_append_of_le_length (Nat.sub_le _ _)]
  have hSlash : (47 : UInt8) ∉ seg.1.dropLast := fun h => seg.slash_notMem (List.mem_of_mem_dropLast h)
  rw [parentNamespace, hValid]
  dsimp only
  rw [if_neg (List.concat_ne_nil _ _), if_neg hRoot, if_pos List.getLast?_concat, hStripped, findLastOf_append hSlash]
  cases q with
  | nil => rfl
  | cons first q => exact congrArg Except.ok List.take_left

end Path

theorem nsKeys_canonical {n : Bytes} (hCanonical : Canonical n) (hRoot : n ≠ [47]) (hValid : validate n = none) :
    parentNamespace (n ++ [47]) = .ok (withoutLast n) ∧ parentNamespace n = .ok (withoutLast n) ∧
      ∃ keys, (∀ fuel > n.length, nsKeys fuel n = some (.ok keys)) ∧
        (∀ m, m ∈ keys ↔ ProperAncestor m n) ∧ keys.Pairwise fun m m' => m'.length < m.length := by
  obtain ⟨p, rfl⟩ := Path.exists_cacheKey hCanonical hValid
  have hp : p ≠ [] := by
    rintro rfl
    exact hRoot rfl
  rw [Path.cacheKey_of_ne hp]
  induction p using List.reverseRecOn with
  | nil => exact absurd rfl hp
  | append_singleton q seg _ =>
    obtain ⟨keys, hKeys, hMem, hOrder⟩ := Path.nsKeysFrom_cacheKey q
    rw [Path.withoutLast_name]
    refine ⟨Path.parentNamespace_name_slash q seg, parentNamespace_name q seg, keys, fun fuel hFuel => ?_, fun m => ?_,
      hOrder⟩
    · have hLength : q.length + 1 ≤ fuel := by
        have hLe := Path.length_le_name (q ++ [seg])
        rw [List.length_append, List.length_singleton] at hLe
        omega
      rw [nsKeys, parentNamespace_name]
      exact nsKeysFrom_le hLength hKeys
    · rw [hMem, Path.properAncestor_iff hp]
      constructor
      · rintro ⟨r, hr, rfl⟩
        refine ⟨r, hr.trans (List.prefix_append q [seg]), ?_, rfl⟩
        rintro rfl
        exact absurd hr.length_le (by simp)
      · rintro ⟨r, hr, hNe, rfl⟩
        obtain h | h := List.prefix_concat_iff.mp hr
        · exact absurd h hNe
        · exact ⟨r, h, rfl⟩

theorem not_validate_slash {n : Bytes} (hCanonical : Canonical n) (hInvalid : validate n ≠ none) :
    validate (n ++ [47]) ≠ none := by
  obtain ⟨rest, rfl⟩ := List.head?_eq_some_iff.mp hCanonical.1
  intro h
  refine hInvalid ((validate_rooted_iff rfl).mpr fun c hc => ?_)
  exact (validate_rooted_iff (s := 47 :: rest ++ [47]) rfl).mp h c (List.mem_append_left _ hc)

/-- A parent is shorter, the walk ends from every key, and from a canonical name it visits exactly the proper
ancestors. -/
theorem walk_to_ancestors :
    (∀ name, validate name = none → ∃ parent, parentNamespace name = .ok parent ∧
      (name ≠ [] → name ≠ [47] → parent.length < name.length)) ∧
    (∀ key, ∃ r, (∀ fuel > key.length, nsKeys fuel key = some r) ∧
      (validate key = none ↔ ∃ keys, r = .ok keys) ∧
      ∀ keys (c : Cache), r = .ok keys →
        c.invalidateParentParams key = keys.dropLast.foldl Cache.invalidate c) ∧
    ∀ n, Canonical n → n ≠ [47] →
      if validate n = none then
        parentNamespace (n ++ [47]) = .ok (withoutLast n) ∧ parentNamespace n = .ok (withoutLast n) ∧
          ∃ keys, (∀ fuel > n.length, nsKeys fuel n = some (.ok keys)) ∧
            (∀ m, m ∈ keys ↔ ProperAncestor m n) ∧ keys.Pairwise fun m m' => m'.length < m.length
      else (∃ error, parentNamespace n = .error error) ∧ ∃ error, parentNamespace (n ++ [47]) = .error error := by
  refine ⟨fun name hValid => ?_, fun key => ?_, fun n hCanonical hRoot => ?_⟩
  · obtain ⟨parent, hParent⟩ := exists_parentNamespace hValid
    exact ⟨parent, hParent, fun hEmpty hRoot => length_parentNamespace_lt hEmpty hRoot hParent⟩
  · obtain ⟨r, hEnds, hOk⟩ := nsKeys_ends key
    refine ⟨r, hEnds, hOk, ?_⟩
    rintro keys c rfl
    obtain ⟨parent, hParent⟩ := exists_parentNamespace (hOk.mpr ⟨keys, rfl⟩)
    have hKeys := hEnds (key.length + 1) (Nat.lt_succ_self _)
    rw [nsKeys, hParent] at hKeys
    obtain ⟨keys', hKeys'⟩ := exists_nsKeysFrom (validate_parentNamespace hParent).2
    have hSame : keys' = keys := by
      have hMax := nsKeysFrom_le (Nat.le_max_left (parent.length + 1) (key.length + 1)) hKeys'
      rw [nsKeysFrom_le (Nat.le_max_right (parent.length + 1) (key.length + 1)) hKeys] at hMax
      exact (Except.ok.inj (Option.some.inj hMax)).symm
    rw [Cache.invalidateParentParams, hParent]
    exact hSame ▸ (invalidateFrom_eq c hKeys').2
  · split
    · exact nsKeys_canonical hCanonical hRoot ‹_›
    · exact ⟨parentNamespace_error.mpr ‹_›, parentNamespace_error.mpr (not_validate_slash hCanonical ‹_›)⟩

end Param

end XcRos.Libros
