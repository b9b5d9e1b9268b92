import XcRos.Rpc.CString

/-! # Graph resource names

`names::validate`, `names::clean` and `names::parentNamespace`. The slash is 47 and the tilde 126.
-/

namespace XcRos.Libros

open XcRos.Rpc

def isalpha (c : UInt8) : Bool := (65 ≤ c && c ≤ 90) || (97 ≤ c && c ≤ 122)

def isalnum (c : UInt8) : Bool := isalpha c || isdigit c

namespace Names

def isValidCharInName (c : UInt8) : Bool := isalnum c || c == 47 || c == 95

def firstCharError (c : UInt8) (name : Bytes) : Bytes :=
  bytes "Character [" ++ [c] ++ bytes "] is not valid as the first character in Graph Resource Name [" ++
    name ++ bytes "].  Valid characters are a-z, A-Z, / and in some cases ~."

def charError (c : UInt8) (i : Nat) (name : Bytes) : Bytes :=
  bytes "Character [" ++ [c] ++ bytes "] at element [" ++ printNat i ++
    bytes "] is not valid in Graph Resource Name [" ++ name ++
    bytes "].  Valid characters are a-z, A-Z, 0-9, / and _."

/-- `validate`: the error it reports, if there is one. -/
def validate (name : Bytes) : Option Bytes :=
  match name with
  | [] => none
  | c :: rest =>
    if !isalpha c && c != 47 && c != 126 then some (firstCharError c name)
    else
      match rest.findIdx? (fun d => !isValidCharInName d) with
      | some i => (name[i + 1]?).map fun d => charError d (i + 1) name
      | none => none

/-- The erasing loop of `clean`: of two slashes the first goes, and the search resumes there. -/
def eraseDoubled : Bytes → Bytes
  | [] => []
  | c :: rest =>
    if c = 47 ∧ rest.head? = some 47 then eraseDoubled rest
    else c :: eraseDoubled rest

def clean (name : Bytes) : Bytes :=
  let clean := eraseDoubled name
  if clean.getLast? = some 47 then clean.dropLast else clean

/-- The names that `resolve` gives and the master uses: the clean ones and the root. -/
def Resolved (name : Bytes) : Prop := clean name = name ∨ name = [47]

instance (name : Bytes) : Decidable (Resolved name) := inferInstanceAs (Decidable (_ ∨ _))

abbrev Name := { name : Bytes // Resolved name }

/-- `find_last_of` for a single letter. -/
def findLastOf (c : UInt8) (s : Bytes) : Option Nat :=
  if c ∈ s then some (s.length - 1 - s.reverse.idxOf c) else none

/-- The parent, or the text of the exception for a name that is not valid. -/
def parentNamespace (name : Bytes) : Except Bytes Bytes :=
  match validate name with
  | some error => .error error
  | none =>
    if name = [] then .ok []
    else if name = [47] then .ok [47]
    else
      let stripped := if name.getLast? = some 47 then name.take (name.length - 2) else name
      match findLastOf 47 stripped with
      | none => .ok []
      | some 0 => .ok [47]
      | some lastPos => .ok (stripped.take lastPos)

example : parentNamespace (bytes "/robot/arm/") = .ok (bytes "/robot") := by decide

theorem findLastOf_lt {c : UInt8} {s : Bytes} {n : Nat} (h : findLastOf c s = some n) :
    n < s.length := by
  rw [findLastOf] at h
  split at h
  · rename_i hMem
    have hPos : 0 < s.length := List.length_pos_of_mem hMem
    cases h
    omega
  · cases h

theorem findLastOf_append {c : UInt8} {back : Bytes} (h : c ∉ back) (front : Bytes) :
    findLastOf c (front ++ c :: back) = some front.length := by
  have hIdx : (front ++ c :: back).reverse.idxOf c = back.length := by
    rw [List.reverse_append, List.reverse_cons, List.append_assoc, List.singleton_append,
      List.idxOf_append_of_notMem (by simpa using h), List.idxOf_cons_self, List.length_reverse, Nat.add_zero]
  have hMem : c ∈ front ++ c :: back := by simp
  rw [findLastOf, if_pos hMem, hIdx, List.length_append, List.length_cons]
  congr 1
  omega

theorem length_parentNamespace_lt {name parent : Bytes} (hEmpty : name ≠ []) (hRoot : name ≠ [47])
    (h : parentNamespace name = .ok parent) : parent.length < name.length := by
  have hPos : 0 < name.length := List.length_pos_iff.mpr hEmpty
  rw [parentNamespace] at h
  split at h
  · cases h
  rw [if_neg hEmpty, if_neg hRoot] at h
  dsimp only at h
  have hStripped : (if name.getLast? = some 47 then name.take (name.length - 2) else name).length ≤
      name.length := by
    split
    · exact List.length_take_le' _ _
    · exact Nat.le_refl _
  split at h
  · cases h
    exact hPos
  · cases h
    rename_i hSlash
    have hStart := findLastOf_lt hSlash
    by_contra hShort
    have hOne : name.length = 1 := by
      simp only [List.length_singleton] at hShort
      omega
    obtain ⟨c, rfl⟩ := List.length_eq_one_iff.mp hOne
    have hc : c ≠ 47 := by
      rintro rfl
      exact hRoot rfl
    simp [findLastOf, hc, Ne.symm hc] at hSlash
  · rename_i hLast
    cases h
    have := findLastOf_lt hLast
    rw [List.length_take]
    omega

theorem length_eraseDoubled_le (s : Bytes) : (eraseDoubled s).length ≤ s.length := by
  induction s with
  | nil => exact Nat.le_refl 0
  | cons c rest ih =>
    rw [eraseDoubled]
    split
    · exact Nat.le_succ_of_le ih
    · exact Nat.succ_le_succ ih

theorem getLast?_of_clean_eq {key : Bytes} (h : clean key = key) :
    eraseDoubled key = key ∧ key.getLast? ≠ some 47 := by
  have hLe := length_eraseDoubled_le key
  simp only [clean] at h
  split at h
  · rename_i hLast
    have hLength := congrArg List.length h
    rw [List.length_dropLast] at hLength
    have hNil : eraseDoubled key = [] := List.length_eq_zero_iff.mp (by omega)
    rw [hNil] at hLast
    cases hLast
  · rename_i hLast
    rw [h] at hLast
    exact ⟨h, hLast⟩

theorem eraseDoubled_append_slash {key : Bytes} (hErased : eraseDoubled key = key)
    (hLast : key.getLast? ≠ some 47) : eraseDoubled (key ++ [47]) = key ++ [47] := by
  induction key with
  | nil => rfl
  | cons c rest ih =>
    rw [eraseDoubled] at hErased
    split at hErased
    · have hLe := length_eraseDoubled_le rest
      rw [hErased, List.length_cons] at hLe
      omega
    · rename_i hSingle
      rw [List.cons_append, eraseDoubled]
      cases rest with
      | nil =>
        have hc : c ≠ 47 := fun h => hLast (by rw [h]; rfl)
        rw [if_neg (fun h => hc h.1)]
        rfl
      | cons d rest =>
        have hStill : ¬ (c = 47 ∧ (d :: rest ++ [47]).head? = some 47) := hSingle
        rw [if_neg hStill, ih (List.cons.inj hErased).2 (by rwa [List.getLast?_cons_cons] at hLast)]

theorem clean_append_slash {key : Bytes} (h : clean key = key) : clean (key ++ [47]) = key := by
  obtain ⟨hErased, hLast⟩ := getLast?_of_clean_eq h
  simp only [clean, eraseDoubled_append_slash hErased hLast, List.getLast?_concat, if_true,
    List.dropLast_concat]

theorem head?_eraseDoubled (s : Bytes) : (eraseDoubled s).head? = s.head? := by
  induction s with
  | nil => rfl
  | cons c rest ih =>
    rw [eraseDoubled]
    split
    · rename_i h
      rw [ih, h.2, List.head?_cons, h.1]
    · rfl

theorem eraseDoubled_eraseDoubled (s : Bytes) : eraseDoubled (eraseDoubled s) = eraseDoubled s := by
  induction s with
  | nil => rfl
  | cons c rest ih =>
    by_cases h : c = 47 ∧ rest.head? = some 47
    · rw [eraseDoubled, if_pos h, ih]
    · have hStill : ¬ (c = 47 ∧ (eraseDoubled rest).head? = some 47) := by rwa [head?_eraseDoubled]
      rw [eraseDoubled, if_neg h, eraseDoubled, if_neg hStill, ih]

theorem clean_ne_root (key : Bytes) : clean key ≠ [47] := by
  intro h
  simp only [clean] at h
  split at h
  · rename_i hLast
    obtain ⟨front, hFront⟩ := List.getLast?_eq_some_iff.mp hLast
    rw [hFront, List.dropLast_concat] at h
    have hErased := eraseDoubled_eraseDoubled key
    rw [hFront, h] at hErased
    exact absurd hErased (by decide)
  · rename_i hLast
    exact hLast (by rw [h]; rfl)

theorem Resolved.clean_eq {name key : Bytes} (h : Resolved name) (hEmpty : key ≠ []) (slash : Bool)
    (hClean : clean (if slash then name ++ [47] else name) = key) : name = key := by
  obtain hName | rfl := h
  · cases slash with
    | false => exact hName.symm.trans hClean
    | true => exact (clean_append_slash hName).symm.trans hClean
  · have hNil : clean (if slash then [47] ++ [47] else [47]) = [] := by cases slash <;> decide
    exact absurd (hClean.symm.trans hNil) hEmpty

end Names

end XcRos.Libros
