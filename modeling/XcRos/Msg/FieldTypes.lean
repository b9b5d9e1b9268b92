import XcRos.Msg.Depends

/-! # Types of fields

A type is resolved twice: with its array suffix where the line of the field is read, and without the
suffix where dependencies are loaded.
-/

namespace XcRos.Msg

def arraySuffix (msgType : Str) : Str := msgType.dropWhile (· ≠ '[')

theorem bareMsgType_append_arraySuffix (msgType : Str) : bareMsgType msgType ++ arraySuffix msgType = msgType :=
  List.takeWhile_append_dropWhile

theorem drop_bareMsgType (msgType : Str) : msgType.drop (bareMsgType msgType).length = arraySuffix msgType := by
  conv_lhs =>
    arg 2
    rw [← bareMsgType_append_arraySuffix msgType]
  exact List.drop_left

theorem bareMsgType_prepend {front : Str} (hFront : '[' ∉ front) (msgType : Str) :
    bareMsgType (front ++ msgType) = front ++ bareMsgType msgType :=
  List.takeWhile_append_of_pos fun _ hc => decide_eq_true fun hEq => hFront (hEq ▸ hc)

theorem arraySuffix_prepend {front : Str} (hFront : '[' ∉ front) (msgType : Str) :
    arraySuffix (front ++ msgType) = arraySuffix msgType :=
  List.dropWhile_append_of_pos fun _ hc => decide_eq_true fun hEq => hFront (hEq ▸ hc)

theorem bareMsgType_idem (msgType : Str) : bareMsgType (bareMsgType msgType) = bareMsgType msgType :=
  List.takeWhile_idem

theorem not_mem_arrayIndices {opened : Bool} {s : Str} (h : areArrayIndices opened s = true) : '/' ∉ s := by
  induction s generalizing opened with
  | nil => exact List.not_mem_nil
  | cons c s ih =>
    rintro (_ | ⟨_, hMem⟩)
    · cases opened with
      | true =>
        rw [areArrayIndices, if_pos rfl, if_neg (by decide), Bool.and_eq_true] at h
        exact absurd h.1 (by decide)
      | false =>
        rw [areArrayIndices, if_neg Bool.false_ne_true, Bool.and_eq_true] at h
        exact absurd h.1 (by decide)
    · cases opened with
      | true =>
        rw [areArrayIndices, if_pos rfl] at h
        split at h
        · exact ih h hMem
        · exact ih (Bool.and_eq_true .. ▸ h).2 hMem
      | false =>
        rw [areArrayIndices, if_neg Bool.false_ne_true, Bool.and_eq_true] at h
        exact ih h.2 hMem

theorem getLast?_arrayIndices {opened : Bool} {s : Str} (h : areArrayIndices opened s = true) :
    (opened = false ∧ s = []) ∨ s.getLast? = some ']' := by
  induction s generalizing opened with
  | nil =>
    rw [areArrayIndices, Bool.not_eq_true'] at h
    exact .inl ⟨h, rfl⟩
  | cons c s ih =>
    have hTail {opened : Bool} (hRest : areArrayIndices opened s = true) (hOpen : opened = false → c = ']') :
        (c :: s).getLast? = some ']' := by
      obtain ⟨hClosed, rfl⟩ | hLast := ih hRest
      · rw [hOpen hClosed]
        rfl
      · rw [List.getLast?_cons, hLast]
        rfl
    cases opened with
    | true =>
      rw [areArrayIndices, if_pos rfl] at h
      split at h
      · rename_i hClose
        exact .inr (hTail h fun _ => hClose)
      · exact .inr (hTail (Bool.and_eq_true .. ▸ h).2 (by rintro ⟨⟩))
    | false =>
      rw [areArrayIndices, if_neg Bool.false_ne_true, Bool.and_eq_true] at h
      exact .inr (hTail h.2 (by rintro ⟨⟩))

section

variable {unicodeWord : Char → Bool} {package fieldType : Str}

theorem isValidMsgType_arraySuffix (h : isValidMsgType unicodeWord fieldType = true) :
    '/' ∉ arraySuffix fieldType := by
  rw [isValidMsgType, Bool.and_eq_true, drop_bareMsgType] at h
  exact not_mem_arrayIndices h.2

theorem mem_bareMsgType_iff (hSuffix : '/' ∉ arraySuffix fieldType) :
    '/' ∈ bareMsgType fieldType ↔ '/' ∈ fieldType := by
  constructor
  · exact fun h => (List.takeWhile_prefix _).subset h
  · intro h
    rw [← bareMsgType_append_arraySuffix fieldType] at h
    exact (List.mem_append.mp h).resolve_right hSuffix

structure LocalType (fieldType : Str) : Prop where
  noPackage : '/' ∉ fieldType
  noBuiltin : isBuiltin (bareMsgType fieldType) = false
  noHeader : fieldType ≠ header

theorem resolveFieldType_cases (hPackage : package ≠ []) (fieldType : Str) :
    (fieldType = header ∧ resolveFieldType package fieldType = headerFullName) ∨
    (LocalType fieldType ∧ resolveFieldType package fieldType = package ++ '/' :: fieldType) ∨
    (('/' ∈ fieldType ∨ isBuiltin (bareMsgType fieldType) = true) ∧
      resolveFieldType package fieldType = fieldType) := by
  by_cases hHeader : fieldType = header
  · subst hHeader
    refine .inl ⟨rfl, ?_⟩
    rw [resolveFieldType, if_pos ⟨hPackage, by decide⟩, if_pos rfl]
  · by_cases hSlash : '/' ∈ fieldType
    · refine .inr (.inr ⟨.inl hSlash, ?_⟩)
      rw [resolveFieldType, if_neg fun h => h.2 hSlash, if_neg hHeader]
    · cases hBuiltin : isBuiltin (bareMsgType fieldType) with
      | false =>
        refine .inr (.inl ⟨⟨hSlash, hBuiltin, hHeader⟩, ?_⟩)
        rw [resolveFieldType, if_pos ⟨hPackage, hSlash⟩, if_neg hHeader, if_pos (by rw [hBuiltin]; rfl)]
      | true =>
        refine .inr (.inr ⟨.inr rfl, ?_⟩)
        rw [resolveFieldType, if_pos ⟨hPackage, hSlash⟩, if_neg hHeader, if_neg (by rw [hBuiltin]; decide)]

/-- Loading dependencies finds the type that the field has, and its suffix is kept. -/
def ResolvesAlike (package fieldType : Str) : Prop :=
  bareMsgType (resolveFieldType package fieldType) = resolveType (bareMsgType fieldType) package ∧
    arraySuffix (resolveFieldType package fieldType) = arraySuffix fieldType

theorem resolvesAlike_local (hLocal : LocalType fieldType) (hSuffix : '/' ∉ arraySuffix fieldType)
    (hKept : resolveFieldType package fieldType = package ++ '/' :: fieldType) :
    ResolvesAlike package fieldType ↔
      '[' ∉ package ∧ (bareMsgType fieldType = header → package = str "std_msgs") := by
  have hText : package ++ '/' :: fieldType = package ++ ['/'] ++ fieldType := by simp
  have hBare : '/' ∉ bareMsgType fieldType := fun h => hLocal.noPackage ((mem_bareMsgType_iff hSuffix).mp h)
  rw [ResolvesAlike, hKept]
  by_cases hPlain : '[' ∈ package
  · refine iff_of_false ?_ fun h => h.1 hPlain
    rintro ⟨-, hSame⟩
    obtain ⟨near, far, rfl, hNear⟩ := List.eq_append_cons_of_mem hPlain
    have hTail : arraySuffix (near ++ '[' :: far ++ '/' :: fieldType) = '[' :: far ++ '/' :: fieldType := by
      rw [List.append_assoc, arraySuffix_prepend hNear, arraySuffix, List.cons_append,
        List.dropWhile_cons_of_neg (by decide)]
    rw [hTail] at hSame
    exact hSuffix (hSame ▸ List.mem_append_right _ List.mem_cons_self)
  · have hFront : '[' ∉ package ++ ['/'] := by
      rw [List.mem_append, not_or]
      exact ⟨hPlain, by decide⟩
    rw [hText, bareMsgType_prepend hFront, arraySuffix_prepend hFront, and_iff_left rfl, and_iff_right hPlain,
      resolveType, bareMsgType_idem, if_neg (by rw [hLocal.noBuiltin]; decide)]
    by_cases hHeader : bareMsgType fieldType = header
    · have hFull : headerFullName = str "std_msgs" ++ ['/'] ++ header := by decide
      rw [if_pos hHeader, hHeader, hFull, List.append_cancel_right_eq, List.append_cancel_right_eq]
      exact ⟨fun h _ => h, fun h => h rfl⟩
    · rw [if_neg hHeader, if_neg hBare]
      exact iff_of_true (by simp) fun h => absurd h hHeader

/-- An array of headers is looked for in the package, where its dependency is not. -/
theorem resolvesAlike_iff (hPackage : package ≠ []) (hType : isValidMsgType unicodeWord fieldType = true) :
    ResolvesAlike package fieldType ↔
      '/' ∈ fieldType ∨ isBuiltin (bareMsgType fieldType) = true ∨ fieldType = header ∨
        '[' ∉ package ∧ (bareMsgType fieldType = header → package = str "std_msgs") := by
  have hSuffix := isValidMsgType_arraySuffix hType
  obtain ⟨rfl, hKept⟩ | ⟨hLocal, hKept⟩ | ⟨hOwn, hKept⟩ := resolveFieldType_cases hPackage fieldType
  · refine iff_of_true ?_ (.inr (.inr (.inl rfl)))
    rw [ResolvesAlike, hKept, resolveType, bareMsgType_idem, if_neg (by decide), if_pos (by decide)]
    decide
  · rw [resolvesAlike_local hLocal hSuffix hKept, or_iff_right hLocal.noPackage,
      or_iff_right (by rw [hLocal.noBuiltin]; decide), or_iff_right hLocal.noHeader]
  · refine iff_of_true ⟨?_, by rw [hKept]⟩ (hOwn.imp_right Or.inl)
    rw [hKept, resolveType, bareMsgType_idem]
    split
    · rfl
    · rename_i hNoBuiltin
      have hSlash : '/' ∈ bareMsgType fieldType := (mem_bareMsgType_iff hSuffix).mpr (hOwn.resolve_right hNoBuiltin)
      have hHeader : bareMsgType fieldType ≠ header := by
        intro hEq
        rw [hEq] at hSlash
        exact absurd hSlash (by decide)
      rw [if_neg hHeader, if_pos hSlash]

theorem resolvesAlike_point : ResolvesAlike (str "geometry_msgs") (str "Point[4]") :=
  (@resolvesAlike_iff (fun _ => false) (str "geometry_msgs") (str "Point[4]") (by decide) (by decide)).mpr
    (.inr (.inr (.inr ⟨by decide, fun h => absurd h (by decide)⟩)))

theorem resolves_headers :
    isValidMsgType (fun _ => false) (str "Header[]") = true ∧
      resolveFieldType (str "nav_msgs") (str "Header[]") = str "nav_msgs/Header[]" ∧
      resolveType (bareMsgType (str "Header[]")) (str "nav_msgs") = str "std_msgs/Header" ∧
      ¬ ResolvesAlike (str "nav_msgs") (str "Header[]") := by
  refine ⟨by decide, by decide, by decide, fun h => ?_⟩
  exact absurd h.1 (by decide)

end

end XcRos.Msg
