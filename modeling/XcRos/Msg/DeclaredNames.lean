import XcRos.Msg.FieldTypes
import XcRos.Msg.LoaderLines
import XcRos.Msg.Texts

/-! # Declared names

What a text has to look like to be loaded, and what the names and types are that a loaded text
declares. The name of a field is checked, the name of a constant is not.
-/

namespace XcRos.Msg

/-! ## Lines -/

def typeToken (line : Str) : Str := (tokens (stripComments line)).headD []

def fieldName (line : Str) : Str := (tokens (stripComments line)).getD 1 []

/-- Name and value of a constant, as they are cut out of its line; a line without a value has another length. -/
def constantParts (line : Str) : List Str :=
  if typeToken line = str "string" then
    [slice line (find ' ' line + 1) (find '=' line), slice line (find '=' line + 1) line.length]
  else (split '=' ([' '].intercalate (tokens (stripComments line)).tail)).map strip

def constantName (line : Str) : Str := strip ((constantParts line).headD [])

def IsConstantLine (line : Str) : Prop := '=' ∈ stripComments line

def IsFieldLine (line : Str) : Prop := stripComments line ≠ [] ∧ '=' ∉ stripComments line

instance (line : Str) : Decidable (IsConstantLine line) := inferInstanceAs (Decidable ('=' ∈ stripComments line))

instance (line : Str) : Decidable (IsFieldLine line) :=
  inferInstanceAs (Decidable (stripComments line ≠ [] ∧ '=' ∉ stripComments line))

def declaredFieldName (line : Str) : Option Str := if IsFieldLine line then some (fieldName line) else none

def declaredName (line : Str) : Option Str :=
  if IsConstantLine line then some (constantName line) else declaredFieldName line

section

variable {F : Type} (py : Python F)

structure ConstantLine (line : Str) : Prop where
  type : isValidConstantType (typeToken line) = true
  parts : (constantParts line).length = 2
  value : (convertConstantValue py (typeToken line) ((constantParts line).getD 1 [])).isSome = true

structure FieldLine (line : Str) : Prop where
  parts : (tokens (stripComments line)).length = 2
  name : isValidMsgFieldName py.unicodeWord (fieldName line) = true
  type : isValidMsgType py.unicodeWord (typeToken line) = true

structure WellFormed (package : Str) (lines : List Str) : Prop where
  constants : ∀ line ∈ lines, IsConstantLine line → ConstantLine py line
  fields : ∀ line ∈ lines, IsFieldLine line → FieldLine py line
  distinct : (lines.filterMap declaredFieldName).Nodup
  types : ∀ line ∈ lines, IsFieldLine line → (parseType (resolveFieldType package (typeToken line))).isSome = true

/-- The names in a text beside those that are checked, and the package that its types are looked for in. -/
structure WellNamed (package : Str) (lines : List Str) : Prop where
  constants : ∀ line ∈ lines, IsConstantLine line → isLegalResourceBaseName py.unicodeWord (constantName line) = true
  distinct : (lines.filterMap declaredName).Nodup
  package : ∀ line ∈ lines, IsFieldLine line → LocalType (typeToken line) →
    package = [] ∨ isLegalResourceBaseName py.unicodeWord package = true

end

section

variable {F : Type} {py : Python F} {package line : Str}

theorem constantOf_eq_ok_iff {type name val : Str} {c : LoadedConstant F} :
    constantOf py type name val = .ok c ↔
      c.toConstant = ⟨type, strip name, strip val⟩ ∧ convertConstantValue py type val = some c.val := by
  rw [constantOf]
  obtain ⟨constant, value⟩ := c
  cases hConvert : convertConstantValue py type val with
  | none =>
    refine iff_of_false (fun h => ?_) fun h => ?_
    · cases h
    · cases h.2
  | some converted =>
    dsimp only
    rw [Except.ok.injEq, LoadedConstant.mk.injEq, Option.some.injEq]
    exact and_congr eq_comm Iff.rfl

theorem loadConstantLine_of_parts {name val : Str} (hType : isValidConstantType (typeToken line) = true)
    (hParts : constantParts line = [name, val]) :
    loadConstantLine py line = constantOf py (typeToken line) name val := by
  rw [constantParts] at hParts
  rw [typeToken] at hType hParts ⊢
  rw [loadConstantLine]
  dsimp only
  rw [if_neg (by rw [hType]; decide)]
  split at hParts
  · rename_i hString
    rw [if_pos hString]
    cases hParts
    rfl
  · rename_i hString
    rw [if_neg hString, hParts]

theorem parts_of_loadConstantLine {c : LoadedConstant F} (h : loadConstantLine py line = .ok c) :
    isValidConstantType (typeToken line) = true ∧ ∃ name val, constantParts line = [name, val] := by
  rw [loadConstantLine] at h
  dsimp only at h
  split at h
  · cases h
  · rename_i hValid
    rw [Bool.not_eq_true', Bool.not_eq_false] at hValid
    refine ⟨hValid, ?_⟩
    rw [constantParts, typeToken]
    split at h
    · rename_i hString
      rw [if_pos hString]
      exact ⟨_, _, rfl⟩
    · rename_i hString
      rw [if_neg hString]
      split at h
      · rename_i name val hParts
        exact ⟨name, val, hParts⟩
      · cases h

theorem loadConstantLine_eq_ok_iff {c : LoadedConstant F} :
    loadConstantLine py line = .ok c ↔
      ConstantLine py line ∧
        c.toConstant = ⟨typeToken line, constantName line, strip ((constantParts line).getD 1 [])⟩ ∧
        convertConstantValue py (typeToken line) ((constantParts line).getD 1 []) = some c.val := by
  constructor
  · intro h
    obtain ⟨hType, name, val, hPair⟩ := parts_of_loadConstantLine h
    rw [loadConstantLine_of_parts hType hPair] at h
    obtain ⟨hConstant, hValue⟩ := constantOf_eq_ok_iff.mp h
    refine ⟨⟨hType, by rw [hPair]; rfl, ?_⟩, ?_, ?_⟩
    · rw [hPair]
      exact Option.isSome_iff_exists.mpr ⟨c.val, hValue⟩
    · rw [constantName, hPair]
      exact hConstant
    · rw [hPair]
      exact hValue
  · rintro ⟨hLine, hConstant, hValue⟩
    obtain ⟨name, val, hPair⟩ := List.length_eq_two.mp hLine.parts
    rw [constantName, hPair] at hConstant
    rw [hPair] at hValue
    rw [loadConstantLine_of_parts hLine.type hPair]
    exact constantOf_eq_ok_iff.mpr ⟨hConstant, hValue⟩

theorem loadFieldLine_eq_ok_iff {field : Str × Str} :
    loadFieldLine py line package = .ok field ↔
      FieldLine py line ∧ field = (resolveFieldType package (typeToken line), fieldName line) := by
  rw [loadFieldLine]
  constructor
  · intro h
    split at h
    · rename_i fieldType name hTokens
      have hType : typeToken line = fieldType := by rw [typeToken, hTokens]; rfl
      have hName : fieldName line = name := by rw [fieldName, hTokens]; rfl
      split at h
      · cases h
      · rename_i hLegal
        split at h
        · cases h
        · rename_i hValid
          rw [Bool.not_eq_true', Bool.not_eq_false] at hLegal hValid
          cases h
          rw [hType, hName]
          exact ⟨⟨by rw [hTokens]; rfl, hName ▸ hLegal, hType ▸ hValid⟩, rfl⟩
    · cases h
  · rintro ⟨hLine, rfl⟩
    obtain ⟨fieldType, name, hTokens⟩ := List.length_eq_two.mp hLine.parts
    have hType : typeToken line = fieldType := by rw [typeToken, hTokens]; rfl
    have hName : fieldName line = name := by rw [fieldName, hTokens]; rfl
    have hLegal := hName ▸ hLine.name
    have hValid := hType ▸ hLine.type
    rw [hTokens, hType, hName]
    dsimp only
    rw [if_neg (by rw [hLegal]; decide), if_neg (by rw [hValid]; decide)]

structure LineFits (py : Python F) (line : Str) : Prop where
  constant : IsConstantLine line → ConstantLine py line
  field : IsFieldLine line → FieldLine py line

def Declaration.declared : Declaration F → Str
  | .field _ name => name
  | .constant c => c.name

structure LineDeclares (package line : Str) (ds : List (Declaration F)) : Prop where
  types : typesOf ds = if IsFieldLine line then [resolveFieldType package (typeToken line)] else []
  names : namesOf ds = (declaredFieldName line).toList
  constants : (constantsOf ds).map (·.toConstant) =
    if IsConstantLine line then [⟨typeToken line, constantName line, strip ((constantParts line).getD 1 [])⟩] else []
  declared : ds.map (·.declared) = (declaredName line).toList

theorem loadLine_declares {ds : List (Declaration F)} (h : loadLine py package line = .ok ds) :
    LineFits py line ∧ LineDeclares package line ds := by
  rw [loadLine] at h
  by_cases hEmpty : stripComments line = []
  · have hConstant : ¬ IsConstantLine line := fun hMem => List.ne_nil_of_mem hMem hEmpty
    have hField : ¬ IsFieldLine line := fun hLine => hLine.1 hEmpty
    rw [if_pos hEmpty] at h
    cases h
    refine ⟨⟨fun hLine => absurd hLine hConstant, fun hLine => absurd hLine hField⟩, ?_⟩
    refine ⟨by rw [if_neg hField]; rfl, ?_, by rw [if_neg hConstant]; rfl, ?_⟩
    · rw [declaredFieldName, if_neg hField]
      rfl
    · rw [declaredName, if_neg hConstant, declaredFieldName, if_neg hField]
      rfl
  · rw [if_neg hEmpty] at h
    by_cases hEquals : '=' ∈ stripComments line
    · have hConstant : IsConstantLine line := hEquals
      have hField : ¬ IsFieldLine line := fun hLine => hLine.2 hEquals
      rw [if_pos hEquals] at h
      cases hLoad : loadConstantLine py line with
      | error e =>
        rw [hLoad] at h
        cases h
      | ok c =>
        rw [hLoad] at h
        cases h
        obtain ⟨hLine, hShape, -⟩ := loadConstantLine_eq_ok_iff.mp hLoad
        refine ⟨⟨fun _ => hLine, fun hOther => absurd hOther hField⟩, ?_⟩
        refine ⟨by rw [if_neg hField]; rfl, ?_, ?_, ?_⟩
        · rw [declaredFieldName, if_neg hField]
          rfl
        · rw [if_pos hConstant, ← hShape]
          rfl
        · have hName : c.name = constantName line := congrArg Constant.name hShape
          rw [declaredName, if_pos hConstant, ← hName]
          rfl
    · have hConstant : ¬ IsConstantLine line := hEquals
      have hField : IsFieldLine line := ⟨hEmpty, hEquals⟩
      rw [if_neg hEquals] at h
      cases hLoad : loadFieldLine py line package with
      | error e =>
        rw [hLoad] at h
        cases h
      | ok field =>
        rw [hLoad] at h
        cases h
        obtain ⟨hLine, rfl⟩ := loadFieldLine_eq_ok_iff.mp hLoad
        refine ⟨⟨fun hOther => absurd hOther hConstant, fun _ => hLine⟩, ?_⟩
        refine ⟨by rw [if_pos hField]; rfl, ?_, by rw [if_neg hConstant]; rfl, ?_⟩
        · rw [declaredFieldName, if_pos hField]
          rfl
        · rw [declaredName, if_neg hConstant, declaredFieldName, if_pos hField]
          rfl

theorem exists_loadLine (h : LineFits py line) (package : Str) :
    ∃ ds : List (Declaration F), loadLine py package line = .ok ds := by
  rw [loadLine]
  by_cases hEmpty : stripComments line = []
  · exact ⟨[], if_pos hEmpty⟩
  · rw [if_neg hEmpty]
    by_cases hEquals : '=' ∈ stripComments line
    · have hLine := h.constant hEquals
      obtain ⟨value, hValue⟩ := Option.isSome_iff_exists.mp hLine.value
      have hLoad : loadConstantLine py line = .ok ⟨⟨typeToken line, constantName line,
          strip ((constantParts line).getD 1 [])⟩, value⟩ :=
        loadConstantLine_eq_ok_iff.mpr ⟨hLine, rfl, hValue⟩
      rw [if_pos hEquals, hLoad]
      exact ⟨_, rfl⟩
    · have hLoad : loadFieldLine py line package = .ok (resolveFieldType package (typeToken line), fieldName line) :=
        loadFieldLine_eq_ok_iff.mpr ⟨h.field ⟨hEmpty, hEquals⟩, rfl⟩
      rw [if_neg hEquals, hLoad]
      exact ⟨_, rfl⟩

/-! ## Texts -/

structure LinesDeclare (package : Str) (lines : List Str) (ds : List (Declaration F)) : Prop where
  types : ∀ type, type ∈ typesOf ds ↔
    ∃ line ∈ lines, IsFieldLine line ∧ resolveFieldType package (typeToken line) = type
  names : namesOf ds = lines.filterMap declaredFieldName
  constants : ∀ constant, constant ∈ (constantsOf ds).map (·.toConstant) ↔
    ∃ line ∈ lines, IsConstantLine line ∧
      constant = ⟨typeToken line, constantName line, strip ((constantParts line).getD 1 [])⟩
  declared : ds.map (·.declared) = lines.filterMap declaredName

theorem loadLines_declares {lines : List Str} {ds : List (Declaration F)}
    (h : loadLines py package lines = .ok ds) :
    (∀ line ∈ lines, LineFits py line) ∧ LinesDeclare package lines ds := by
  induction lines generalizing ds with
  | nil =>
    cases h
    refine ⟨fun line hLine => absurd hLine List.not_mem_nil, ⟨fun type => ?_, rfl, fun constant => ?_, rfl⟩⟩
    · exact iff_of_false List.not_mem_nil fun hSome => absurd hSome.choose_spec.1 List.not_mem_nil
    · exact iff_of_false List.not_mem_nil fun hSome => absurd hSome.choose_spec.1 List.not_mem_nil
  | cons line lines ih =>
    obtain ⟨fs, bs, hLine, hLines, rfl⟩ := loadLines_cons_eq_ok_iff.mp h
    obtain ⟨hFits, hFront⟩ := loadLine_declares hLine
    obtain ⟨hAll, hBack⟩ := ih hLines
    refine ⟨List.forall_mem_cons.mpr ⟨hFits, hAll⟩, ⟨fun type => ?_, ?_, fun constant => ?_, ?_⟩⟩
    · rw [typesOf, List.filterMap_append, List.mem_append, ← typesOf, ← typesOf, hFront.types, hBack.types,
        List.exists_mem_cons_iff]
      refine or_congr_left ?_
      split
      · rename_i hField
        rw [List.mem_singleton, and_iff_right hField, eq_comm]
      · rename_i hField
        exact iff_of_false List.not_mem_nil fun hOther => hField hOther.1
    · rw [namesOf, List.filterMap_append, ← namesOf, ← namesOf, hFront.names, hBack.names, List.filterMap_cons]
      cases declaredFieldName line with
      | none => rfl
      | some name => rfl
    · rw [constantsOf, List.filterMap_append, List.map_append, List.mem_append, ← constantsOf, ← constantsOf,
        hFront.constants, hBack.constants, List.exists_mem_cons_iff]
      refine or_congr_left ?_
      split
      · rename_i hConstant
        rw [List.mem_singleton, and_iff_right hConstant]
      · rename_i hConstant
        exact iff_of_false List.not_mem_nil fun hOther => hConstant hOther.1
    · rw [List.map_append, hFront.declared, hBack.declared, List.filterMap_cons]
      cases declaredName line with
      | none => rfl
      | some name => rfl

theorem exists_loadLines {lines : List Str} (h : ∀ line ∈ lines, LineFits py line) :
    ∃ ds : List (Declaration F), loadLines py package lines = .ok ds := by
  induction lines with
  | nil => exact ⟨[], rfl⟩
  | cons line lines ih =>
    obtain ⟨fs, hLine⟩ := exists_loadLine (h line List.mem_cons_self) package
    obtain ⟨bs, hLines⟩ := ih fun other hOther => h other (List.mem_cons_of_mem line hOther)
    exact ⟨fs ++ bs, loadLines_cons_eq_ok_iff.mpr ⟨fs, bs, hLine, hLines, rfl⟩⟩

theorem declared_perm (ds : List (Declaration F)) :
    (namesOf ds ++ (constantsOf ds).map (·.name)).Perm (ds.map (·.declared)) := by
  induction ds with
  | nil => exact .nil
  | cons d ds ih =>
    cases d with
    | field type name => exact ih.cons name
    | constant c => exact List.perm_middle.trans (ih.cons c.name)

theorem exists_load_iff {ctx : MsgContext} {text fullName shortName : Str}
    (hName : packageResourceName fullName = some (package, shortName)) :
    (∃ loaded registered, loadMsgFromString py ctx text fullName = .ok (loaded, registered)) ↔
      WellFormed py package (split '\n' text) := by
  constructor
  · rintro ⟨loaded, registered, hLoad⟩
    obtain ⟨package', _, ds, hName', hLines, hSpec, -⟩ := loadMsgFromString_eq_ok_iff.mp hLoad
    cases hName.symm.trans hName'
    obtain ⟨hFits, hDeclare⟩ := loadLines_declares hLines
    obtain ⟨hWell, -⟩ := specOf_eq_ok_iff.mp hSpec
    refine ⟨fun line hLine => (hFits line hLine).constant, fun line hLine => (hFits line hLine).field,
      hDeclare.names ▸ hWell.names, fun line hLine hField => ?_⟩
    exact hWell.types _ ((hDeclare.types _).mpr ⟨line, hLine, hField, rfl⟩)
  · intro hWell
    obtain ⟨ds, hLines⟩ : ∃ ds : List (Declaration F), loadLines py package (split '\n' text) = .ok ds :=
      exists_loadLines fun line hLine => ⟨hWell.constants line hLine, hWell.fields line hLine⟩
    obtain ⟨-, hDeclare⟩ := loadLines_declares hLines
    have hTypes : ∀ type ∈ typesOf ds, (parseType type).isSome = true := by
      intro type hType
      obtain ⟨line, hLine, hField, rfl⟩ := (hDeclare.types type).mp hType
      exact hWell.types line hLine hField
    obtain ⟨loaded, registered, hLoad, -⟩ := exists_load hName hLines ⟨hDeclare.names ▸ hWell.distinct, hTypes⟩ ctx
    exact ⟨loaded, registered, hLoad⟩

end

/-! ## Types -/

section

variable {unicodeWord : Char → Bool} {package fieldType : Str}

theorem trimmed_of_valid (h : isValidMsgType unicodeWord fieldType = true) : fieldType ≠ [] ∧ Trimmed fieldType := by
  rw [isValidMsgType, Bool.and_eq_true, Bool.and_eq_true] at h
  obtain ⟨hSome, hLength⟩ := of_decide_eq_true h.1.1
  have hWhole : strip fieldType = fieldType := by
    obtain ⟨lead, tail, -, -, hText⟩ := exists_blanks fieldType
    have hCount := congrArg List.length hText
    rw [List.length_append, List.length_append] at hCount
    have hLead : lead = [] := List.length_eq_zero_iff.mp (by omega)
    have hTail : tail = [] := List.length_eq_zero_iff.mp (by omega)
    rw [hLead, hTail, List.nil_append, List.append_nil] at hText
    exact hText.symm
  exact ⟨hSome, hWhole ▸ trimmed_strip fieldType⟩

theorem isWord_bracket (unicodeWord : Char → Bool) : isWord unicodeWord '[' = false := rfl

theorem isValidMsgType_prepend_iff (hValid : isValidMsgType unicodeWord fieldType = true) (hLocal : '/' ∉ fieldType)
    (hPackage : package ≠ []) (hSlash : '/' ∉ package) :
    isValidMsgType unicodeWord (package ++ '/' :: fieldType) = true ↔
      isLegalResourceBaseName unicodeWord package = true := by
  obtain ⟨hSome, hTrimmed⟩ := trimmed_of_valid hValid
  obtain ⟨first, rest, rfl⟩ := List.exists_cons_of_ne_nil hPackage
  rw [isValidMsgType, Bool.and_eq_true, Bool.and_eq_true, drop_bareMsgType] at hValid
  obtain ⟨⟨-, hLegal⟩, hIndices⟩ := hValid
  have hText : first :: rest ++ '/' :: fieldType = first :: rest ++ ['/'] ++ fieldType := by simp
  constructor
  · intro h
    rw [isValidMsgType, Bool.and_eq_true, Bool.and_eq_true, drop_bareMsgType] at h
    obtain ⟨⟨-, hWhole⟩, hSuffix⟩ := h
    have hPlain : '[' ∉ first :: rest := by
      intro hMem
      obtain ⟨near, far, hNear, hNot⟩ := List.eq_append_cons_of_mem hMem
      refine not_mem_arrayIndices hSuffix ?_
      rw [hNear, List.append_assoc, arraySuffix_prepend hNot, List.cons_append, arraySuffix,
        List.dropWhile_cons_of_neg (by decide)]
      exact List.mem_cons_of_mem _ (List.mem_append_right _ List.mem_cons_self)
    have hFront : '[' ∉ first :: rest ++ ['/'] := by
      rw [List.mem_append, not_or]
      exact ⟨hPlain, by decide⟩
    rw [hText, bareMsgType_prepend hFront, List.cons_append, List.cons_append, isLegalResourceName] at hWhole
    simp only [Bool.and_eq_true, List.all_eq_true, Bool.or_eq_true, beq_iff_eq] at hWhole
    obtain ⟨⟨hFirst, hRest⟩, -⟩ := hWhole
    rw [isLegalResourceBaseName, hFirst, Bool.true_and, List.all_eq_true]
    intro c hc
    refine (hRest c (List.mem_append_left _ (List.mem_append_left _ hc))).resolve_right ?_
    rintro rfl
    exact hSlash (List.mem_cons_of_mem _ hc)
  · intro h
    rw [isLegalResourceBaseName, Bool.and_eq_true, List.all_eq_true] at h
    obtain ⟨hFirst, hRest⟩ := h
    have hPlain : '[' ∉ first :: rest := by
      intro hMem
      obtain hEq | hMem := List.mem_cons.mp hMem
      · rw [← hEq] at hFirst
        exact absurd hFirst (by decide)
      · have hWord := hRest '[' hMem
        rw [isWord_bracket] at hWord
        cases hWord
    have hFront : '[' ∉ first :: rest ++ ['/'] := by
      rw [List.mem_append, not_or]
      exact ⟨hPlain, by decide⟩
    have hBare : '/' ∉ bareMsgType fieldType := fun hMem => hLocal ((List.takeWhile_prefix _).subset hMem)
    have hStrip : Trimmed (first :: rest ++ '/' :: fieldType) := by
      constructor
      · rintro c ⟨⟩
        exact isspace_of_isAlphanum (by rw [Char.isAlphanum, hFirst, Bool.true_or])
      · intro c hc
        rw [hText, List.getLast?_append_of_ne_nil _ hSome] at hc
        exact hTrimmed.2 c hc
    rw [isValidMsgType, Bool.and_eq_true, Bool.and_eq_true, drop_bareMsgType, hStrip.strip, hText,
      bareMsgType_prepend hFront, arraySuffix_prepend hFront]
    refine ⟨⟨decide_eq_true ⟨List.append_ne_nil_of_right_ne_nil _ hSome, rfl⟩, ?_⟩, hIndices⟩
    obtain ⟨head, tail, hBareText⟩ := List.exists_cons_of_ne_nil (l := bareMsgType fieldType) (by
      rintro hNil
      rw [hNil] at hLegal
      cases hLegal)
    rw [hBareText, isLegalResourceName] at hLegal
    simp only [Bool.and_eq_true, List.all_eq_true, Bool.or_eq_true, beq_iff_eq, decide_eq_true_eq] at hLegal
    rw [List.cons_append, List.cons_append, isLegalResourceName]
    simp only [Bool.and_eq_true, List.all_eq_true, Bool.or_eq_true, beq_iff_eq, decide_eq_true_eq]
    refine ⟨⟨hFirst, fun c hc => ?_⟩, fun hDouble => ?_⟩
    · rw [hBareText] at hc
      simp only [List.mem_append, List.mem_cons, List.not_mem_nil, or_false] at hc
      obtain (hc | rfl) | rfl | hc := hc
      · exact .inl (hRest c hc)
      · exact .inr rfl
      · left
        rw [isWord, Char.isAlphanum, hLegal.1.1, Bool.true_or, Bool.true_or, Bool.true_or]
      · exact hLegal.1.2 c hc
    · have hCount := hDouble.sublist.count_le '/'
      rw [← List.cons_append, ← List.cons_append, List.count_append, List.count_append,
        List.count_eq_zero_of_not_mem hSlash, List.count_eq_zero_of_not_mem hBare] at hCount
      exact absurd hCount (by decide)

theorem isValidMsgType_primitive {type : Str} (h : isValidConstantType type = true) :
    isValidMsgType unicodeWord type = true ∧ type.count '[' ≤ 1 := by
  have hMem := List.contains_iff_mem.mp h
  simp only [primitiveTypes, List.map_cons, List.map_nil, List.mem_cons, List.not_mem_nil, or_false] at hMem
  obtain rfl | rfl | rfl | rfl | rfl | rfl | rfl | rfl | rfl | rfl | rfl | rfl | rfl | rfl := hMem <;>
    exact ⟨rfl, by decide⟩

theorem isValidMsgType_resolve_iff (hValid : isValidMsgType unicodeWord fieldType = true) (hSlash : '/' ∉ package) :
    isValidMsgType unicodeWord (resolveFieldType package fieldType) = true ↔
      (LocalType fieldType → package = [] ∨ isLegalResourceBaseName unicodeWord package = true) := by
  have hHeader : isValidMsgType unicodeWord headerFullName = true := rfl
  by_cases hPackage : package = []
  · refine iff_of_true ?_ fun _ => .inl hPackage
    rw [resolveFieldType, if_neg fun h => h.1 hPackage]
    split
    · exact hHeader
    · exact hValid
  · rw [or_iff_right hPackage]
    obtain ⟨rfl, hKept⟩ | ⟨hLocal, hKept⟩ | ⟨hOwn, hKept⟩ := resolveFieldType_cases hPackage fieldType
    · rw [hKept]
      exact iff_of_true hHeader fun hLocal => absurd rfl hLocal.noHeader
    · rw [hKept, isValidMsgType_prepend_iff hValid hLocal.noPackage hPackage hSlash]
      exact ⟨fun h _ => h, fun h => h hLocal⟩
    · rw [hKept]
      refine iff_of_true hValid fun hLocal => ?_
      obtain hQualified | hBuiltin := hOwn
      · exact absurd hQualified hLocal.noPackage
      · rw [hLocal.noBuiltin] at hBuiltin
        cases hBuiltin

end

/-! ## Errors -/

section

variable {F : Type} {py : Python F}

/-- `InvalidMsgSpec`, and no `ValueError`. -/
def LoadError.isInvalidMsgSpec : LoadError → Bool
  | .invalidName _ => false
  | _ => true

theorem loadConstantLine_error {line : Str} {e : LoadError} (h : loadConstantLine py line = .error e) :
    e.isInvalidMsgSpec = true := by
  have hConstant {type name val : Str} (hOf : constantOf py type name val = .error e) : e.isInvalidMsgSpec = true := by
    rw [constantOf] at hOf
    split at hOf
    · cases hOf
      rfl
    · cases hOf
  rw [loadConstantLine] at h
  dsimp only at h
  split at h
  · cases h
    rfl
  · split at h
    · exact hConstant h
    · split at h
      · exact hConstant h
      · cases h
        rfl

theorem loadFieldLine_error {package line : Str} {e : LoadError} (h : loadFieldLine py line package = .error e) :
    e.isInvalidMsgSpec = true := by
  rw [loadFieldLine] at h
  split at h
  · split at h
    · cases h
      rfl
    · split at h
      · cases h
        rfl
      · cases h
  · cases h
    rfl

theorem loadLines_error {package : Str} {lines : List Str} {e : LoadError}
    (h : loadLines py package lines = .error e) : e.isInvalidMsgSpec = true := by
  induction lines with
  | nil => cases h
  | cons line lines ih =>
    rw [loadLines] at h
    split at h
    · rename_i hLine
      cases h
      rw [loadLine] at hLine
      split at hLine
      · cases hLine
      · split at hLine
        · cases hLoad : loadConstantLine py line with
          | error raised =>
            rw [hLoad] at hLine
            cases hLine
            exact loadConstantLine_error hLoad
          | ok c =>
            rw [hLoad] at hLine
            cases hLine
        · cases hLoad : loadFieldLine py line package with
          | error raised =>
            rw [hLoad] at hLine
            cases hLine
            exact loadFieldLine_error hLoad
          | ok field =>
            rw [hLoad] at hLine
            cases hLine
    · split at h
      · rename_i hLines
        cases h
        exact ih hLines
      · cases h

theorem loadMsgFromString_error {ctx : MsgContext} {text fullName : Str} {e : LoadError}
    (h : loadMsgFromString py ctx text fullName = .error e) :
    e.isInvalidMsgSpec = (packageResourceName fullName).isSome := by
  rw [loadMsgFromString] at h
  split at h
  · rename_i hName
    cases h
    rw [hName]
    rfl
  · rename_i package shortName hName
    rw [hName, Option.isSome_some]
    split at h
    · rename_i hLines
      cases h
      exact loadLines_error hLines
    · split at h
      · rename_i hSpec
        cases h
        rw [specOf] at hSpec
        split at hSpec
        · split at hSpec
          · cases hSpec
          · cases hSpec
            rfl
        · cases hSpec
          rfl
      · rename_i loaded hSpec
        obtain ⟨registered, hRegister⟩ := exists_register ctx loaded.spec (by rw [hName]; rfl)
        rw [hRegister] at h
        cases h

/-! ## Loaded texts -/

structure LegalDeclarations (py : Python F) (spec : MsgSpec) : Prop where
  names : ∀ name ∈ spec.names ++ spec.constants.map (·.name), isLegalResourceBaseName py.unicodeWord name = true
  distinct : (spec.names ++ spec.constants.map (·.name)).Nodup
  types : ∀ type ∈ spec.types ++ spec.constants.map (·.type),
    isValidMsgType py.unicodeWord type = true ∧ type.count '[' ≤ 1

/-- A text is refused with the documented error and the context is kept, or it is registered with legal declarations. -/
def LoadsWell (py : Python F) (ctx : MsgContext) (text fullName : Str) : Prop :=
  (∃ e, loadMsgFromString py ctx text fullName = .error e ∧ e.isInvalidMsgSpec = true ∧
    loadInto py ctx text fullName = ctx) ∨
  ∃ loaded registered, loadMsgFromString py ctx text fullName = .ok (loaded, registered) ∧
    ctx.register fullName loaded.spec = some registered ∧ LegalDeclarations py loaded.spec

theorem count_bracket_le_one {type : Str} (h : (parseType type).isSome = true) : type.count '[' ≤ 1 := by
  rw [parseType] at h
  split at h
  · cases h
  · split at h
    · dsimp only at h
      split at h
      · cases h
      · rename_i hShort
        rw [split_length] at hShort
        omega
    · rename_i hNone
      rw [List.count_eq_zero_of_not_mem hNone]
      omega

theorem legalDeclarations_iff {ctx registered : MsgContext} {text fullName package shortName : Str}
    {loaded : LoadedSpec F} (hName : packageResourceName fullName = some (package, shortName))
    (hLoad : loadMsgFromString py ctx text fullName = .ok (loaded, registered)) :
    LegalDeclarations py loaded.spec ↔ WellNamed py package (split '\n' text) := by
  obtain ⟨_, _, ds, hName', hLines, hSpec, -⟩ := loadMsgFromString_eq_ok_iff.mp hLoad
  cases hName.symm.trans hName'
  obtain ⟨hFits, hDeclare⟩ := loadLines_declares hLines
  obtain ⟨hWell, hDeclares, -⟩ := specOf_eq_ok_iff.mp hSpec
  obtain ⟨hSlash, -, -⟩ := packageResourceName_eq_some hName
  have hConstantNames : loaded.spec.constants.map (·.name) = (constantsOf ds).map (·.name) := by
    rw [hDeclares.constants, List.map_map]
    rfl
  have hPerm : (loaded.spec.names ++ loaded.spec.constants.map (·.name)).Perm
      ((split '\n' text).filterMap declaredName) := by
    rw [hDeclares.names, hConstantNames, ← hDeclare.declared]
    exact declared_perm ds
  have hTypeOf {line : Str} (hLine : line ∈ split '\n' text) (hField : IsFieldLine line) :
      isValidMsgType py.unicodeWord (resolveFieldType package (typeToken line)) = true ↔
        (LocalType (typeToken line) → package = [] ∨ isLegalResourceBaseName py.unicodeWord package = true) :=
    isValidMsgType_resolve_iff ((hFits line hLine).field hField).type hSlash
  constructor
  · intro hLegal
    refine ⟨fun line hLine hConstant => ?_, hPerm.nodup_iff.mp hLegal.distinct, fun line hLine hField => ?_⟩
    · refine hLegal.names _ (hPerm.mem_iff.mpr (List.mem_filterMap.mpr ⟨line, hLine, ?_⟩))
      rw [declaredName, if_pos hConstant]
    · refine (hTypeOf hLine hField).mp (hLegal.types _ (List.mem_append_left _ ?_)).1
      rw [hDeclares.types]
      exact (hDeclare.types _).mpr ⟨line, hLine, hField, rfl⟩
  · intro hNamed
    refine ⟨fun name hMem => ?_, hPerm.nodup_iff.mpr hNamed.distinct, fun type hMem => ?_⟩
    · obtain ⟨line, hLine, hDeclared⟩ := List.mem_filterMap.mp (hPerm.mem_iff.mp hMem)
      rw [declaredName, declaredFieldName] at hDeclared
      split at hDeclared
      · rename_i hConstant
        cases hDeclared
        exact hNamed.constants line hLine hConstant
      · split at hDeclared
        · rename_i hField
          cases hDeclared
          exact ((hFits line hLine).field hField).name
        · cases hDeclared
    · obtain hType | hType := List.mem_append.mp hMem
      · rw [hDeclares.types] at hType
        refine ⟨?_, count_bracket_le_one (hWell.types type hType)⟩
        obtain ⟨line, hLine, hField, rfl⟩ := (hDeclare.types type).mp hType
        exact (hTypeOf hLine hField).mpr (hNamed.package line hLine hField)
      · obtain ⟨constant, hConstant, rfl⟩ := List.mem_map.mp hType
        rw [hDeclares.constants] at hConstant
        obtain ⟨line, hLine, hIsConstant, rfl⟩ := (hDeclare.constants constant).mp hConstant
        exact isValidMsgType_primitive ((hFits line hLine).constant hIsConstant).type

/-- The names of constants are not looked at, nor is the package. -/
theorem loadsWell_iff (py : Python F) (ctx : MsgContext) (text fullName : Str) :
    LoadsWell py ctx text fullName ↔
      ∃ package shortName, packageResourceName fullName = some (package, shortName) ∧
        (WellFormed py package (split '\n' text) → WellNamed py package (split '\n' text)) := by
  cases hLoad : loadMsgFromString py ctx text fullName with
  | error e =>
    have hError := loadMsgFromString_error hLoad
    have hKept : loadInto py ctx text fullName = ctx := by rw [loadInto, hLoad]
    have hLeft : LoadsWell py ctx text fullName ↔ e.isInvalidMsgSpec = true := by
      constructor
      · rintro (⟨raised, hRaised, hDocumented, -⟩ | ⟨_, _, hOk, -⟩)
        · cases hLoad.symm.trans hRaised
          exact hDocumented
        · cases hLoad.symm.trans hOk
      · exact fun hDocumented => .inl ⟨e, hLoad, hDocumented, hKept⟩
    rw [hLeft, hError]
    constructor
    · intro hSome
      obtain ⟨⟨package, shortName⟩, hName⟩ := Option.isSome_iff_exists.mp hSome
      refine ⟨package, shortName, hName, fun hWell => ?_⟩
      obtain ⟨loaded, registered, hOk⟩ : ∃ loaded registered,
          loadMsgFromString py ctx text fullName = .ok (loaded, registered) := (exists_load_iff hName).mpr hWell
      cases hLoad.symm.trans hOk
    · rintro ⟨package, shortName, hName, -⟩
      exact Option.isSome_iff_exists.mpr ⟨_, hName⟩
  | ok out =>
    obtain ⟨loaded, registered⟩ := out
    obtain ⟨package, shortName, ds, hName, hLines, hSpec, hRegister⟩ := loadMsgFromString_eq_ok_iff.mp hLoad
    have hLegal := legalDeclarations_iff hName hLoad
    have hWell : WellFormed py package (split '\n' text) := (exists_load_iff hName).mp ⟨loaded, registered, hLoad⟩
    constructor
    · rintro (⟨e, hError, -⟩ | ⟨loaded', registered', hOk, -, hDeclarations⟩)
      · cases hLoad.symm.trans hError
      · cases hLoad.symm.trans hOk
        exact ⟨package, shortName, hName, fun _ => hLegal.mp hDeclarations⟩
    · rintro ⟨package', shortName', hName', hNamed⟩
      cases hName.symm.trans hName'
      exact .inr ⟨loaded, registered, hLoad, hRegister, hLegal.mpr (hNamed hWell)⟩

/-- A constant may be called like a number, like a field, or not at all. -/
theorem loads_names :
    ¬ LoadsWell asciiPython .empty (str "int8 7=5\nint8 x\nint8 x=1\nint8 =2") (str "p/M") := by
  have hLoad : ∃ loaded registered,
      loadMsgFromString asciiPython .empty (str "int8 7=5\nint8 x\nint8 x=1\nint8 =2") (str "p/M") =
        .ok (loaded, registered) ∧
      loaded.spec.names = [str "x"] ∧ loaded.spec.constants.map (·.name) = [str "7", str "x", []] :=
    ⟨_, _, rfl, rfl, rfl⟩
  obtain ⟨loaded, registered, hOk, hNames, hConstants⟩ := hLoad
  rintro (⟨e, hError, -⟩ | ⟨loaded', registered', hOk', -, hLegal⟩)
  · cases hOk.symm.trans hError
  · cases hOk.symm.trans hOk'
    have hDistinct := hLegal.distinct
    rw [hNames, hConstants] at hDistinct
    exact absurd hDistinct (by decide)

end

end XcRos.Msg
