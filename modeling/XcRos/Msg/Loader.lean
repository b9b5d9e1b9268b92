import XcRos.Msg.Spec

/-! # Loading a message

`load_msg_from_string` takes a text line by line. A line with an equals sign in front of its comment
is a constant, each other line that holds anything is a field. Fields and most constants are read
from the line without its comment; a string constant is cut out of the line as it stands.
-/

namespace XcRos.Msg

/-- What Python decides: `\w` beyond ASCII, `float`, and the truth of what `ast.literal_eval` reads. -/
structure Python (F : Type) where
  unicodeWord : Char → Bool
  float : Str → Option F
  literalTruth : Str → Option Bool

/-- Python on texts without letters beyond ASCII, floats and truth values. -/
def asciiPython : Python Unit := ⟨fun _ => false, fun _ => none, fun _ => none⟩

inductive ConstantValue (F : Type) where
  | float (x : F)
  | text (s : Str)
  | int (n : Int)
  | bool (b : Bool)
deriving DecidableEq, Repr

/-- `InvalidMsgSpec` with what it is raised about, and the `ValueError` for a name. -/
inductive LoadError where
  | illegalConstantType (type : Str)
  | invalidConstant (line : Str)
  | invalidValue (val : Str)
  | invalidDeclaration (line : Str)
  | illegalFieldName (name : Str)
  | illegalFieldType (type : Str)
  | duplicateNames (names : List Str)
  | invalidField (types : List Str)
  | invalidName (name : Str)
deriving DecidableEq, Repr

instance decidableEqExcept {ε α : Type} [DecidableEq ε] [DecidableEq α] : DecidableEq (Except ε α)
  | .error a, .error b => decidable_of_iff (a = b) (by simp)
  | .ok a, .ok b => decidable_of_iff (a = b) (by simp)
  | .error _, .ok _ => isFalse (by simp)
  | .ok _, .error _ => isFalse (by simp)

/-! ## Names and types -/

def isLegalResourceBaseName (unicodeWord : Char → Bool) : Str → Bool
  | [] => false
  | c :: rest => c.isAlpha && rest.all (isWord unicodeWord)

def isLegalResourceName (unicodeWord : Char → Bool) : Str → Bool
  | [] => false
  | c :: rest =>
    c.isAlpha && rest.all (fun d => isWord unicodeWord d || d == '/') && decide (¬ ['/', '/'] <:+: c :: rest)

/-- The brackets behind a type, the array indices; `opened` is the state of the source's scan. -/
def areArrayIndices (opened : Bool) : Str → Bool
  | [] => !opened
  | c :: rest =>
    if opened then
      if c = ']' then areArrayIndices false rest
      else (int [c]).isSome && areArrayIndices true rest
    else c = '[' && areArrayIndices true rest

def isValidMsgType (unicodeWord : Char → Bool) (x : Str) : Bool :=
  decide (x ≠ [] ∧ x.length = (strip x).length) && isLegalResourceName unicodeWord (bareMsgType x) &&
    areArrayIndices false (x.drop (bareMsgType x).length)

def isValidMsgFieldName (unicodeWord : Char → Bool) (x : Str) : Bool := isLegalResourceBaseName unicodeWord x

def isValidConstantType (x : Str) : Bool := primitiveTypes.contains x

def header : Str := str "Header"

def headerFullName : Str := str "std_msgs/Header"

/-! ## Constants -/

/-- `int(math.pow(2, e) - 1)`: from 54 bits on the double in between drops the one. -/
def powMinusOne (e : Nat) : Int := if e ≤ 53 then 2 ^ e - 1 else 2 ^ e

def constantBits : List (Str × Nat) :=
  [(str "int8", 8), (str "uint8", 8), (str "int16", 16), (str "uint16", 16), (str "int32", 32),
    (str "uint32", 32), (str "int64", 64), (str "uint64", 64), (str "byte", 8), (str "char", 8)]

section

variable {F : Type} (py : Python F)

/-- `convert_constant_value`; what it raises is caught by the caller. -/
def convertConstantValue (fieldType val : Str) : Option (ConstantValue F) :=
  if fieldType = str "float32" ∨ fieldType = str "float64" then (py.float val).map .float
  else if fieldType = str "string" then some (.text (strip val))
  else
    match constantBits.lookup fieldType with
    | some b =>
      let unsigned := fieldType.head? = some 'u' ∨ fieldType = str "char"
      let upper := if unsigned then powMinusOne b else powMinusOne (b - 1)
      let lower := if unsigned then 0 else -upper - 1
      (int val).bind fun n => if n > upper ∨ n < lower then none else some (.int n)
    | none => if fieldType = str "bool" then (py.literalTruth val).map .bool else none

/-! ## Lines -/

/-- `_strip_comments` -/
def stripComments (line : Str) : Str := strip ((split '#' line).headD [])

/-- `[s for s in [x.strip() for x in line.split(" ")] if s]` -/
def tokens (line : Str) : List Str := ((split ' ' line).map strip).filter (· ≠ [])

structure LoadedConstant (F : Type) extends Constant where
  val : ConstantValue F
deriving DecidableEq, Repr

/-- `Constant` with its name stripped, or the error when the value has no conversion. -/
def constantOf (fieldType name val : Str) : Except LoadError (LoadedConstant F) :=
  match convertConstantValue py fieldType val with
  | none => .error (.invalidValue val)
  | some converted => .ok ⟨⟨fieldType, strip name, strip val⟩, converted⟩

def loadConstantLine (origLine : Str) : Except LoadError (LoadedConstant F) :=
  let lineSplits := tokens (stripComments origLine)
  let fieldType := lineSplits.headD []
  if !isValidConstantType fieldType then .error (.illegalConstantType fieldType)
  else if fieldType = str "string" then
    let idx := find '=' origLine
    constantOf py fieldType (slice origLine (find ' ' origLine + 1) idx)
      (slice origLine (idx + 1) origLine.length)
  else
    match (split '=' ([' '].intercalate lineSplits.tail)).map strip with
    | [name, val] => constantOf py fieldType name val
    | _ => .error (.invalidConstant origLine)

/-- The type of a field within a package; nothing stands for no package. -/
def resolveFieldType (packageContext fieldType : Str) : Str :=
  if packageContext ≠ [] ∧ '/' ∉ fieldType then
    if fieldType = header then headerFullName
    else if !isBuiltin (bareMsgType fieldType) then packageContext ++ '/' :: fieldType
    else fieldType
  else if fieldType = header then headerFullName
  else fieldType

def loadFieldLine (origLine packageContext : Str) : Except LoadError (Str × Str) :=
  match tokens (stripComments origLine) with
  | [fieldType, name] =>
    if !isValidMsgFieldName py.unicodeWord name then .error (.illegalFieldName name)
    else if !isValidMsgType py.unicodeWord fieldType then .error (.illegalFieldType fieldType)
    else .ok (resolveFieldType packageContext fieldType, name)
  | _ => .error (.invalidDeclaration origLine)

inductive Declaration (F : Type) where
  | field (type name : Str)
  | constant (c : LoadedConstant F)
deriving DecidableEq, Repr

def loadLine (packageName origLine : Str) : Except LoadError (List (Declaration F)) :=
  let cleanLine := stripComments origLine
  if cleanLine = [] then .ok []
  else if '=' ∈ cleanLine then (loadConstantLine py origLine).map fun c => [.constant c]
  else (loadFieldLine py origLine packageName).map fun field => [.field field.1 field.2]

def loadLines (packageName : Str) : List Str → Except LoadError (List (Declaration F))
  | [] => .ok []
  | line :: rest =>
    match loadLine py packageName line with
    | .error e => .error e
    | .ok front =>
      match loadLines packageName rest with
      | .error e => .error e
      | .ok back => .ok (front ++ back)

end

/-! ## The specification -/

section

variable {F : Type}

def Declaration.type? : Declaration F → Option Str
  | .field type _ => some type
  | .constant _ => none

def Declaration.name? : Declaration F → Option Str
  | .field _ name => some name
  | .constant _ => none

def Declaration.constant? : Declaration F → Option (LoadedConstant F)
  | .field _ _ => none
  | .constant c => some c

def typesOf (ds : List (Declaration F)) : List Str := ds.filterMap (·.type?)

def namesOf (ds : List (Declaration F)) : List Str := ds.filterMap (·.name?)

def constantsOf (ds : List (Declaration F)) : List (LoadedConstant F) := ds.filterMap (·.constant?)

theorem length_typesOf (ds : List (Declaration F)) : (typesOf ds).length = (namesOf ds).length := by
  induction ds with
  | nil => rfl
  | cons d ds ih =>
    cases d with
    | field type name => exact congrArg Nat.succ ih
    | constant c => exact ih

/-- A `MsgSpec` with the values of its constants. -/
structure LoadedSpec (F : Type) where
  spec : MsgSpec
  values : List (ConstantValue F)

/-- `MsgSpec(types, names, constants, text, full_name, package)` -/
def specOf (ds : List (Declaration F)) (text fullName package shortName : Str) :
    Except LoadError (LoadedSpec F) :=
  if hNames : (namesOf ds).Nodup then
    if hParsed : ∀ type ∈ typesOf ds, (parseType type).isSome then
      .ok ⟨⟨typesOf ds, namesOf ds, (constantsOf ds).map (·.toConstant), text, fullName, shortName, package,
        length_typesOf ds, hNames, hParsed⟩, (constantsOf ds).map (·.val)⟩
    else .error (.invalidField (typesOf ds))
  else .error (.duplicateNames (namesOf ds))

/-- `load_msg_from_string`, with the context in which the specification is registered. -/
def loadMsgFromString (py : Python F) (ctx : MsgContext) (text fullName : Str) :
    Except LoadError (LoadedSpec F × MsgContext) :=
  match packageResourceName fullName with
  | none => .error (.invalidName fullName)
  | some (packageName, shortName) =>
    match loadLines py packageName (split '\n' text) with
    | .error e => .error e
    | .ok ds =>
      match specOf ds text fullName packageName shortName with
      | .error e => .error e
      | .ok loaded =>
        match ctx.register fullName loaded.spec with
        | none => .error (.invalidName fullName)
        | some registered => .ok (loaded, registered)

/-! ## What is loaded -/

variable {py : Python F} {ctx : MsgContext} {text fullName : Str}

structure Declares (ds : List (Declaration F)) (loaded : LoadedSpec F) : Prop where
  types : loaded.spec.types = typesOf ds
  names : loaded.spec.names = namesOf ds
  constants : loaded.spec.constants = (constantsOf ds).map (·.toConstant)
  values : loaded.values = (constantsOf ds).map (·.val)

/-- What `MsgSpec` checks. -/
structure WellDeclared (ds : List (Declaration F)) : Prop where
  names : (namesOf ds).Nodup
  types : ∀ type ∈ typesOf ds, (parseType type).isSome

theorem loadLines_append_eq_ok_iff {package : Str} {front back : List Str} {ds : List (Declaration F)} :
    loadLines py package (front ++ back) = .ok ds ↔
      ∃ fs bs, loadLines py package front = .ok fs ∧ loadLines py package back = .ok bs ∧ ds = fs ++ bs := by
  induction front generalizing ds with
  | nil =>
    constructor
    · exact fun h => ⟨[], ds, rfl, h, rfl⟩
    · rintro ⟨fs, bs, hFront, hBack, rfl⟩
      cases hFront
      exact hBack
  | cons line front ih =>
    rw [List.cons_append, loadLines, loadLines]
    cases hLine : loadLine py package line with
    | error e =>
      constructor
      · intro h
        cases h
      · rintro ⟨fs, bs, hFront, -⟩
        cases hFront
    | ok first =>
      dsimp only
      constructor
      · intro h
        split at h
        · cases h
        · rename_i rest hRest
          cases h
          obtain ⟨fs, bs, hFront, hBack, rfl⟩ := ih.mp hRest
          rw [hFront]
          exact ⟨first ++ fs, bs, rfl, hBack, (List.append_assoc _ _ _).symm⟩
      · rintro ⟨fs, bs, hFront, hBack, rfl⟩
        split at hFront
        · cases hFront
        · rename_i fs hRest
          cases hFront
          rw [ih.mpr ⟨fs, bs, hRest, hBack, rfl⟩]
          exact congrArg _ (List.append_assoc _ _ _).symm

theorem loadLines_cons_eq_ok_iff {package line : Str} {lines : List Str} {ds : List (Declaration F)} :
    loadLines py package (line :: lines) = .ok ds ↔
      ∃ fs bs, loadLine py package line = .ok fs ∧ loadLines py package lines = .ok bs ∧ ds = fs ++ bs := by
  rw [loadLines]
  constructor
  · intro h
    split at h
    · cases h
    · rename_i fs hLine
      split at h
      · cases h
      · rename_i bs hLines
        cases h
        exact ⟨fs, bs, hLine, hLines, rfl⟩
  · rintro ⟨fs, bs, hLine, hLines, rfl⟩
    rw [hLine, hLines]

theorem loadLines_accepts {package : Str} {lines : List Str} {ds : List (Declaration F)}
    (h : loadLines py package lines = .ok ds) {line : Str} (hLine : line ∈ lines) :
    ∃ fs, loadLine py package line = .ok fs := by
  induction lines generalizing ds with
  | nil => cases hLine
  | cons first lines ih =>
    obtain ⟨fs, bs, hFirst, hLines, -⟩ := loadLines_cons_eq_ok_iff.mp h
    obtain rfl | hLine := List.mem_cons.mp hLine
    · exact ⟨fs, hFirst⟩
    · exact ih hLines hLine

theorem loadFieldLine_type {package line : Str} {field : Str × Str} (h : loadFieldLine py line package = .ok field) :
    ∃ fieldType, isLegalResourceName py.unicodeWord (bareMsgType fieldType) = true ∧
      field.1 = resolveFieldType package fieldType := by
  rw [loadFieldLine] at h
  split at h
  · rename_i fieldType name _
    split at h
    · cases h
    · split at h
      · cases h
      · rename_i hValid
        cases h
        simp only [isValidMsgType, Bool.not_eq_true', Bool.not_eq_false, Bool.and_eq_true] at hValid
        exact ⟨fieldType, hValid.1.2, rfl⟩
  · cases h

theorem bareMsgType_resolveFieldType {package : Str} (hPlain : '[' ∉ package) (fieldType : Str) :
    bareMsgType (resolveFieldType package fieldType) = headerFullName ∨
      package ≠ [] ∧ bareMsgType (resolveFieldType package fieldType) = package ++ '/' :: bareMsgType fieldType ∨
      bareMsgType (resolveFieldType package fieldType) = bareMsgType fieldType := by
  rw [resolveFieldType]
  split
  · rename_i hContext
    split
    · exact .inl (by decide)
    · split
      · have hKept : ∀ c ∈ package ++ ['/'], decide (c ≠ '[') = true := by
          intro c hc
          refine decide_eq_true ?_
          rintro rfl
          obtain hMem | hMem := List.mem_append.mp hc
          · exact hPlain hMem
          · exact absurd hMem (by decide)
        refine .inr (.inl ⟨hContext.1, ?_⟩)
        rw [bareMsgType, show package ++ '/' :: fieldType = package ++ ['/'] ++ fieldType by simp,
          List.takeWhile_append_of_pos hKept, List.append_assoc]
        rfl
      · exact .inr (.inr rfl)
  · split
    · exact .inl (by decide)
    · exact .inr (.inr rfl)

theorem loadLines_types {P : Str → Prop} {package : Str}
    (hField : ∀ line field, loadFieldLine py line package = .ok field → P field.1) {lines : List Str}
    {ds : List (Declaration F)} (h : loadLines py package lines = .ok ds) : ∀ type ∈ typesOf ds, P type := by
  induction lines generalizing ds with
  | nil =>
    cases h
    exact fun type hType => absurd hType List.not_mem_nil
  | cons line lines ih =>
    obtain ⟨fs, bs, hLine, hLines, rfl⟩ := loadLines_cons_eq_ok_iff.mp h
    intro type hType
    rw [typesOf, List.filterMap_append] at hType
    obtain hType | hType := List.mem_append.mp hType
    · rw [loadLine] at hLine
      split at hLine
      · cases hLine
        cases hType
      · split at hLine
        · cases hConstant : loadConstantLine py line with
          | error e =>
            rw [hConstant] at hLine
            cases hLine
          | ok c =>
            rw [hConstant] at hLine
            cases hLine
            cases hType
        · cases hLoaded : loadFieldLine py line package with
          | error e =>
            rw [hLoaded] at hLine
            cases hLine
          | ok field =>
            rw [hLoaded] at hLine
            cases hLine
            cases List.mem_singleton.mp hType
            exact hField line field hLoaded
    · exact ih hLines type hType

theorem specOf_eq_ok_iff {ds : List (Declaration F)} {package shortName : Str} {loaded : LoadedSpec F} :
    specOf ds text fullName package shortName = .ok loaded ↔
      WellDeclared ds ∧ Declares ds loaded ∧ loaded.spec.text = text ∧ loaded.spec.fullName = fullName ∧
        loaded.spec.package = package ∧ loaded.spec.shortName = shortName := by
  rw [specOf]
  constructor
  · intro h
    split at h
    · rename_i hNames
      split at h
      · rename_i hTypes
        cases h
        exact ⟨⟨hNames, hTypes⟩, ⟨rfl, rfl, rfl, rfl⟩, rfl, rfl, rfl, rfl⟩
      · cases h
    · cases h
  · rintro ⟨hWell, hDeclares, hText, hFull, hPackage, hShort⟩
    obtain ⟨⟨types, names, constants, text', fullName', shortName', package', _, _, _⟩, values⟩ := loaded
    obtain ⟨hTypes, hNames, hConstants, hValues⟩ := hDeclares
    dsimp only at hTypes hNames hConstants hValues hText hFull hPackage hShort
    subst hTypes hNames hConstants hValues hText hFull hPackage hShort
    rw [dif_pos hWell.names, dif_pos hWell.types]

theorem isSome_packageResourceName_iff (name : Str) :
    (packageResourceName name).isSome ↔ name.count '/' ≤ 1 := by
  rw [packageResourceName]
  split
  · rename_i hSlash
    have hLength := split_length '/' name
    have hCount := List.count_pos_iff.mpr hSlash
    split
    · rename_i hSplit
      rw [hSplit] at hLength
      simp only [List.length_cons, List.length_nil] at hLength
      exact iff_of_true rfl (by omega)
    · rename_i hSplit
      refine iff_of_false (by decide) fun hOne => ?_
      obtain ⟨package, base, hTwo⟩ := List.length_eq_two.mp (show (split '/' name).length = 2 by omega)
      exact hSplit package base hTwo
  · rename_i hSlash
    exact iff_of_true rfl (by rw [List.count_eq_zero_of_not_mem hSlash]; omega)

theorem exists_register (ctx : MsgContext) (spec : MsgSpec) (h : (packageResourceName fullName).isSome) :
    ∃ registered, ctx.register fullName spec = some registered := by
  have hBare : (packageResourceName (bareMsgType fullName)).isSome := by
    rw [isSome_packageResourceName_iff] at h ⊢
    exact (List.Sublist.count_le '/' (List.takeWhile_sublist _)).trans h
  obtain ⟨key, hKey⟩ := Option.isSome_iff_exists.mp hBare
  exact ⟨_, by rw [MsgContext.register, hKey]; rfl⟩

theorem loadMsgFromString_eq_ok_iff {loaded : LoadedSpec F} {registered : MsgContext} :
    loadMsgFromString py ctx text fullName = .ok (loaded, registered) ↔
      ∃ package shortName ds, packageResourceName fullName = some (package, shortName) ∧
        loadLines py package (split '\n' text) = .ok ds ∧
        specOf ds text fullName package shortName = .ok loaded ∧
        ctx.register fullName loaded.spec = some registered := by
  rw [loadMsgFromString]
  constructor
  · intro h
    split at h
    · cases h
    · rename_i package shortName hName
      split at h
      · cases h
      · rename_i ds hLines
        split at h
        · cases h
        · rename_i made hSpec
          split at h
          · cases h
          · rename_i hRegister
            cases h
            exact ⟨package, shortName, ds, hName, hLines, hSpec, hRegister⟩
  · rintro ⟨package, shortName, ds, hName, hLines, hSpec, hRegister⟩
    rw [hName]
    dsimp only
    rw [hLines]
    dsimp only
    rw [hSpec]
    dsimp only
    rw [hRegister]

theorem exists_load {package shortName : Str} {ds : List (Declaration F)}
    (hName : packageResourceName fullName = some (package, shortName))
    (hLines : loadLines py package (split '\n' text) = .ok ds) (hDeclared : WellDeclared ds) (ctx : MsgContext) :
    ∃ loaded registered, loadMsgFromString py ctx text fullName = .ok (loaded, registered) ∧ Declares ds loaded := by
  obtain ⟨loaded, hSpec⟩ : ∃ loaded, specOf ds text fullName package shortName = .ok loaded :=
    ⟨_, by rw [specOf, dif_pos hDeclared.names, dif_pos hDeclared.types]⟩
  obtain ⟨registered, hRegister⟩ :=
    exists_register ctx loaded.spec (by rw [hName]; rfl : (packageResourceName fullName).isSome)
  exact ⟨loaded, registered,
    loadMsgFromString_eq_ok_iff.mpr ⟨package, shortName, ds, hName, hLines, hSpec, hRegister⟩,
    (specOf_eq_ok_iff.mp hSpec).2.1⟩

end

end XcRos.Msg
