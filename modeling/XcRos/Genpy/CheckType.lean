import XcRos.Genpy.Underfill

/-! # Checking types

`check_type` looks for the value that a serializer could not write. It goes by the text of the type, and
computes the limits of the integers from their widths.
-/

namespace XcRos.Genpy

open XcRos.Foundation XcRos.Msg

/-- `SerializationError` with its text, and the `ValueError` of `index`. -/
inductive CheckError where
  | serialization (text : Str)
  | noBracket
deriving DecidableEq, Repr

def aboutField (fieldName : Str) (text : String) : Except CheckError Unit :=
  .error (.serialization (str "field " ++ fieldName ++ str text))

/-- `_widths` -/
def widths : List (Str × Nat) :=
  [(str "byte", 8), (str "char", 8), (str "int8", 8), (str "uint8", 8), (str "int16", 16), (str "uint16", 16),
    (str "int32", 32), (str "uint32", 32), (str "int64", 64), (str "uint64", 64)]

def widthOf (fieldType : Str) : Nat := (widths.lookup fieldType).getD 0

def signedTypes : List Str := ["byte", "int8", "int16", "int32", "int64"].map str

def unsignedTypes : List Str := ["char", "uint8", "uint16", "uint32", "uint64"].map str

/-- `v in [True, False, 0, 1]`, where floats are equal to the integers that they are. -/
def isTruth : PyVal → Bool
  | .bool _ => true
  | .int n => n = 0 || n = 1
  | .single bits => bits &&& 0x7fffffff = 0 || bits = 0x3f800000
  | .double bits => bits &&& 0x7fffffffffffffff = 0 || bits = 0x3ff0000000000000
  | _ => false

def exceedsWidth (fieldName fieldType : Str) : Except CheckError Unit :=
  .error (.serialization (str "field " ++ fieldName ++ str " exceeds specified width [" ++ fieldType ++ str "]"))

def checkSimple (fieldName fieldType : Str) (fieldVal : PyVal) : Except CheckError Unit :=
  if signedTypes.contains fieldType then
    match fieldVal with
    | .int n =>
      let maxval : Int := 2 ^ (widthOf fieldType - 1)
      if n ≥ maxval ∨ n ≤ -maxval then exceedsWidth fieldName fieldType else .ok ()
    | _ => aboutField fieldName " must be an integer type"
  else if unsignedTypes.contains fieldType then
    match fieldVal with
    | .int n =>
      let maxval : Int := 2 ^ widthOf fieldType
      if n < 0 then aboutField fieldName " must be unsigned integer type"
      else if n ≥ maxval then exceedsWidth fieldName fieldType else .ok ()
    | _ => aboutField fieldName " must be unsigned integer type"
  else if fieldType = str "bool" then
    if isTruth fieldVal then .ok () else aboutField fieldName " is not a bool"
  else .ok ()

def isAscii (s : List CodePoint) : Bool := s.all (·.val < 128)

def checkString (fieldName : Str) : PyVal → Except CheckError Unit
  | .str s => if isAscii s then .ok () else aboutField fieldName " is a non-ascii string"
  | .bytes _ => .ok ()
  | _ => aboutField fieldName " must be of type bytes or an ascii string"

/-- `isinstance` of a class without subclasses. -/
def isInstance (cls : Str) : PyVal → Bool
  | .obj c _ => c = cls
  | _ => false

def oldHeaders : List Str := [str "std_msgs/Header", str "roslib/Header"]

def checkClass (fieldName fieldType cls : Str) : Except CheckError Unit :=
  if cls = str "time" ∨ cls = str "duration" then
    .error (.serialization (str "field " ++ fieldName ++ str " must be of type [" ++ fieldType ++ str "]"))
  else if oldHeaders.contains cls then
    if !(str "Header" :: oldHeaders).contains fieldType then
      .error (.serialization (str "field " ++ fieldName ++ str " must be a Header instead of a " ++ cls))
    else .ok ()
  else if cls ≠ fieldType then
    .error (.serialization
      (str "field " ++ fieldName ++ str " must be of type " ++ fieldType ++ str " instead of " ++ cls))
  else .ok ()

section

-- What `_get_types` of a class returns.
variable (getTypes : Str → List Str)

mutual

/-- `check_type` -/
def checkType (fieldName fieldType : Str) (fieldVal : PyVal) : Except CheckError Unit :=
  if isSimple fieldType then checkSimple fieldName fieldType fieldVal
  else if fieldType = str "string" then checkString fieldName fieldVal
  else if fieldType = str "time" then
    if isInstance (str "time") fieldVal then .ok () else aboutField fieldName " must be of type Time"
  else if fieldType = str "duration" then
    if isInstance (str "duration") fieldVal then .ok () else aboutField fieldName " must be of type Duration"
  else if fieldType.getLast? = some ']' then
    if '[' ∉ fieldType then .error .noBracket
    else
      match fieldVal with
      | .str _ =>
        if isBytes (bareMsgType fieldType) then .ok ()
        else aboutField fieldName " must be a list or tuple type. Only uint8[] can be a string"
      | .list vs => checkEach (fieldName ++ str "[]") (bareMsgType fieldType) vs
      | .tuple vs => checkEach (fieldName ++ str "[]") (bareMsgType fieldType) vs
      | _ => aboutField fieldName " must be a list or tuple type"
  else
    match fieldVal with
    | .obj cls attrs =>
      match checkClass fieldName fieldType cls with
      | .error e => .error e
      | .ok _ => checkAttrs fieldName (getTypes cls) attrs
    | _ => .error (.serialization (str "field " ++ fieldName ++ str " must be of type [" ++ fieldType ++ str "]"))

def checkEach (fieldName fieldType : Str) : List PyVal → Except CheckError Unit
  | [] => .ok ()
  | v :: vs =>
    match checkType fieldName fieldType v with
    | .error e => .error e
    | .ok _ => checkEach fieldName fieldType vs

def checkAttrs (fieldName : Str) (types : List Str) : List (Str × PyVal) → Except CheckError Unit
  | [] => .ok ()
  | (name, v) :: attrs =>
    match types with
    | [] => .ok ()
    | type :: types =>
      match checkType (fieldName ++ '.' :: name) type v with
      | .error e => .error e
      | .ok _ => checkAttrs fieldName types attrs

end

end

/-! ## Values of matching kind -/

def stampMembers (s : Simple) : Members :=
  .cons (str "secs") (.simple s) (.cons (str "nsecs") (.simple s) .nil)

def stampVal (cls : Str) (secs nsecs : Int) : PyVal := .obj cls [(str "secs", .int secs), (str "nsecs", .int nsecs)]

/-- An `int` for an integer type, a `bool` for `bool`, a `str` for `string`, a `Time` or a `Duration`, and lists of these
that have the declared length. -/
inductive Kind : Ty → PyVal → Prop
  | int {s : Simple} {signed : Bool} {width : Nat} (hCode : s.code = .int signed width) (hBool : s ≠ .bool) (n : Int) :
      Kind (.simple s) (.int n)
  | bool (b : Bool) : Kind (.simple .bool) (.bool b)
  | string (s : List CodePoint) : Kind .string (.str s)
  | time (secs nsecs : Int) : Kind (.message (str "time") (stampMembers .uint32)) (stampVal (str "time") secs nsecs)
  | duration (secs nsecs : Int) :
      Kind (.message (str "duration") (stampMembers .int32)) (stampVal (str "duration") secs nsecs)
  | list {length : Option Nat} {t : Ty} {vs : List PyVal} (hLength : HasLength length vs) (hEach : ∀ w ∈ vs, Kind t w) :
      Kind (.array length t) (.list vs)

/-- The parts that are not looked at, which are lengths and the numbers of a time or duration, have 32 bits. -/
def Ty.Bounded : Ty → PyVal → Prop
  | .string, .str s => ∀ bs, encodeUtf8 s = some bs → bs.length < 4294967296
  | .array length t, .list vs => ShortLength length vs.length ∧ ∀ w ∈ vs, t.Bounded w
  | .message cls _, .obj _ attrs => ∀ a ∈ attrs, ∀ n, a.2 = .int n → Code.Fits (cls = str "duration") 4 n
  | _, _ => True

/-- No integer is the least one of a signed type, and no pattern with a count is one that gets reduced. -/
def Ty.Spared : Ty → PyVal → Prop
  | .simple s, .int n => ∀ width, s.code = .int true width → 2 * n ≠ -256 ^ width
  | .array length t, .list vs => (t.isSimple = true → PlainLength length) ∧ ∀ w ∈ vs, t.Spared w
  | _, _ => True

def Ty.Ascii : Ty → PyVal → Prop
  | .string, .str s => isAscii s = true
  | .array _ t, .list vs => ∀ w ∈ vs, t.Ascii w
  | _, _ => True

theorem Kind.shaped {t : Ty} {v : PyVal} (h : Kind t v) : t.Shaped v := by
  induction h with
  | int | bool => trivial
  | string s => exact ⟨s, rfl⟩
  | time secs nsecs => exact ⟨_, rfl, _, _, rfl, trivial, _, _, rfl, trivial, rfl⟩
  | duration secs nsecs => exact ⟨_, rfl, _, _, rfl, trivial, _, _, rfl, trivial, rfl⟩
  | @list length t vs _ _ ih => exact .inr ⟨vs, rfl, ih⟩

/-! ## Integers -/

theorem aboutField_ne_ok (fieldName : Str) (text : String) : aboutField fieldName text ≠ .ok () := by rintro ⟨⟩

theorem exceedsWidth_ne_ok (fieldName fieldType : Str) : exceedsWidth fieldName fieldType ≠ .ok () := by rintro ⟨⟩

theorem ite_ok_iff {P : Prop} [Decidable P] {refused : Except CheckError Unit} (h : refused ≠ .ok ()) :
    (if P then refused else .ok ()) = .ok () ↔ ¬ P := by
  split
  · rename_i hP
    exact iff_of_false h (not_not.mpr hP)
  · rename_i hP
    exact iff_of_true rfl hP

theorem checkSimple_signed {fieldType : Str} (hType : fieldType ∈ signedTypes) (fieldName : Str) (n : Int) :
    checkSimple fieldName fieldType (.int n) = .ok () ↔
      -2 ^ (widthOf fieldType - 1) < n ∧ n < 2 ^ (widthOf fieldType - 1) := by
  rw [checkSimple, if_pos (List.contains_iff_mem.mpr hType)]
  dsimp only
  rw [ite_ok_iff (exceedsWidth_ne_ok fieldName fieldType)]
  omega

theorem checkSimple_unsigned {fieldType : Str} (hSigned : fieldType ∉ signedTypes) (hType : fieldType ∈ unsignedTypes)
    (fieldName : Str) (n : Int) :
    checkSimple fieldName fieldType (.int n) = .ok () ↔ 0 ≤ n ∧ n < 2 ^ widthOf fieldType := by
  have hNot : ¬ signedTypes.contains fieldType = true := fun h => hSigned (List.contains_iff_mem.mp h)
  rw [checkSimple, if_neg hNot, if_pos (List.contains_iff_mem.mpr hType)]
  dsimp only
  split
  · rename_i hNeg
    exact iff_of_false (aboutField_ne_ok fieldName _) fun h => absurd h.1 (by omega)
  · rw [ite_ok_iff (exceedsWidth_ne_ok fieldName fieldType)]
    omega

theorem signed_name {s : Simple} {width : Nat} (h : s.code = .int true width) :
    s.name ∈ signedTypes ∧ widthOf s.name = 8 * width ∧ 0 < width := by
  cases s <;> cases h <;> decide

theorem unsigned_name {s : Simple} {width : Nat} (h : s.code = .int false width) (hBool : s ≠ .bool) :
    s.name ∉ signedTypes ∧ s.name ∈ unsignedTypes ∧ widthOf s.name = 8 * width := by
  cases s <;> cases h <;> first | exact absurd rfl hBool | decide

theorem checkSimple_int {s : Simple} {signed : Bool} {width : Nat} (hCode : s.code = .int signed width)
    (hBool : s ≠ .bool) {n : Int} (hLeast : ∀ width, s.code = .int true width → 2 * n ≠ -256 ^ width)
    (fieldName : Str) :
    checkSimple fieldName s.name (.int n) = .ok () ↔ Code.Fits signed width n := by
  have hPower : (256 : Int) ^ width = 2 ^ (8 * width) := by rw [pow_mul]; rfl
  cases signed with
  | true =>
    obtain ⟨hType, hWidth, hPos⟩ := signed_name hCode
    have hHalf : (2 : Int) ^ (8 * width) = 2 * 2 ^ (8 * width - 1) := by
      rw [← pow_succ', Nat.sub_add_cancel (by omega)]
    have hNot := hLeast width hCode
    have hFits : Code.Fits true width n ↔ -(256 ^ width : Int) ≤ 2 * n ∧ 2 * n < 256 ^ width := Iff.rfl
    rw [checkSimple_signed hType, hWidth, hFits, hPower, hHalf]
    rw [hPower, hHalf] at hNot
    omega
  | false =>
    obtain ⟨hSigned, hType, hWidth⟩ := unsigned_name hCode hBool
    rw [checkSimple_unsigned hSigned hType, hWidth, ← hPower]
    exact Iff.rfl

theorem pack_int_isSome {signed : Bool} {width : Nat} {n : Int} :
    ((Code.int signed width).pack (.int n)).isSome = true ↔ Code.Fits signed width n := by
  show (if Code.Fits signed width n then some _ else none : Option Bytes).isSome = true ↔ _
  split
  · rename_i hFits
    exact iff_of_true rfl hFits
  · rename_i hFits
    exact iff_of_false (by decide) hFits

/-! ## Fields that are no arrays -/

theorem toChar?_of_ascii {c : CodePoint} (h : c.val < 128) : ∃ char, c.toChar? = some char := by
  have hValid : c.val.isValidChar := .inl (by omega)
  exact ⟨_, dif_pos hValid⟩

theorem encodeUtf8_of_ascii {s : List CodePoint} (h : isAscii s = true) : ∃ bs, encodeUtf8 s = some bs := by
  rw [isAscii, List.all_eq_true] at h
  have hChars : ∃ cs, s.mapM CodePoint.toChar? = some cs := by
    induction s with
    | nil => exact ⟨[], rfl⟩
    | cons c s ih =>
      obtain ⟨char, hChar⟩ := toChar?_of_ascii (of_decide_eq_true (h c List.mem_cons_self))
      obtain ⟨cs, hCs⟩ := ih fun d hd => h d (List.mem_cons_of_mem c hd)
      exact ⟨char :: cs, by rw [List.mapM_cons, hChar, hCs]; rfl⟩
  obtain ⟨cs, hCs⟩ := hChars
  exact ⟨_, by rw [encodeUtf8, hCs]; rfl⟩

theorem checkString_iff {s : List CodePoint} (hBounded : Ty.string.Bounded (.str s)) (fieldName : Str) :
    checkString fieldName (.str s) = .ok () ↔ (Ty.string.serial (.str s)).isSome = true ∧ Ty.string.Ascii (.str s) := by
  rw [checkString, Ty.Ascii]
  split
  · rename_i hAscii
    obtain ⟨bs, hBytes⟩ := encodeUtf8_of_ascii hAscii
    have hShort : bs.length < 4294967296 := hBounded bs hBytes
    rw [Ty.serial, hBytes, Option.bind_some, packLength_eq, if_pos hShort]
    exact iff_of_true rfl ⟨rfl, hAscii⟩
  · rename_i hAscii
    exact iff_of_false (aboutField_ne_ok fieldName _) fun h => hAscii h.2

theorem stamp_isSome {s : Simple} {signed : Bool} (hCode : s.code = .int signed 4) (cls : Str) {secs nsecs : Int}
    (hSecs : Code.Fits signed 4 secs) (hNsecs : Code.Fits signed 4 nsecs) :
    ((Ty.message cls (stampMembers s)).serial (stampVal cls secs nsecs)).isSome = true := by
  obtain ⟨front, hFront⟩ := Option.isSome_iff_exists.mp (pack_int_isSome.mpr hSecs)
  obtain ⟨back, hBack⟩ := Option.isSome_iff_exists.mp (pack_int_isSome.mpr hNsecs)
  have hFirst : (Ty.simple s).serial (.int secs) = some front := by rw [Ty.serial, hCode, hFront]
  have hSecond : (Ty.simple s).serial (.int nsecs) = some back := by rw [Ty.serial, hCode, hBack]
  rw [stampVal, Ty.serial, stampMembers, Members.serial, hFirst, Option.bind_some, Members.serial, hSecond]
  rfl

section

variable {sub : MsgSpec → Option Members} {ctx : MsgContext} {base : Str} {t : Ty} {v : PyVal}

theorem checkType_scalar (getTypes : Str → List Str) (hBase : ResolvedBase sub ctx base t) (hKind : Kind t v)
    (hBounded : t.Bounded v) (hSpared : t.Spared v) (fieldName : Str) :
    checkType getTypes fieldName base v = .ok () ↔ (t.serial v).isSome = true ∧ t.Ascii v := by
  cases hBase with
  | @simple _ s hSimple =>
    have hName := name_of_simpleOf hSimple
    have hIs : isSimple base = true := by rw [isSimple, hSimple]; rfl
    rw [checkType.eq_def, if_pos hIs, ← hName]
    cases hKind with
    | @int _ signed width hCode hBool n =>
      rw [checkSimple_int hCode hBool hSpared, Ty.serial, hCode, pack_int_isSome]
      exact (and_iff_left trivial).symm
    | bool b => cases b <;> exact iff_of_true rfl ⟨rfl, trivial⟩
  | string =>
    cases hKind with
    | string s =>
      rw [checkType.eq_def, if_neg (by decide), if_pos rfl]
      exact checkString_iff hBounded fieldName
  | message =>
    cases hKind with
    | time secs nsecs =>
      rw [checkType.eq_def, if_neg (by decide), if_neg (by decide), if_pos rfl, if_pos (by rfl)]
      refine iff_of_true rfl ⟨stamp_isSome rfl _ ?_ ?_, trivial⟩
      · exact hBounded _ List.mem_cons_self secs rfl
      · exact hBounded _ (List.mem_cons_of_mem _ List.mem_cons_self) nsecs rfl
    | duration secs nsecs =>
      rw [checkType.eq_def, if_neg (by decide), if_neg (by decide), if_neg (by decide), if_pos rfl, if_pos (by rfl)]
      refine iff_of_true rfl ⟨stamp_isSome rfl _ ?_ ?_, trivial⟩
      · exact hBounded _ List.mem_cons_self secs rfl
      · exact hBounded _ (List.mem_cons_of_mem _ List.mem_cons_self) nsecs rfl

/-! ## Arrays -/

theorem checkEach_iff (getTypes : Str → List Str) (fieldName fieldType : Str) (vs : List PyVal) :
    checkEach getTypes fieldName fieldType vs = .ok () ↔ ∀ w ∈ vs, checkType getTypes fieldName fieldType w = .ok () := by
  induction vs with
  | nil => exact iff_of_true rfl fun w hw => absurd hw List.not_mem_nil
  | cons v vs ih =>
    rw [checkEach, List.forall_mem_cons, ← ih]
    cases checkType getTypes fieldName fieldType v with
    | error e => exact iff_of_false (by rintro ⟨⟩) fun h => by cases h.1
    | ok u => exact (and_iff_right rfl).symm

theorem encodeEach_isSome {enc : PyVal → Option Bytes} {vs : List PyVal} :
    (encodeEach enc vs).isSome = true ↔ ∀ w ∈ vs, (enc w).isSome = true := by
  induction vs with
  | nil => exact iff_of_true rfl fun w hw => absurd hw List.not_mem_nil
  | cons v vs ih =>
    rw [encodeEach, List.forall_mem_cons, ← ih]
    cases enc v with
    | none => exact iff_of_false Bool.false_ne_true fun h => absurd h.1 Bool.false_ne_true
    | some bs =>
      rw [Option.bind_some, Option.isSome_map]
      exact (and_iff_right rfl).symm

theorem serial_list_isSome {length : Option Nat} {vs : List PyVal} (hLength : HasLength length vs)
    (hShort : ShortLength length vs.length) (hPlain : t.isSimple = true → PlainLength length) :
    ((Ty.array length t).serial (.list vs)).isSome = true ↔ ∀ w ∈ vs, (t.serial w).isSome = true := by
  rw [← encodeEach_isSome]
  cases length with
  | none =>
    rw [Ty.serial, packLength_eq, if_pos (hShort rfl), Option.bind_some, Option.isSome_map]
  | some n =>
    have hCount : ¬ (t.isSimple = true ∧ vs.length ≠ reducedCount n) := by
      rintro ⟨hSimple, hNot⟩
      rw [(plainLength_some n).mp (hPlain hSimple)] at hNot
      exact hNot (hLength n rfl)
    rw [Ty.serial, if_neg hCount]

theorem mem_of_parseType {type : Str} {arity : Arity} (hParse : parseType type = some (base, arity))
    (hArity : arity ≠ .scalar) : '[' ∈ type := by
  by_contra hNot
  rw [parseType, if_neg hNot] at hParse
  split at hParse
  · cases hParse
  · cases hParse
    exact hArity rfl

theorem checkType_resolved (getTypes : Str → List Str) {type : Str} (h : Resolved sub ctx type t)
    (hClosed : '[' ∈ type → type.getLast? = some ']') (hKind : Kind t v) (hBounded : t.Bounded v)
    (hSpared : t.Spared v) (fieldName : Str) :
    checkType getTypes fieldName type v = .ok () ↔ (t.serial v).isSome = true ∧ t.Ascii v := by
  cases h with
  | scalar _ _ hBase => exact checkType_scalar getTypes hBase hKind hBounded hSpared fieldName
  | @array base arity elem hParse hArity hSimple _ hBase =>
    cases hKind with
    | @list _ _ vs hLength hEach =>
      obtain ⟨hShort, hBoundedEach⟩ := hBounded
      obtain ⟨hPlain, hSparedEach⟩ := hSpared
      have hBracket := mem_of_parseType hParse hArity
      have hList : checkType getTypes fieldName type (.list vs) =
          checkEach getTypes (fieldName ++ str "[]") base vs := by
        have hNot (other : Str) (hOther : '[' ∉ other) : type ≠ other := fun hEq => hOther (hEq ▸ hBracket)
        rw [checkType.eq_def, if_neg (by rw [isSimple, hSimple]; decide), if_neg (hNot _ (by decide)),
          if_neg (hNot _ (by decide)), if_neg (hNot _ (by decide)), if_pos (hClosed hBracket),
          if_neg (not_not.mpr hBracket), parseType_base hParse]
      rw [hList, checkEach_iff, serial_list_isSome hLength hShort hPlain, Ty.Ascii, ← forall₂_and]
      refine forall₂_congr fun w hw => ?_
      exact checkType_scalar getTypes hBase (hEach w hw) (hBoundedEach w hw) (hSparedEach w hw) _

end

/-! ## The serializer of a field -/

theorem getLast?_resolveFieldType {unicodeWord : Char → Bool} {package fieldType : Str}
    (hValid : isValidMsgType unicodeWord fieldType = true) (hPackage : package ≠ []) (hPlain : '[' ∉ package)
    (hArray : '[' ∈ resolveFieldType package fieldType) :
    (resolveFieldType package fieldType).getLast? = some ']' := by
  have hOwn (hMem : '[' ∈ fieldType) : fieldType.getLast? = some ']' := by
    rw [isValidMsgType, Bool.and_eq_true, drop_bareMsgType] at hValid
    have hText := bareMsgType_append_arraySuffix fieldType
    obtain ⟨-, hNone⟩ | hLast := getLast?_arrayIndices hValid.2
    · rw [hNone, List.append_nil] at hText
      have hNot := not_mem_bareMsgType fieldType
      rw [hText] at hNot
      exact absurd hMem hNot
    · rw [← hText, List.getLast?_append, hLast]
      rfl
  obtain ⟨-, hKept⟩ | ⟨-, hKept⟩ | ⟨-, hKept⟩ := resolveFieldType_cases hPackage fieldType
  · rw [hKept] at hArray
    exact absurd hArray (by decide)
  · rw [hKept] at hArray ⊢
    have hMem : '[' ∈ fieldType := by
      obtain hFront | hBack := List.mem_append.mp hArray
      · exact absurd hFront hPlain
      · exact (List.mem_cons.mp hBack).resolve_left (by decide)
    rw [List.getLast?_append, List.getLast?_cons, hOwn hMem]
    rfl
  · rw [hKept] at hArray ⊢
    exact hOwn hArray

section

variable {F : Type} {py : Python F}

theorem Accepts.closed {name : Str} {spec : MsgSpec} (h : Accepts py name spec) :
    ∀ type ∈ spec.types, '[' ∈ type → type.getLast? = some ']' := by
  obtain ⟨hName, ctx, text, loaded, registered, hLoad, rfl⟩ := h
  obtain ⟨package, base, ds, hKey, hLines, hSpec, -⟩ := loadMsgFromString_eq_ok_iff.mp hLoad
  obtain ⟨-, hDeclares, -⟩ := specOf_eq_ok_iff.mp hSpec
  obtain ⟨hPackage, hPlain⟩ := packageOf_messageName hName hKey
  rw [hDeclares.types]
  refine loadLines_types (fun line field hField => ?_) hLines
  rw [loadFieldLine] at hField
  split at hField
  · split at hField
    · cases hField
    · split at hField
      · cases hField
      · rename_i hValid
        cases hField
        rw [Bool.not_eq_true', Bool.not_eq_false] at hValid
        exact getLast?_resolveFieldType hValid hPackage hPlain
  · cases hField

theorem Kind.namedAlike {field : Str} {t : Ty} {v : PyVal} (h : Kind t v) : (Members.cons field t .nil).NamedAlike := by
  intro member hMember leaf hLeaf name hName
  obtain rfl := List.mem_singleton.mp hMember
  have hShort : ∀ leaf ∈ t.leaves, leaf.1.dropLast = [] := by
    cases h with
    | int | bool | string | list =>
      intro leaf hLeaf
      obtain rfl := List.mem_singleton.mp hLeaf
      rfl
    | time | duration =>
      intro leaf hLeaf
      obtain rfl | hLeaf := List.mem_cons.mp hLeaf
      · rfl
      · obtain rfl := List.mem_singleton.mp hLeaf
        rfl
  rw [hShort leaf hLeaf] at hName
  exact absurd hName List.not_mem_nil

theorem exists_fieldWriter {ctx : MsgContext} {fuel : Nat} {spec : MsgSpec} {field : Str} {t : Ty}
    (hCtx : AcceptedContext py ctx) (hMembers : resolve ctx fuel spec = some (.cons field t .nil)) (counter : Nat) :
    ∃ code, serializeFn ctx fuel spec.package (makePythonSafe (specFields spec)) counter = some code ∧
      ∀ env cls v, Kind t v →
        (serialize env code (.obj cls [(remapReserved field, v)])).isSome = (t.serial v).isSome := by
  have hSlots : (Members.cons field t .nil).slots.Nodup := List.nodup_singleton _
  obtain ⟨code, hCode, -⟩ :=
    serializeFn_writes hCtx.primitivesUnregistered hMembers hSlots spec.package counter ⟨[], fun _ => none⟩
  refine ⟨code, hCode, fun env cls v hKind => ?_⟩
  obtain ⟨code', hCode', hRuns⟩ :=
    serializeFn_writes hCtx.primitivesUnregistered hMembers hSlots spec.package counter env
  obtain rfl := Option.some.inj (hCode.symm.trans hCode')
  have hWrites := (hRuns cls [(remapReserved field, v)] ⟨v, [], rfl, hKind.shaped, rfl⟩).1 hKind.namedAlike
  have hSerial : (Members.cons field t .nil).serial [(remapReserved field, v)] = (t.serial v).map (· ++ []) := by
    rw [Members.serial]
    cases t.serial v <;> rfl
  rw [hSerial] at hWrites
  rw [serialize, Option.isSome_map]
  cases hBytes : t.serial v with
  | none =>
    rw [hBytes] at hWrites
    rw [hWrites.raises rfl]
    rfl
  | some bs =>
    rw [hBytes] at hWrites
    obtain ⟨f, hRun, -⟩ := hWrites.writes _ rfl
    rw [hRun]
    rfl

/-- A value is accepted if the generated method writes it and it is ASCII. -/
theorem checkType_iff_serialize {ctx : MsgContext} {name : Str} {fuel : Nat} {spec : MsgSpec} {type field : Str}
    {t : Ty} (hCtx : AcceptedContext py ctx) (hSpec : Accepts py name spec) (hFields : spec.fields = [(type, field)])
    (hMembers : resolve ctx fuel spec = some (.cons field t .nil)) (counter : Nat) (getTypes : Str → List Str) :
    ∃ code, serializeFn ctx fuel spec.package (makePythonSafe (specFields spec)) counter = some code ∧
      ∀ env cls v, Kind t v → t.Bounded v → t.Spared v → ∀ fieldName,
        (checkType getTypes fieldName type v = .ok () ↔
          (serialize env code (.obj cls [(remapReserved field, v)])).isSome = true ∧ t.Ascii v) := by
  obtain ⟨code, hCode, hWrites⟩ := exists_fieldWriter hCtx hMembers counter
  refine ⟨code, hCode, fun env cls v hKind hBounded hSpared fieldName => ?_⟩
  have hMem : type ∈ spec.types := by
    have hTypes : spec.fields.map Prod.fst = spec.types := by
      rw [MsgSpec.fields, List.map_fst_zip (Nat.le_of_eq spec.sameLength)]
    rw [← hTypes, hFields]
    exact List.mem_singleton_self type
  cases fuel with
  | zero => cases hMembers
  | succ fuel =>
    have hResolve : resolveMembers (resolve ctx fuel) ctx spec.fields = some (.cons field t .nil) := hMembers
    rw [hFields] at hResolve
    obtain ⟨t', hType, hCons⟩ := Option.bind_eq_some_iff.mp hResolve
    cases hCons
    rw [hWrites env cls v hKind]
    exact checkType_resolved getTypes (resolved hType) (hSpec.closed type hMem) hKind hBounded hSpared fieldName

end

/-! ## Samples -/

def oneField (type : String) : MsgContext :=
  loadInto asciiPython (createDefault asciiPython) (str type ++ str " data") (str "pkg/Sample")

theorem acceptedContext_oneField (type : String) : AcceptedContext asciiPython (oneField type) :=
  (acceptedContext_createDefault asciiPython).loadInto ⟨⟨by decide, by decide, fun base hBase => by cases hBase⟩, by decide⟩ _

theorem exists_oneField {type : String} {t : Ty}
    (hFields : ((oneField type).getRegistered (str "pkg/Sample")).map MsgSpec.fields = some [(str type, str "data")])
    (hType : resolveType (resolve (oneField type) 1) (oneField type) (str type) = some t) :
    ∃ name spec, Accepts asciiPython name spec ∧ spec.fields = [(str type, str "data")] ∧
      resolve (oneField type) 2 spec = some (.cons (str "data") t .nil) := by
  obtain ⟨spec, hSpec, hFields⟩ := Option.map_eq_some_iff.mp hFields
  have hKey : packageResourceName (bareMsgType (str "pkg/Sample")) = some (str "pkg", str "Sample") := by decide
  obtain ⟨name, hAccepts⟩ := (acceptedContext_oneField type).accepts hKey (by decide) hSpec
  refine ⟨name, spec, hAccepts, hFields, ?_⟩
  show resolveMembers (resolve (oneField type) 1) (oneField type) spec.fields = _
  rw [hFields, resolveMembers, hType]
  rfl

theorem checkType_iff_serialize_text :
    ∃ name spec code, Accepts asciiPython name spec ∧ spec.fields = [(str "string", str "data")] ∧
      serializeFn (oneField "string") 2 spec.package (makePythonSafe (specFields spec)) 0 = some code ∧
      (serialize ⟨[], fun _ => none⟩ code (.obj (str "pkg/Sample") [(str "data", .str [97, 98])])).isSome = true := by
  obtain ⟨name, spec, hAccepts, hFields, hMembers⟩ := @exists_oneField "string" .string (by decide +kernel) rfl
  obtain ⟨code, hCode, hAgree⟩ :=
    checkType_iff_serialize (acceptedContext_oneField "string") hAccepts hFields hMembers 0 fun _ => []
  have hBounded : Ty.string.Bounded (.str [97, 98]) := by
    intro bs hBytes
    cases hBytes
    decide
  have hOk : checkType (fun _ => []) (str "data") (str "string") (.str [97, 98]) = .ok () := by decide +kernel
  exact ⟨name, spec, code, hAccepts, hFields, hCode,
    ((hAgree _ _ _ (.string _) hBounded trivial (str "data")).mp hOk).1⟩

def Treated (type : String) (v : PyVal) (accepted written : Bool) : Prop :=
  ∃ name spec code, Accepts asciiPython name spec ∧ spec.fields = [(str type, str "data")] ∧
    serializeFn (oneField type) 2 spec.package (makePythonSafe (specFields spec)) 0 = some code ∧
    (checkType (fun _ => []) (str "data") (str type) v).isOk = accepted ∧
    (serialize ⟨[], fun _ => none⟩ code (.obj (str "pkg/Sample") [(str "data", v)])).isSome = written

theorem treated {type : String} {t : Ty}
    (hFields : ((oneField type).getRegistered (str "pkg/Sample")).map MsgSpec.fields = some [(str type, str "data")])
    (hType : resolveType (resolve (oneField type) 1) (oneField type) (str type) = some t) {v : PyVal} (hKind : Kind t v)
    {accepted written : Bool} (hAccepted : (checkType (fun _ => []) (str "data") (str type) v).isOk = accepted)
    (hWritten : (t.serial v).isSome = written) : Treated type v accepted written := by
  obtain ⟨name, spec, hAccepts, hOwn, hMembers⟩ := exists_oneField hFields hType
  obtain ⟨code, hCode, hWrites⟩ := exists_fieldWriter (acceptedContext_oneField type) hMembers 0
  refine ⟨name, spec, code, hAccepts, hOwn, hCode, hAccepted, ?_⟩
  exact (hWrites _ (str "pkg/Sample") v hKind).trans hWritten

theorem resolveType_time :
    resolveType (resolve (oneField "time") 1) (oneField "time") (str "time") =
      some (.message (str "time") (stampMembers .uint32)) := by
  have hFields : ((oneField "time").getRegistered (str "time")).map MsgSpec.fields =
      some [(str "uint32", str "secs"), (str "uint32", str "nsecs")] := by
    decide +kernel
  obtain ⟨spec, hSpec, hFields⟩ := Option.map_eq_some_iff.mp hFields
  have hMembers : resolve (oneField "time") 1 spec = some (stampMembers .uint32) := by
    show resolveMembers _ (oneField "time") spec.fields = _
    rw [hFields]
    rfl
  have hParse : parseType (str "time") = some (str "time", .scalar) := by decide
  have hSimple : simpleOf (str "time") = none := by decide
  rw [resolveType, hParse, Option.bind_some]
  dsimp only
  rw [resolveBase, hSimple]
  dsimp only
  rw [if_neg (by decide), if_pos (.inl rfl), hSpec, Option.bind_some, hMembers, Option.bind_some,
    if_pos (by decide)]
  rfl

/-- A letter beyond ASCII and the least `int8` are written and not accepted, a time and an array are accepted and
not written. -/
theorem checkType_disagrees :
    Treated "string" (.str [233]) false true ∧ Treated "int8" (.int (-128)) false true ∧
      Treated "time" (stampVal (str "time") 4294967296 0) true false ∧
      Treated "int8[99]" (.list (List.replicate 99 (.int 0))) true false := by
  refine ⟨treated (by decide +kernel) rfl (.string _) (by decide +kernel) (by decide +kernel), ?_, ?_, ?_⟩
  · exact treated (by decide +kernel) rfl (.int rfl (by decide) _) (by decide +kernel) (by decide +kernel)
  · exact treated (by decide +kernel) resolveType_time (.time _ _) (by decide +kernel) (by decide +kernel)
  · refine treated (by decide +kernel) rfl (.list (by rintro _ ⟨⟩; rfl) fun w hw => ?_) (by decide +kernel) (by decide +kernel)
    obtain rfl := List.eq_of_mem_replicate hw
    exact .int rfl (by decide) 0

end XcRos.Genpy
