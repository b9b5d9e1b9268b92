import XcRos.Msg.Depends
import XcRos.Serialization.FixedLength

/-! # The trait of fixed length

`gencpp.is_fixed_length` decides from the message definitions whether the generated C++ type is told to have a fixed
length. The type itself is put together from the same definitions, field by field.
-/

namespace XcRos.Gencpp

open XcRos.Msg XcRos.Serialization

/-- `MSG_TYPE_TO_CPP` -/
def msgTypeToCpp : List (Str × Ty) :=
  [(str "byte", .simple (.prim .int8)), (str "char", .simple (.prim .uint8)), (str "bool", .simple (.prim .uint8)),
    (str "uint8", .simple (.prim .uint8)), (str "int8", .simple (.prim .int8)),
    (str "uint16", .simple (.prim .uint16)), (str "int16", .simple (.prim .int16)),
    (str "uint32", .simple (.prim .uint32)), (str "int32", .simple (.prim .int32)),
    (str "uint64", .simple (.prim .uint64)), (str "int64", .simple (.prim .int64)),
    (str "float32", .simple (.prim .float)), (str "float64", .simple (.prim .double)), (str "string", .string),
    (str "time", .simple .time), (str "duration", .simple .duration)]

structure SetOrder where
  order : List Str → List Str
  mem_iff : ∀ types t, t ∈ order types ↔ t ∈ types

section

variable {F : Type} (py : Python F) (path : SearchPath)

/-! ## The predicate -/

/-- `spec.parsed_fields()`: base type and arity. -/
def parsedFields (spec : MsgSpec) : List (Str × Arity) := spec.types.filterMap parseType

def isVariable (field : Str × Arity) : Bool := field.2 = .variable || field.1 = str "string"

def messageTypes (spec : MsgSpec) : List Str := ((parsedFields spec).map Prod.fst).filter (!isBuiltin ·)

/-- The second loop of `is_fixed_length`; `below` is the recursive call. -/
def typeLoop (below : DependContext → MsgSpec → Option (Outcome Bool)) (package : Str) :
    List Str → DependContext → Option (Outcome Bool)
  | [], ctx => some (.ok true, ctx)
  | t :: types, ctx =>
    match loadMsgByType py path ctx (resolveType t package) with
    | .error e => some (.error e, ctx)
    | .ok (newSpec, ctx) =>
      match below ctx newSpec with
      | some (.ok true, ctx) => typeLoop below package types ctx
      | other => other

def isFixedLength (set : SetOrder) : Nat → DependContext → MsgSpec → Option (Outcome Bool)
  | 0, _, _ => none
  | fuel + 1, ctx, spec =>
    if (parsedFields spec).any isVariable then some (.ok false, ctx)
    else typeLoop py path (isFixedLength set fuel) spec.package (set.order (messageTypes spec)) ctx

/-! ## The generated type -/

def loadedSpec (type : Str) : Option MsgSpec :=
  match loadMsgByType py path ⟨.empty, fun _ => none⟩ type with
  | .error _ => none
  | .ok (spec, _) => some spec

/-- An array is a `std::vector` or a `boost::array`; there is none of a negative length. -/
def withArity (t : Ty) : Arity → Option Ty
  | .scalar => some t
  | .variable => some (.vector t)
  | .fixed n => if n < 0 then none else some (.array t n.toNat)

/-- `msg_type_to_cpp` of a field, with the struct that it names; `below` makes the structs of the messages. -/
def msgTypeToCppType (below : MsgSpec → Option Fields) (package type : Str) : Option Ty :=
  (parseType type).bind fun field =>
    (if isBuiltin field.1 then msgTypeToCpp.lookup field.1
      else (loadedSpec py path (resolveType field.1 package)).bind fun spec => (below spec).map .message).bind
      (withArity · field.2)

def structFields (cpp : Str → Option Ty) : List Str → Option Fields
  | [] => some .nil
  | type :: types => (cpp type).bind fun t => (structFields cpp types).map (.cons t)

/-- The fields of the generated struct; there is one if the message is not part of itself. -/
def generatedFields : Nat → MsgSpec → Option Fields
  | 0, _ => none
  | fuel + 1, spec => structFields (msgTypeToCppType py path (generatedFields fuel) spec.package) spec.types

end

section

variable {F : Type} {py : Python F} {path : SearchPath}

/-! ## Loading -/

theorem loadMsgByType_anywhere {ctx after : DependContext} {type : Str} {spec : MsgSpec}
    (h : loadMsgByType py path ctx type = .ok (spec, after)) (ctx' : DependContext) :
    ∃ after', loadMsgByType py path ctx' type = .ok (spec, after') := by
  rw [loadMsgByType] at h ⊢
  generalize (if type = header then headerFullName else type) = name at h ⊢
  split at h
  · cases h
  · rename_i package baseType hName
    split at h
    · cases h
    · rename_i file hFile
      split at h
      · cases h
      · rename_i loaded messages hLoad
        cases h
        obtain ⟨package', shortName, ds, hOwn, hLines, hSpec, -⟩ := loadMsgFromString_eq_ok_iff.mp hLoad
        obtain ⟨registered, hRegister⟩ := exists_register ctx'.messages loaded.spec (by rw [hName]; rfl)
        have hAgain := loadMsgFromString_eq_ok_iff.mpr ⟨package', shortName, ds, hOwn, hLines, hSpec, hRegister⟩
        exact ⟨{ ctx' with messages := registered }, by rw [hAgain]⟩

theorem loadedSpec_eq_some_iff {type : Str} {spec : MsgSpec} (ctx : DependContext) :
    loadedSpec py path type = some spec ↔ ∃ after, loadMsgByType py path ctx type = .ok (spec, after) := by
  rw [loadedSpec]
  constructor
  · intro h
    split at h
    · cases h
    · rename_i loaded after hLoad
      cases h
      exact loadMsgByType_anywhere hLoad ctx
  · rintro ⟨after, hLoad⟩
    obtain ⟨after', hAgain⟩ := loadMsgByType_anywhere hLoad ⟨.empty, fun _ => none⟩
    rw [hAgain]

/-! ## One field -/

def messageFixed (py : Python F) (path : SearchPath) (below : MsgSpec → Option Fields) (package base : Str) : Bool :=
  ((loadedSpec py path (resolveType base package)).bind below).any Fields.isFixedLength

theorem isFixedLength_builtin {base : Str} {t : Ty} (h : msgTypeToCpp.lookup base = some t) :
    t.isFixedLength = true ↔ base ≠ str "string" := by
  have hTable : ∀ e ∈ msgTypeToCpp, e.2.isFixedLength = decide (e.1 ≠ str "string") := by decide
  obtain ⟨front, back, hSplit, -⟩ := List.lookup_eq_some_iff.mp h
  have hMem : (base, t) ∈ msgTypeToCpp := hSplit ▸ List.mem_append_right front List.mem_cons_self
  rw [hTable _ hMem, decide_eq_true_iff]

theorem isFixedLength_withArity {t t' : Ty} {arity : Arity} (h : withArity t arity = some t') :
    t'.isFixedLength = true ↔ arity ≠ .variable ∧ t.isFixedLength = true := by
  cases arity with
  | scalar =>
    cases h
    exact (and_iff_right (by decide)).symm
  | «variable» =>
    cases h
    exact iff_of_false Bool.false_ne_true fun h => h.1 rfl
  | fixed n =>
    rw [withArity] at h
    split at h
    · cases h
    · cases h
      exact (and_iff_right (by simp)).symm

theorem msgTypeToCppType_spec {below : MsgSpec → Option Fields} {package type : Str} {t : Ty}
    (h : msgTypeToCppType py path below package type = some t) :
    ∃ field, parseType type = some field ∧
      (t.isFixedLength = true ↔ isVariable field = false ∧
        (isBuiltin field.1 = false → messageFixed py path below package field.1 = true)) ∧
      (isBuiltin field.1 = false → ∃ spec fields, loadedSpec py path (resolveType field.1 package) = some spec ∧
        below spec = some fields) := by
  obtain ⟨⟨base, arity⟩, hParse, hType⟩ := Option.bind_eq_some_iff.mp h
  obtain ⟨plain, hPlain, hArity⟩ := Option.bind_eq_some_iff.mp hType
  have hFixed := isFixedLength_withArity hArity
  have hVariable : isVariable (base, arity) = false ↔ arity ≠ .variable ∧ base ≠ str "string" := by
    rw [isVariable, Bool.or_eq_false_iff, decide_eq_false_iff_not, decide_eq_false_iff_not]
  refine ⟨(base, arity), hParse, ?_, ?_⟩
  · rw [hFixed, hVariable, and_assoc]
    refine and_congr_right fun _ => ?_
    split at hPlain
    · rename_i hBuiltin
      rw [isFixedLength_builtin hPlain, hBuiltin]
      exact (and_iff_left fun hNot => absurd hNot (by decide)).symm
    · rename_i hMessage
      obtain ⟨spec, hSpec, hBelow⟩ := Option.bind_eq_some_iff.mp hPlain
      obtain ⟨fields, hFields, rfl⟩ := Option.map_eq_some_iff.mp hBelow
      have hString : base ≠ str "string" := by
        rintro rfl
        exact hMessage rfl
      rw [messageFixed, hSpec, Option.bind_some, hFields, Option.any_some]
      exact ⟨fun hOwn => ⟨hString, fun _ => hOwn⟩, fun hOwn => hOwn.2 (Bool.eq_false_iff.mpr hMessage)⟩
  · intro hMessage
    rw [hMessage, if_neg Bool.false_ne_true] at hPlain
    obtain ⟨spec, hSpec, hBelow⟩ := Option.bind_eq_some_iff.mp hPlain
    obtain ⟨fields, hFields, -⟩ := Option.map_eq_some_iff.mp hBelow
    exact ⟨spec, fields, hSpec, hFields⟩

/-! ## The fields -/

theorem structFields_spec {cpp : Str → Option Ty} {types : List Str} {fields : Fields}
    (h : structFields cpp types = some fields) :
    (∀ type ∈ types, ∃ t, cpp type = some t) ∧
      (fields.isFixedLength = true ↔ ∀ type ∈ types, ∀ t, cpp type = some t → t.isFixedLength = true) := by
  induction types generalizing fields with
  | nil =>
    cases h
    exact ⟨by simp, by simp [Fields.isFixedLength]⟩
  | cons type types ih =>
    obtain ⟨t, hType, hTypes⟩ := Option.bind_eq_some_iff.mp h
    obtain ⟨rest, hRest, rfl⟩ := Option.map_eq_some_iff.mp hTypes
    obtain ⟨hExist, hFixed⟩ := ih hRest
    refine ⟨List.forall_mem_cons.mpr ⟨⟨t, hType⟩, hExist⟩, ?_⟩
    rw [Fields.isFixedLength, Bool.and_eq_true, hFixed, List.forall_mem_cons]
    refine and_congr_left fun _ => ⟨fun hOwn t' hT' => ?_, fun hOwn => hOwn t hType⟩
    cases hType.symm.trans hT'
    exact hOwn

theorem mem_parsedFields {spec : MsgSpec} {field : Str × Arity} :
    field ∈ parsedFields spec ↔ ∃ type ∈ spec.types, parseType type = some field :=
  List.mem_filterMap

theorem mem_messageTypes {spec : MsgSpec} {base : Str} :
    base ∈ messageTypes spec ↔ ∃ field ∈ parsedFields spec, field.1 = base ∧ isBuiltin base = false := by
  rw [messageTypes, List.mem_filter, List.mem_map, Bool.not_eq_true']
  constructor
  · rintro ⟨⟨field, hField, hBase⟩, hMessage⟩
    exact ⟨field, hField, hBase, hMessage⟩
  · rintro ⟨field, hField, hBase, hMessage⟩
    exact ⟨⟨field, hField, hBase⟩, hMessage⟩

theorem exists_below {fuel : Nat} {spec : MsgSpec} {fields : Fields}
    (h : generatedFields py path (fuel + 1) spec = some fields) {base : Str} (hBase : base ∈ messageTypes spec) :
    ∃ spec' fields', loadedSpec py path (resolveType base spec.package) = some spec' ∧
      generatedFields py path fuel spec' = some fields' := by
  obtain ⟨field, hField, rfl, hMessage⟩ := mem_messageTypes.mp hBase
  obtain ⟨type, hType, hParse⟩ := mem_parsedFields.mp hField
  obtain ⟨t, hCpp⟩ := (structFields_spec h).1 type hType
  obtain ⟨field', hParse', -, hBelow⟩ := msgTypeToCppType_spec hCpp
  cases hParse.symm.trans hParse'
  exact hBelow hMessage

theorem generatedFields_fixed {fuel : Nat} {spec : MsgSpec} {fields : Fields}
    (h : generatedFields py path (fuel + 1) spec = some fields) (set : SetOrder) :
    fields.isFixedLength = true ↔ (parsedFields spec).any isVariable = false ∧
      (set.order (messageTypes spec)).all (messageFixed py path (generatedFields py path fuel) spec.package) = true := by
  obtain ⟨hExist, hFixed⟩ := structFields_spec h
  have hFields : fields.isFixedLength = true ↔ ∀ field ∈ parsedFields spec, isVariable field = false ∧
      (isBuiltin field.1 = false →
        messageFixed py path (generatedFields py path fuel) spec.package field.1 = true) := by
    rw [hFixed]
    constructor
    · intro hAll field hField
      obtain ⟨type, hType, hParse⟩ := mem_parsedFields.mp hField
      obtain ⟨t, hCpp⟩ := hExist type hType
      obtain ⟨field', hParse', hIff, -⟩ := msgTypeToCppType_spec hCpp
      cases hParse.symm.trans hParse'
      exact hIff.mp (hAll type hType t hCpp)
    · intro hAll type hType t hCpp
      obtain ⟨field, hParse, hIff, -⟩ := msgTypeToCppType_spec hCpp
      exact hIff.mpr (hAll field (mem_parsedFields.mpr ⟨type, hType, hParse⟩))
  rw [hFields, List.any_eq_false, List.all_eq_true]
  constructor
  · intro hAll
    refine ⟨fun field hField => Bool.eq_false_iff.mp (hAll field hField).1, fun base hBase => ?_⟩
    obtain ⟨field, hField, rfl, hMessage⟩ := mem_messageTypes.mp ((set.mem_iff _ _).mp hBase)
    exact (hAll field hField).2 hMessage
  · rintro ⟨hVariable, hMessages⟩ field hField
    refine ⟨Bool.eq_false_iff.mpr (hVariable field hField), fun hMessage => ?_⟩
    exact hMessages _ ((set.mem_iff _ _).mpr (mem_messageTypes.mpr ⟨field, hField, rfl, hMessage⟩))

/-! ## The predicate against the type -/

theorem typeLoop_all {below : DependContext → MsgSpec → Option (Outcome Bool)} {package : Str} {fixed : Str → Bool}
    {types : List Str} (h : ∀ t ∈ types, ∃ spec, loadedSpec py path (resolveType t package) = some spec ∧
      ∀ ctx out ctx', below ctx spec = some (out, ctx') → out = .ok (fixed t))
    {ctx ctx' : DependContext} {out : Except DependError Bool}
    (hLoop : typeLoop py path below package types ctx = some (out, ctx')) : out = .ok (types.all fixed) := by
  induction types generalizing ctx with
  | nil =>
    cases hLoop
    rfl
  | cons t types ih =>
    obtain ⟨spec, hSpec, hBelow⟩ := h t List.mem_cons_self
    obtain ⟨after, hLoad⟩ := (loadedSpec_eq_some_iff ctx).mp hSpec
    rw [typeLoop, hLoad] at hLoop
    dsimp only at hLoop
    rw [List.all_cons]
    split at hLoop
    · rename_i between hTrue
      have hFixed : fixed t = true := (Except.ok.inj (hBelow _ _ _ hTrue)).symm
      rw [hFixed, Bool.true_and]
      exact ih (fun t' ht' => h t' (List.mem_cons_of_mem t ht')) hLoop
    · rename_i hOther
      have hOut := hBelow _ _ _ hLoop
      cases hFixed : fixed t with
      | true =>
        rw [hOut, hFixed] at hLoop
        exact absurd hLoop (hOther ctx')
      | false => rw [hOut, hFixed, Bool.false_and]

theorem isFixedLength_generated {fuel more : Nat} {spec : MsgSpec} {fields : Fields}
    (hStruct : generatedFields py path fuel spec = some fields) {set : SetOrder} {ctx ctx' : DependContext}
    {out : Except DependError Bool} (h : isFixedLength py path set more ctx spec = some (out, ctx')) :
    out = .ok fields.isFixedLength := by
  induction fuel generalizing more spec fields ctx ctx' out with
  | zero => cases hStruct
  | succ fuel ih =>
    cases more with
    | zero => cases h
    | succ more =>
      have hFixed := generatedFields_fixed hStruct set
      rw [isFixedLength] at h
      split at h
      · rename_i hVariable
        cases h
        have hNot : fields.isFixedLength = false := by
          rw [Bool.eq_false_iff, ne_eq, hFixed, hVariable]
          exact fun hBoth => absurd hBoth.1 (by decide)
        rw [hNot]
      · rename_i hPlain
        have hEach : ∀ t ∈ set.order (messageTypes spec),
            ∃ spec', loadedSpec py path (resolveType t spec.package) = some spec' ∧
              ∀ ctx out ctx', isFixedLength py path set more ctx spec' = some (out, ctx') →
                out = .ok (messageFixed py path (generatedFields py path fuel) spec.package t) := by
          intro t ht
          obtain ⟨spec', fields', hSpec, hFields⟩ := exists_below hStruct ((set.mem_iff _ _).mp ht)
          refine ⟨spec', hSpec, fun ctx out ctx' hBelow => ?_⟩
          rw [messageFixed, hSpec, Option.bind_some, hFields, Option.any_some]
          exact ih hFields hBelow
        rw [typeLoop_all hEach h]
        congr 1
        rw [Bool.eq_iff_iff, hFixed]
        exact (and_iff_right (Bool.eq_false_iff.mpr hPlain)).symm

theorem typeLoop_ends {below : DependContext → MsgSpec → Option (Outcome Bool)} {package : Str} {types : List Str}
    (h : ∀ t ∈ types, ∃ spec, loadedSpec py path (resolveType t package) = some spec ∧
      ∀ ctx, ∃ r, below ctx spec = some r) (ctx : DependContext) :
    ∃ r, typeLoop py path below package types ctx = some r := by
  induction types generalizing ctx with
  | nil => exact ⟨_, rfl⟩
  | cons t types ih =>
    obtain ⟨spec, hSpec, hBelow⟩ := h t List.mem_cons_self
    obtain ⟨after, hLoad⟩ := (loadedSpec_eq_some_iff ctx).mp hSpec
    obtain ⟨r, hR⟩ := hBelow after
    rw [typeLoop, hLoad]
    dsimp only
    rw [hR]
    split
    · exact ih (fun t' ht' => h t' (List.mem_cons_of_mem t ht')) _
    · exact ⟨r, rfl⟩

theorem isFixedLength_ends {fuel : Nat} {spec : MsgSpec} {fields : Fields}
    (hStruct : generatedFields py path fuel spec = some fields) (set : SetOrder) (ctx : DependContext) :
    ∃ ctx', isFixedLength py path set fuel ctx spec = some (.ok fields.isFixedLength, ctx') := by
  have hEnds : ∃ r, isFixedLength py path set fuel ctx spec = some r := by
    induction fuel generalizing spec fields ctx with
    | zero => cases hStruct
    | succ fuel ih =>
      rw [isFixedLength]
      split
      · exact ⟨_, rfl⟩
      · refine typeLoop_ends (fun t ht => ?_) ctx
        obtain ⟨spec', fields', hSpec, hFields⟩ := exists_below hStruct ((set.mem_iff _ _).mp ht)
        exact ⟨spec', hSpec, fun ctx => ih hFields ctx⟩
  obtain ⟨⟨out, ctx'⟩, hOut⟩ := hEnds
  rw [isFixedLength_generated hStruct hOut] at hOut
  exact ⟨ctx', hOut⟩

/-- Where the predicate is true the lengths are exact if there is a front element wherever one is measured, and the
vector has less than `2 ^ 32` bytes. -/
theorem isFixedLength_sound_iff {fuel more : Nat} {spec : MsgSpec} {fields : Fields}
    (hStruct : generatedFields py path fuel spec = some fields) {set : SetOrder} {ctx ctx' : DependContext}
    (hTrue : isFixedLength py path set more ctx spec = some (.ok true, ctx')) (vs : List fields.Val) :
    Sound fields vs ↔ fields.hasFronts = true ∧ 4 + vs.length * fields.fixedSize < 4294967296 := by
  have hFixed : fields.isFixedLength = true := (Except.ok.inj (isFixedLength_generated hStruct hTrue)).symm
  exact sound_iff hFixed vs

end

/-! ## Samples -/

def listOrder : SetOrder := ⟨id, fun _ _ => Iff.rfl⟩

def pairPath : SearchPath where
  packages := [(str "pkg", [str "msg"])]
  files := [(str "msg/A.msg", str "B[2] pair"), (str "msg/B.msg", str "int32 x")]

def nonePath : SearchPath where
  packages := [(str "pkg", [str "msg"])]
  files := [(str "msg/A.msg", str "B[0] none"), (str "msg/B.msg", str "int32 x")]

/-- What the struct of `pkg/A` is like. -/
def structOfA (path : SearchPath) : Option (Bool × Bool × Nat) :=
  ((loadedSpec asciiPython path (str "pkg/A")).bind (generatedFields asciiPython path 2)).map fun fields =>
    (fields.isFixedLength, fields.hasFronts, fields.fixedSize)

theorem generated_sample {path : SearchPath} {fronts : Bool} {size : Nat}
    (h : structOfA path = some (true, fronts, size)) :
    ∃ spec fields ctx', loadedSpec asciiPython path (str "pkg/A") = some spec ∧
      generatedFields asciiPython path 2 spec = some fields ∧
      isFixedLength asciiPython path listOrder 2 ⟨.empty, fun _ => none⟩ spec = some (.ok true, ctx') ∧
      fields.hasFronts = fronts ∧ fields.fixedSize = size := by
  obtain ⟨fields, hFields, hLike⟩ := Option.map_eq_some_iff.mp h
  obtain ⟨spec, hSpec, hStruct⟩ := Option.bind_eq_some_iff.mp hFields
  obtain ⟨ctx', hEnds⟩ := isFixedLength_ends hStruct listOrder ⟨.empty, fun _ => none⟩
  rw [Prod.mk.injEq, Prod.mk.injEq] at hLike
  obtain ⟨hFixed, hFronts, hSize⟩ := hLike
  rw [hFixed] at hEnds
  exact ⟨spec, fields, ctx', hSpec, hStruct, hEnds, hFronts, hSize⟩

theorem isFixedLength_sound_pair :
    ∃ spec fields, loadedSpec asciiPython pairPath (str "pkg/A") = some spec ∧
      generatedFields asciiPython pairPath 2 spec = some fields ∧ Sound fields [fields.initial] := by
  have hLike : structOfA pairPath = some (true, true, 8) := by decide +kernel
  obtain ⟨spec, fields, ctx', hSpec, hStruct, hTrue, hFronts, hSize⟩ := generated_sample hLike
  refine ⟨spec, fields, hSpec, hStruct, (isFixedLength_sound_iff hStruct hTrue [fields.initial]).mpr ⟨hFronts, ?_⟩⟩
  rw [hSize, List.length_singleton]
  decide

/-- The trait is said to hold of a message whose values have no length. -/
theorem isFixedLength_of_none :
    ∃ spec fields ctx', loadedSpec asciiPython nonePath (str "pkg/A") = some spec ∧
      generatedFields asciiPython nonePath 2 spec = some fields ∧
      isFixedLength asciiPython nonePath listOrder 2 ⟨.empty, fun _ => none⟩ spec = some (.ok true, ctx') ∧
      ¬ Sound fields [fields.initial] := by
  have hLike : structOfA nonePath = some (true, false, 0) := by decide +kernel
  obtain ⟨spec, fields, ctx', hSpec, hStruct, hTrue, hFronts, -⟩ := generated_sample hLike
  refine ⟨spec, fields, ctx', hSpec, hStruct, hTrue, fun hSound => ?_⟩
  have hFixed : fields.isFixedLength = true := (Except.ok.inj (isFixedLength_generated hStruct hTrue)).symm
  rw [sound_iff hFixed, hFronts] at hSound
  cases hSound.1

end XcRos.Gencpp
