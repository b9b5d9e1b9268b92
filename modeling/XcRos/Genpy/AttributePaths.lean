import XcRos.Genpy.EmittedPaths
import XcRos.Genpy.Flatten
import XcRos.Msg.FieldTypes
import XcRos.Msg.Texts

/-! # Attributes of generated classes

Whether serialize and deserialize go through attributes that the generated classes have. The names on the
way to a flattened field are changed at the ends only.
-/

namespace XcRos.Genpy

open XcRos.Foundation XcRos.Msg

/-- The fields below a type that are not flattened further, with the names on the way. -/
inductive LeafBelow (ctx : MsgContext) : Str → Path → Str → Prop
  | here {type : Str} (hLeaf : '[' ∈ type ∨ ctx.getRegistered type = none) : LeafBelow ctx type [] type
  | embedded {type fieldType name leaf : Str} {spec : MsgSpec} {path : Path} (hBracket : '[' ∉ type)
      (hSpec : ctx.getRegistered type = some spec) (hField : (fieldType, name) ∈ spec.fields)
      (hPath : LeafBelow ctx fieldType path leaf) : LeafBelow ctx type (name :: path) leaf

/-- No name between the first and the last on the way to such a field is reserved. -/
def MiddleNamesKept (ctx : MsgContext) (spec : MsgSpec) : Prop :=
  ∀ field ∈ spec.fields, ∀ path leaf, LeafBelow ctx field.1 path leaf → ∀ name ∈ path.dropLast, remapReserved name = name

/-! ## Flattened fields -/

section

variable {ctx : MsgContext} {sub : Fields → Option Fields} {type : Str} {path : Path}

theorem mem_flattenField
    (hSub : ∀ spec flat, sub (specFields spec) = some flat → ∀ entry,
      entry ∈ flat ↔ ∃ field ∈ spec.fields, ∃ rest, LeafBelow ctx field.1 rest entry.1 ∧ entry.2 = field.2 :: rest)
    {front : Fields} (h : flattenField sub ctx type path = some front) (entry : Str × Path) :
    entry ∈ front ↔ ∃ rest, LeafBelow ctx type rest entry.1 ∧ entry.2 = path ++ rest := by
  obtain ⟨leafType, leafPath⟩ := entry
  -- a field that stays as it is
  have hKept : ('[' ∈ type ∨ ctx.getRegistered type = none) →
      ((leafType, leafPath) ∈ [(type, path)] ↔ ∃ rest, LeafBelow ctx type rest leafType ∧ leafPath = path ++ rest) := by
    intro hLeaf
    rw [List.mem_singleton]
    constructor
    · rintro ⟨⟩
      exact ⟨[], .here hLeaf, (List.append_nil _).symm⟩
    · rintro ⟨rest, hBelow, rfl⟩
      cases hBelow with
      | here => rw [List.append_nil]
      | embedded hBracket hSpec =>
        obtain hArray | hNone := hLeaf
        · exact absurd hArray hBracket
        · rw [hNone] at hSpec
          cases hSpec
  obtain ⟨⟨base, arity⟩, hParse, hRest⟩ := Option.bind_eq_some_iff.mp h
  dsimp only at hRest
  split at hRest
  · rename_i hScalar
    rw [hScalar] at hParse
    obtain ⟨rfl, hBracket⟩ := parseType_scalar hParse
    split at hRest
    · rename_i spec hSpec
      obtain ⟨flat, hFlat, rfl⟩ := Option.map_eq_some_iff.mp hRest
      rw [List.mem_map]
      constructor
      · rintro ⟨⟨leafType', rest⟩, hMem, hEq⟩
        cases hEq
        obtain ⟨⟨fieldType, name⟩, hField, rest, hBelow, rfl⟩ := (hSub spec flat hFlat _).mp hMem
        exact ⟨name :: rest, .embedded hBracket hSpec hField hBelow, rfl⟩
      · rintro ⟨rest, hBelow, rfl⟩
        cases hBelow with
        | here hLeaf =>
          obtain hArray | hNone := hLeaf
          · exact absurd hArray hBracket
          · rw [hNone] at hSpec
            cases hSpec
        | @embedded _ fieldType name _ _ rest _ hSpec' hField hPath =>
          cases hSpec.symm.trans hSpec'
          exact ⟨(leafType, name :: rest), (hSub spec flat hFlat _).mpr ⟨_, hField, rest, hPath, rfl⟩, rfl⟩
    · rename_i hNone
      cases hRest
      exact hKept (.inr hNone)
  · rename_i hArity
    cases hRest
    refine hKept (.inl ?_)
    by_contra hBracket
    rw [parseType] at hParse
    split at hParse
    · cases hParse
    · cases hParse
      exact hArity rfl

theorem mem_flattenFields
    (hSub : ∀ spec flat, sub (specFields spec) = some flat → ∀ entry,
      entry ∈ flat ↔ ∃ field ∈ spec.fields, ∃ rest, LeafBelow ctx field.1 rest entry.1 ∧ entry.2 = field.2 :: rest)
    {fields flat : Fields} (h : flattenFields sub ctx fields = some flat) (entry : Str × Path) :
    entry ∈ flat ↔ ∃ field ∈ fields, ∃ rest, LeafBelow ctx field.1 rest entry.1 ∧ entry.2 = field.2 ++ rest := by
  induction fields generalizing flat with
  | nil =>
    cases h
    simp
  | cons field fields ih =>
    obtain ⟨type, path⟩ := field
    obtain ⟨front, hFront, hRest⟩ := Option.bind_eq_some_iff.mp h
    obtain ⟨back, hBack, rfl⟩ := Option.map_eq_some_iff.mp hRest
    rw [List.mem_append, mem_flattenField hSub hFront, ih hBack, List.exists_mem_cons_iff]

end

theorem mem_flatten {ctx : MsgContext} (fuel : Nat) {spec : MsgSpec} {flat : Fields}
    (h : flatten ctx fuel (specFields spec) = some flat) (entry : Str × Path) :
    entry ∈ flat ↔ ∃ field ∈ spec.fields, ∃ rest, LeafBelow ctx field.1 rest entry.1 ∧ entry.2 = field.2 :: rest := by
  induction fuel generalizing spec flat entry with
  | zero => cases h
  | succ fuel ih =>
    have hMem := mem_flattenFields (fun spec flat hFlat entry => ih hFlat entry) h entry
    rw [hMem]
    constructor
    · rintro ⟨field, hField, rest, hBelow, hPath⟩
      obtain ⟨⟨type, name⟩, hName, rfl⟩ := List.mem_map.mp hField
      exact ⟨(type, name), hName, rest, hBelow, hPath⟩
    · rintro ⟨⟨type, name⟩, hName, rest, hBelow, hPath⟩
      exact ⟨(type, [name]), List.mem_map.mpr ⟨(type, name), hName, rfl⟩, rest, hBelow, hPath⟩

theorem mem_flatten_slots {ctx : MsgContext} {fuel : Nat} {spec : MsgSpec} {flat : Fields}
    (h : flatten ctx fuel (slots spec) = some flat) (entry : Str × Path) :
    entry ∈ flat ↔ ∃ field ∈ spec.fields, ∃ rest, LeafBelow ctx field.1 rest entry.1 ∧
      entry.2 = remapReserved field.2 :: rest := by
  cases fuel with
  | zero => cases h
  | succ fuel =>
    have hMem := mem_flattenFields (fun spec flat hFlat entry => mem_flatten fuel hFlat entry) h entry
    rw [hMem]
    constructor
    · rintro ⟨⟨type, path⟩, hField, rest, hBelow, hPath⟩
      obtain ⟨name, hName, rfl⟩ := mem_slots.mp hField
      exact ⟨(type, name), hName, rest, hBelow, hPath⟩
    · rintro ⟨⟨type, name⟩, hName, rest, hBelow, hPath⟩
      exact ⟨(type, [remapReserved name]), mem_slots.mpr ⟨name, hName, rfl⟩, rest, hBelow, hPath⟩

theorem middleNamesKept_iff {ctx : MsgContext} {fuel : Nat} {spec : MsgSpec} {flat : Fields}
    (h : flatten ctx fuel (slots spec) = some flat) :
    MiddleNamesKept ctx spec ↔ ∀ entry ∈ flat, ∀ name ∈ entry.2.tail.dropLast, remapReserved name = name := by
  constructor
  · intro hKept entry hEntry
    obtain ⟨field, hField, rest, hBelow, hPath⟩ := (mem_flatten_slots h entry).mp hEntry
    rw [hPath]
    exact hKept field hField rest entry.1 hBelow
  · intro hKept field hField path leaf hBelow
    exact hKept (leaf, remapReserved field.2 :: path) ((mem_flatten_slots h _).mpr ⟨field, hField, path, hBelow, rfl⟩)

/-! ## Names of slots -/

theorem LeafBelow.ways {ctx : MsgContext} {type leaf : Str} {path : Path} (h : LeafBelow ctx type path leaf)
    {rest : List Step} (hRest : Below ctx leaf rest) : Below ctx type (attrs (slotPath path) ++ rest) := by
  induction h with
  | here => exact hRest
  | embedded hBracket hSpec hField _ ih => exact .attr hBracket hSpec (mem_slots.mpr ⟨_, hField, rfl⟩) (ih hRest)

theorem Below.slots {ctx : MsgContext} {type : Str} {steps : List Step} (h : Below ctx type steps) {name : Str}
    (hName : .attr name ∈ steps) : ∃ field, name = remapReserved field := by
  induction h with
  | here => cases hName
  | attr _ _ hSlot _ ih =>
    obtain hEq | hName := List.mem_cons.mp hName
    · obtain ⟨field, -, hPath⟩ := mem_slots.mp hSlot
      cases hEq
      exact ⟨field, List.singleton_inj.mp hPath⟩
    · exact ih hName
  | element _ _ _ ih =>
    obtain hEq | hName := List.mem_cons.mp hName
    · cases hEq
    · exact ih hName

theorem NamesSlots.slots {ctx : MsgContext} {spec : MsgSpec} {steps : List Step} (h : NamesSlots ctx spec steps)
    {name : Str} (hName : .attr name ∈ steps) : ∃ field, name = remapReserved field := by
  obtain ⟨type, slot, rest, hSlot, hRest, rfl⟩ := h
  obtain hEq | hName := List.mem_cons.mp hName
  · obtain ⟨field, -, hPath⟩ := mem_slots.mp hSlot
    cases hEq
    exact ⟨field, List.singleton_inj.mp hPath⟩
  · exact hRest.slots hName

theorem mem_remapPath {path : Path} {name : Str} (h : name ∈ path.dropLast) : name ∈ remapPath path := by
  induction path with
  | nil => cases h
  | cons first path ih =>
    rcases eq_or_ne path [] with rfl | hNe
    · cases h
    · rw [List.dropLast_cons_of_ne_nil hNe] at h
      rw [remapPath_cons hNe]
      obtain rfl | h := List.mem_cons.mp h
      · exact List.mem_cons_self
      · exact List.mem_cons_of_mem _ (ih h)

/-! ## The functions -/

def start : Origins := fun y => ⟨if y = .self then .self else .plain, []⟩

def Origin.Legal (o : Origin) : Prop := ∀ name, .attr name ∈ o.steps → name ∉ kwlist

/-- The attributes on the way are slots, each of the class of the object that it is read from. -/
def Origin.NamesAttributes (ctx : MsgContext) (spec : MsgSpec) (o : Origin) : Prop :=
  o.root = .self ∧ NamesSlots ctx spec o.steps ∨ NamesNew ctx o

/-- All ways through attributes in a method are legal and lead through slots. -/
def RealAttributes (ctx : MsgContext) (spec : MsgSpec) (code : List Stmt) : Prop :=
  ∀ a ∈ (accessesAll code start).1, a.Legal ∧ a.NamesAttributes ctx spec

theorem Origin.NamesAttributes.slots {ctx : MsgContext} {spec : MsgSpec} {o : Origin} (h : o.NamesAttributes ctx spec)
    {name : Str} (hName : .attr name ∈ o.steps) : ∃ field, name = remapReserved field := by
  obtain ⟨-, hSlots⟩ | ⟨cls, sub, -, -, hSlots⟩ := h
  · exact hSlots.slots hName
  · exact hSlots.slots hName

theorem Origin.NamesAttributes.legal {ctx : MsgContext} {spec : MsgSpec} {o : Origin} (h : o.NamesAttributes ctx spec) :
    o.Legal := by
  intro name hName hWord
  obtain ⟨field, rfl⟩ := h.slots hName
  exact remapReserved_not_mem field (List.mem_append_left _ hWord)

section

variable {ctx : MsgContext} {spec : MsgSpec} {serialize : Bool} {fuel counter counter' : Nat} {package : Str}
  {flat : Fields} {code : List Stmt}

theorem LeafBelow.named (hCtx : ProperContext ctx) {type leaf : Str} {path : Path} (h : LeafBelow ctx type path leaf)
    (hNamed : NamedType (bareMsgType type)) : NamedType (bareMsgType leaf) := by
  induction h with
  | here => exact hNamed
  | embedded _ hSpec hField _ ih => exact ih (hCtx _ _ hSpec _ (List.of_mem_zip hField).1)

theorem properFields_flattened (hCtx : ProperContext ctx) (hSpec : MsgSpec.HasNamedTypes spec)
    (hFlat : flatten ctx fuel (slots spec) = some flat) : ProperFields (makePythonSafe flat) := by
  intro field hField
  obtain ⟨entry, hEntry, rfl⟩ := List.mem_map.mp hField
  obtain ⟨own, hOwn, rest, hBelow, hPath⟩ := (mem_flatten_slots hFlat entry).mp hEntry
  refine ⟨?_, hBelow.named hCtx (hSpec own.1 (List.of_mem_zip hOwn).1)⟩
  show remapPath entry.2 ≠ []
  rw [hPath, remapPath_slot]
  exact List.cons_ne_nil _ _

theorem flattened_namesAttributes_iff (hCtx : ProperContext ctx) (hSpec : MsgSpec.HasNamedTypes spec)
    (hFlat : flatten ctx fuel (slots spec) = some flat)
    (h : serializer ctx serialize fuel ⟨.self, 1⟩ package (makePythonSafe flat) counter = some (code, counter'))
    {vars : Origins} (hSelf : vars .self = ⟨.self, []⟩) :
    (∀ a ∈ (accessesAll code vars).1, a.NamesAttributes ctx spec) ↔ MiddleNamesKept ctx spec := by
  obtain ⟨hFollows, -⟩ := subFollows_serializer hCtx serialize fuel ⟨.self, 1⟩ package (makePythonSafe flat) counter code
    counter' trivial (properFields_flattened hCtx hSpec hFlat) h
  constructor
  · intro hAll
    rw [middleNamesKept_iff hFlat]
    intro entry hEntry name hName
    by_contra hChanged
    have hReached := hFollows.reached vars (entry.1, remapPath entry.2) (List.mem_map.mpr ⟨entry, hEntry, rfl⟩)
    rw [hSelf] at hReached
    have hMiddle : name ∈ entry.2.dropLast := by
      obtain ⟨own, -, rest, -, hPath⟩ := (mem_flatten_slots hFlat entry).mp hEntry
      rw [hPath] at hName ⊢
      rw [List.tail_cons] at hName
      rw [List.dropLast_cons_of_ne_nil (List.ne_nil_of_mem (List.mem_of_mem_dropLast hName))]
      exact List.mem_cons_of_mem _ hName
    have hStep : Step.attr name ∈ attrs (remapPath entry.2) := List.mem_map.mpr ⟨name, mem_remapPath hMiddle, rfl⟩
    obtain ⟨field, hField⟩ := (hAll _ hReached).slots hStep
    exact ne_remapReserved hChanged field hField.symm
  · intro hKept a ha
    have hReaches := hFollows.within vars a ha
    rw [hSelf] at hReaches
    obtain ⟨field, hField, rest, hRest, rfl⟩ | hNew := hReaches
    · obtain ⟨entry, hEntry, rfl⟩ := List.mem_map.mp hField
      obtain ⟨own, hOwn, path, hBelow, hPath⟩ := (mem_flatten_slots hFlat entry).mp hEntry
      have hSafe : remapPath entry.2 = remapReserved own.2 :: slotPath path := by
        rw [hPath, remapPath_slot, remapPath_eq_slotPath (hKept own hOwn path entry.1 hBelow)]
      refine .inl ⟨rfl, own.1, remapReserved own.2, attrs (slotPath path) ++ rest, mem_slots.mpr ⟨own.2, hOwn, rfl⟩,
        hBelow.ways hRest, ?_⟩
      show attrs (remapPath entry.2) ++ rest = _
      rw [hSafe]
      rfl
    · exact .inr hNew

theorem serializeFn_realAttributes_iff (hCtx : ProperContext ctx) (hSpec : MsgSpec.HasNamedTypes spec)
    (h : serializeFn ctx fuel package (slots spec) counter = some code) :
    RealAttributes ctx spec code ↔ MiddleNamesKept ctx spec := by
  obtain ⟨flat, hFlat, hRest⟩ := Option.bind_eq_some_iff.mp h
  obtain ⟨⟨code, counter'⟩, hCode, rfl⟩ := Option.map_eq_some_iff.mp hRest
  have hSelf : start .self = ⟨.self, []⟩ := rfl
  rw [← flattened_namesAttributes_iff hCtx hSpec hFlat hCode hSelf]
  exact forall₂_congr fun a _ => ⟨fun hReal => hReal.2, fun hNames => ⟨hNames.legal, hNames⟩⟩

theorem instantiate_namesAttributes {fields : Fields} (hFields : fields ⊆ slots spec) {front : List Stmt}
    (h : instantiate ctx package fields = some front) {vars : Origins} (hSelf : vars .self = ⟨.self, []⟩) :
    (∀ a ∈ (accessesAll front vars).1, a.NamesAttributes ctx spec) ∧ (accessesAll front vars).2 = vars := by
  induction fields generalizing front with
  | nil =>
    cases h
    exact ⟨fun a ha => absurd ha List.not_mem_nil, rfl⟩
  | cons field fields ih =>
    obtain ⟨type, path⟩ := field
    obtain ⟨own, hOwn, hRest⟩ := Option.bind_eq_some_iff.mp h
    obtain ⟨rest, hMore, rfl⟩ := Option.map_eq_some_iff.mp hRest
    obtain ⟨hEach, hVars⟩ := ih (List.subset_of_cons_subset hFields) hMore
    have hSlot := hFields List.mem_cons_self
    obtain ⟨name, -, rfl⟩ := mem_slots.mp hSlot
    have hHead : (∀ a ∈ (accessesAll own vars).1, a.NamesAttributes ctx spec) ∧ (accessesAll own vars).2 = vars := by
      split at hOwn
      · obtain ⟨cls, -, rfl⟩ := Option.map_eq_some_iff.mp hOwn
        refine ⟨fun a ha => ?_, rfl⟩
        have hOrigin : a = (vars .self).behind [.attr (remapReserved name)] := List.mem_singleton.mp ha
        rw [hOrigin, hSelf]
        exact .inl ⟨rfl, type, remapReserved name, [], hSlot, .here type, rfl⟩
      · cases hOwn
        exact ⟨fun a ha => absurd ha List.not_mem_nil, rfl⟩
    rw [accessesAll_append, hHead.2]
    refine ⟨fun a ha => ?_, hVars⟩
    obtain ha | ha := List.mem_append.mp ha
    · exact hHead.1 a ha
    · exact hEach a ha

theorem postDeserialize_namesAttributes {fields : Fields} (hFields : fields ⊆ slots spec) {vars : Origins}
    (hSelf : vars .self = ⟨.self, []⟩) : ∀ a ∈ (accessesAll (postDeserialize fields) vars).1, a.NamesAttributes ctx spec := by
  have hCanon : ∀ fields : Fields, fields ⊆ slots spec →
      ∀ a ∈ (accessesAll (fields.map fun field => .canon ⟨.self, field.2⟩) vars).1, a.NamesAttributes ctx spec := by
    intro fields
    induction fields with
    | nil => exact fun _ a ha => absurd ha List.not_mem_nil
    | cons field fields ih =>
      obtain ⟨type, path⟩ := field
      intro hFields a ha
      have hSlot := hFields List.mem_cons_self
      obtain ⟨name, -, rfl⟩ := mem_slots.mp hSlot
      obtain ha | ha := List.mem_append.mp ha
      · have hOrigin : a = (vars .self).behind [.attr (remapReserved name)] := List.mem_singleton.mp ha
        rw [hOrigin, hSelf]
        exact .inl ⟨rfl, type, remapReserved name, [], hSlot, .here type, rfl⟩
      · exact ih (List.subset_of_cons_subset hFields) a ha
  exact hCanon _ fun field hField => hFields (List.mem_of_mem_filter hField)

theorem deserializeFn_realAttributes_iff (hCtx : ProperContext ctx) (hSpec : MsgSpec.HasNamedTypes spec)
    (h : deserializeFn ctx fuel package (slots spec) counter = some code) :
    RealAttributes ctx spec code ↔ MiddleNamesKept ctx spec := by
  obtain ⟨front, hFront, hRest⟩ := Option.bind_eq_some_iff.mp h
  obtain ⟨flat, hFlat, hMore⟩ := Option.bind_eq_some_iff.mp hRest
  obtain ⟨⟨code, counter'⟩, hCode, rfl⟩ := Option.map_eq_some_iff.mp hMore
  have hSelf : start .self = ⟨.self, []⟩ := rfl
  obtain ⟨hFrontNames, hVars⟩ := instantiate_namesAttributes (List.Subset.refl _) hFront hSelf
  obtain ⟨hFollows, -⟩ := subFollows_serializer hCtx false fuel ⟨.self, 1⟩ package (makePythonSafe flat) counter code
    counter' trivial (properFields_flattened hCtx hSpec hFlat) hCode
  have hBehind : (accessesAll code start).2 .self = ⟨.self, []⟩ := hFollows.same start .self trivial
  have hPost : ∀ a ∈ (accessesAll (postDeserialize (slots spec)) (accessesAll code start).2).1, a.NamesAttributes ctx spec :=
    postDeserialize_namesAttributes (List.Subset.refl (slots spec)) hBehind
  have hAll : (accessesAll (front ++ .rewind :: code ++ postDeserialize (slots spec)) start).1 =
      (accessesAll front start).1 ++ (accessesAll code start).1 ++
        (accessesAll (postDeserialize (slots spec)) (accessesAll code start).2).1 := by
    rw [accessesAll_append, accessesAll_append, hVars, accessesAll, Stmt.accesses]
    rfl
  rw [← flattened_namesAttributes_iff hCtx hSpec hFlat hCode hSelf]
  constructor
  · intro hReal a ha
    refine (hReal a ?_).2
    rw [hAll]
    exact List.mem_append_left _ (List.mem_append_right _ ha)
  · intro hNames a ha
    rw [hAll] at ha
    have hName : a.NamesAttributes ctx spec := by
      obtain ha | ha := List.mem_append.mp ha
      · obtain ha | ha := List.mem_append.mp ha
        · exact hFrontNames a ha
        · exact hNames a ha
      · exact hPost a ha
    exact ⟨hName.legal, hName⟩

end

/-! ## Specifications that are loaded -/

variable {F : Type} {py : Python F}

/-- The loader makes the specification of a text, under the full name of a message. -/
def Accepts (py : Python F) (name : Str) (spec : MsgSpec) : Prop :=
  MessageName py name ∧ ∃ ctx text loaded registered,
    loadMsgFromString py ctx text name = .ok (loaded, registered) ∧ loaded.spec = spec

/-- Beside the types that are always there, what is registered is what the loader made. -/
def AcceptedContext (py : Python F) (ctx : MsgContext) : Prop :=
  ∀ package base spec, ctx.registered package base = some spec →
    (createDefault py).registered package base = some spec ∨
      ∃ name, packageResourceName name = some (package, base) ∧ Accepts py name spec

theorem namedType_resolveFieldType {package fieldType : Str} (hPackage : package ≠ []) (hPlain : '[' ∉ package)
    (hSuffix : '/' ∉ arraySuffix fieldType) : NamedType (bareMsgType (resolveFieldType package fieldType)) := by
  obtain ⟨-, hKept⟩ | ⟨-, hKept⟩ | ⟨hOwn, hKept⟩ := resolveFieldType_cases hPackage fieldType
  · rw [hKept]
    exact .inr (by decide)
  · have hFront : '[' ∉ package ++ ['/'] := by
      rw [List.mem_append, not_or]
      exact ⟨hPlain, by decide⟩
    have hText : package ++ '/' :: fieldType = package ++ ['/'] ++ fieldType := by simp
    rw [hKept, hText, bareMsgType_prepend hFront]
    exact .inr (List.mem_append_left _ (List.mem_append_right _ (List.mem_singleton_self _)))
  · rw [hKept]
    obtain hSlash | hBuiltin := hOwn
    · exact .inr ((mem_bareMsgType_iff hSuffix).mpr hSlash)
    · exact .inl (List.contains_iff_mem.mp hBuiltin)

theorem packageOf_messageName {name package base : Str} (h : MessageName py name)
    (hKey : packageResourceName name = some (package, base)) : package ≠ [] ∧ '[' ∉ package := by
  have hSplit := h.typeName.eq_of_key hKey
  constructor
  · rintro rfl
    have hLegal := h.legal
    rw [hSplit] at hLegal
    cases hLegal
  · exact fun hMem => h.typeName.plain (hSplit ▸ List.mem_append_left _ hMem)

theorem Accepts.hasNamedTypes {name : Str} {spec : MsgSpec} (h : Accepts py name spec) : MsgSpec.HasNamedTypes spec := by
  obtain ⟨hName, ctx, text, loaded, registered, hLoad, rfl⟩ := h
  obtain ⟨package, base, ds, hKey, hLines, hSpec, -⟩ := loadMsgFromString_eq_ok_iff.mp hLoad
  obtain ⟨-, hDeclares, -⟩ := specOf_eq_ok_iff.mp hSpec
  obtain ⟨hPackage, hPlain⟩ := packageOf_messageName hName hKey
  rw [MsgSpec.HasNamedTypes, hDeclares.types]
  refine loadLines_types (fun line field hField => ?_) hLines
  rw [loadFieldLine] at hField
  split at hField
  · rename_i fieldType fieldName _
    split at hField
    · cases hField
    · split at hField
      · cases hField
      · rename_i hValid
        cases hField
        rw [Bool.not_eq_true', Bool.not_eq_false] at hValid
        exact namedType_resolveFieldType hPackage hPlain (isValidMsgType_arraySuffix hValid)
  · cases hField

theorem namedTypes_createDefault (py : Python F) {package base : Str} {spec : MsgSpec}
    (h : (createDefault py).registered package base = some spec) : MsgSpec.HasNamedTypes spec := by
  have hLoad : ∀ (ctx : MsgContext) (text name : Str) (ds : List (Declaration F)), '/' ∉ name →
      loadLines py [] (split '\n' text) = .ok ds → (∀ type ∈ typesOf ds, NamedType (bareMsgType type)) →
      (loadInto py ctx text name).registered package base = some spec →
      ctx.registered package base = some spec ∨ MsgSpec.HasNamedTypes spec := by
    intro ctx text name ds hSlash hLines hTypes hRegistered
    rw [loadInto] at hRegistered
    split at hRegistered
    · exact .inl hRegistered
    · rename_i loaded registered hOk
      obtain ⟨package', base', ds', hKey, hLines', hSpec, hRegister⟩ := loadMsgFromString_eq_ok_iff.mp hOk
      rw [packageResourceName, if_neg hSlash] at hKey
      cases hKey
      cases hLines.symm.trans hLines'
      obtain ⟨key, hKey, rfl⟩ := Option.map_eq_some_iff.mp hRegister
      dsimp only at hRegistered
      split at hRegistered
      · cases hRegistered
        obtain ⟨-, hDeclares, -⟩ := specOf_eq_ok_iff.mp hSpec
        rw [← hDeclares.types] at hTypes
        exact .inr hTypes
      · exact .inl hRegistered
  have hPrimitive : ∀ type ∈ [str "uint32", str "int32"], NamedType (bareMsgType type) := by
    intro type hType
    refine .inl ?_
    revert type
    decide
  obtain hTime | hTypes := hLoad _ _ _ [.field (str "int32") (str "secs"), .field (str "int32") (str "nsecs")] (by decide) rfl
    (fun type hType => hPrimitive type (by
      simp only [typesOf, List.filterMap_cons, Declaration.type?, List.filterMap_nil, List.mem_cons, List.not_mem_nil,
        or_false, or_self] at hType ⊢
      exact .inr hType)) h
  · obtain hNone | hTypes := hLoad _ _ _ [.field (str "uint32") (str "secs"), .field (str "uint32") (str "nsecs")] (by decide) rfl
      (fun type hType => hPrimitive type (by
        simp only [typesOf, List.filterMap_cons, Declaration.type?, List.filterMap_nil, List.mem_cons, List.not_mem_nil,
          or_false, or_self] at hType ⊢
        exact .inl hType)) hTime
    · cases hNone
    · exact hTypes
  · exact hTypes

theorem AcceptedContext.proper {ctx : MsgContext} (h : AcceptedContext py ctx) : ProperContext ctx := by
  intro type spec hSpec
  obtain ⟨⟨package, base⟩, -, hRegistered⟩ := Option.bind_eq_some_iff.mp hSpec
  obtain hDefault | ⟨name, -, hAccepts⟩ := h package base spec hRegistered
  · exact namedTypes_createDefault py hDefault
  · exact hAccepts.hasNamedTypes

theorem registered_loadInto {ctx : MsgContext} {text name : Str} (hPlain : '[' ∉ name) {package base : Str} {spec : MsgSpec}
    (h : (loadInto py ctx text name).registered package base = some spec) :
    ctx.registered package base = some spec ∨ packageResourceName name = some (package, base) := by
  rw [loadInto] at h
  split at h
  · exact .inl h
  · rename_i loaded registered hLoad
    obtain ⟨package', base', ds, hKey, -, -, hRegister⟩ := loadMsgFromString_eq_ok_iff.mp hLoad
    rw [register_eq hPlain hKey] at hRegister
    cases hRegister
    dsimp only at h
    split at h
    · rename_i hSame
      cases hSame
      exact .inr hKey
    · exact .inl h

theorem AcceptedContext.primitivesUnregistered {ctx : MsgContext} (h : AcceptedContext py ctx) : PrimitivesUnregistered ctx := by
  have hNames : ∀ type ∈ primitiveTypes, packageResourceName (bareMsgType type) = some ([], type) ∧
      packageResourceName (str "time") ≠ some ([], type) ∧ packageResourceName (str "duration") ≠ some ([], type) :=
    List.forall_iff_forall_mem.mp (by decide)
  intro type hType
  obtain ⟨hKey, hTime, hDuration⟩ := hNames type hType
  rw [MsgContext.getRegistered, hKey, Option.bind_some]
  by_contra hSome
  obtain ⟨spec, hSpec⟩ := Option.ne_none_iff_exists'.mp hSome
  obtain hDefault | ⟨name, hName, ⟨hMessage, -⟩⟩ := h [] type spec hSpec
  · obtain hDefault | hSame := registered_loadInto (by decide) hDefault
    · obtain hNone | hSame := registered_loadInto (by decide) hDefault
      · cases hNone
      · exact hTime hSame
    · exact hDuration hSame
  · have hLegal := hMessage.legal
    rw [hMessage.typeName.eq_of_key hName] at hLegal
    cases hLegal

theorem acceptedContext_createDefault (py : Python F) : AcceptedContext py (createDefault py) := fun _ _ _ h => .inl h

theorem AcceptedContext.loadInto {ctx : MsgContext} (h : AcceptedContext py ctx) {name : Str} (hName : MessageName py name)
    (text : Str) : AcceptedContext py (loadInto py ctx text name) := by
  rw [Msg.loadInto]
  split
  · exact h
  · rename_i loaded registered hLoad
    obtain ⟨package, base, ds, hKey, -, -, hRegister⟩ := loadMsgFromString_eq_ok_iff.mp hLoad
    rw [register_eq hName.typeName.plain hKey] at hRegister
    cases hRegister
    intro package' base' spec hRegistered
    dsimp only at hRegistered
    split at hRegistered
    · rename_i hSame
      cases hSame
      cases hRegistered
      exact .inr ⟨name, hKey, hName, ctx, text, loaded, _, hLoad, rfl⟩
    · exact h package' base' spec hRegistered

theorem AcceptedContext.accepts {ctx : MsgContext} (h : AcceptedContext py ctx) {type package base : Str} {spec : MsgSpec}
    (hKey : packageResourceName (bareMsgType type) = some (package, base)) (hPackage : package ≠ [])
    (hSpec : ctx.getRegistered type = some spec) : ∃ name, Accepts py name spec := by
  rw [MsgContext.getRegistered, hKey, Option.bind_some] at hSpec
  obtain hDefault | ⟨name, -, hAccepts⟩ := h package base spec hSpec
  · exact absurd ((onlyBuiltins_createDefault py).builtin _ _ _ hDefault).1 hPackage
  · exact ⟨name, hAccepts⟩

/-- `pkg/C` holds a `pkg/B`, and that a `pkg/A`, which holds a string. -/
def nested (first middle last : String) : MsgContext :=
  loadInto asciiPython
    (loadInto asciiPython
      (loadInto asciiPython (createDefault asciiPython) (str "string " ++ str last) (str "pkg/A"))
      (str "A " ++ str middle) (str "pkg/B"))
    (str "B " ++ str first) (str "pkg/C")

theorem acceptedContext_nested (first middle last : String) : AcceptedContext asciiPython (nested first middle last) := by
  have hA : MessageName asciiPython (str "pkg/A") := ⟨⟨by decide, by decide, fun base hBase => by cases hBase⟩, by decide⟩
  have hB : MessageName asciiPython (str "pkg/B") := ⟨⟨by decide, by decide, fun base hBase => by cases hBase⟩, by decide⟩
  have hC : MessageName asciiPython (str "pkg/C") := ⟨⟨by decide, by decide, fun base hBase => by cases hBase⟩, by decide⟩
  exact (((acceptedContext_createDefault asciiPython).loadInto hA _).loadInto hB _).loadInto hC _

theorem serializer_string {ctx : MsgContext} {serialize : Bool} (fuel : Nat) (s : Scope) (package : Str) (path : Path)
    (counter : Nat) : serializer ctx serialize (fuel + 1) s package [(str "string", path)] counter =
      some (stringSerializer (str "string") none true (s.ref path) serialize, counter) := by
  have hSimple : isSimple (str "string") = false := by decide
  have hNone : simpleSerializers serialize s [] = some [] := by
    rw [simpleSerializers, chunks_nil]
    rfl
  rw [serializer]
  dsimp only
  rw [if_neg (fun hEmpty => List.cons_ne_nil _ _ hEmpty.2), serializeFields, hSimple, if_neg Bool.false_ne_true, hNone,
    Option.bind_some, complexSerializer_string, Option.bind_some]
  dsimp only
  rw [serializeFields, hNone, Option.map_some, Option.map_some, List.nil_append, List.append_nil]

theorem serializeFn_nested {first middle last : String} {path : Path}
    (hFlat : (((nested first middle last).getRegistered (str "pkg/C")).bind fun spec =>
      flatten (nested first middle last) 3 (slots spec)) = some [(str "string", path)]) :
    ∃ spec name code, (nested first middle last).getRegistered (str "pkg/C") = some spec ∧
      Accepts asciiPython name spec ∧ flatten (nested first middle last) 3 (slots spec) = some [(str "string", path)] ∧
      serializeFn (nested first middle last) 3 spec.package (makePythonSafe (specFields spec)) 0 = some code := by
  obtain ⟨spec, hSpec, hFlat⟩ := Option.bind_eq_some_iff.mp hFlat
  have hKey : packageResourceName (bareMsgType (str "pkg/C")) = some (str "pkg", str "C") := by decide
  obtain ⟨name, hAccepts⟩ := (acceptedContext_nested first middle last).accepts hKey (by decide) hSpec
  refine ⟨spec, name, stringSerializer (str "string") none true ⟨.self, remapPath path⟩ true, hSpec, hAccepts, hFlat, ?_⟩
  have hSlots : flatten (nested first middle last) 3 (makePythonSafe (specFields spec)) = some [(str "string", path)] := hFlat
  rw [serializeFn, hSlots, Option.bind_some, makePythonSafe, List.map_cons, List.map_nil, serializer_string]
  rfl

end XcRos.Genpy
