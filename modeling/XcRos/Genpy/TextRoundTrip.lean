import XcRos.Genpy.TextFields

/-! # The text form read back

A message is printed, the text is read as YAML, and a new instance is filled from it. This gives a message that is equal
unless one comes to bytes, to a message without fields in another message, or to a slot whose name is read as something
else: bytes come back as a string, and the other two are refused.
-/

namespace XcRos.Genpy

open XcRos.Foundation XcRos.Msg

/-! ## The round trip -/

def Classes.generated (env : Classes) (ctx : MsgContext) (fuel : Nat) : Classes :=
  { env with
    slotTypes := XcRos.Genpy.slotTypes ctx
    new := fun cls => (newInstance ctx fuel cls).map PyObj.ofPyVal }

/-- A list of what has been read, or an empty list for `None`. -/
def inList : PyObj → PyObj
  | .none => .list []
  | loaded => .list [loaded]

/-- What has been read, or an empty list for `None`. -/
def asRead : PyObj → PyObj
  | .none => .list []
  | loaded => loaded

/-- A message is printed, read and filled into a new instance of its class; `none` is an exception. -/
def roundTrip (ctx : MsgContext) (py : Printer) (y : Yaml) (env : Classes) (args : PyObj → PyObj) (cls : Str) (m : PyVal) :
    Option PyObj :=
  (strify ctx py [] m).bind fun text => (y.load text).bind fun loaded => (env.new cls).bind fun newInst =>
    (fillMessageArgs env [] newInst (args loaded)).toOption

section

variable (y : Yaml)

mutual

/-- There are no bytes, no message without fields, and no slot whose name is read as something else. -/
def Ty.Readable : Ty → PyVal → Prop
  | .array _ _, .bytes _ => False
  | .array _ t, .list vs => ∀ w ∈ vs, t.Readable w
  | .message _ members, .obj _ attrs => attrs ≠ [] ∧ members.Readable attrs
  | _, _ => True

def Members.Readable : Members → List (Str × PyVal) → Prop
  | .cons name t rest, (_, v) :: attrs =>
    y.key (remapReserved name) = some (.str (remapReserved name)) ∧ t.Readable v ∧ rest.Readable attrs
  | _, _ => True

end

end

theorem Members.readable_fields (y : Yaml) (members : Members) {attrs : List (Str × PyVal)} (h : members.Canonical attrs) :
    members.Readable y attrs ↔
      ∀ f ∈ members.fields attrs, y.key f.1 = some (.str f.1) ∧ f.2.1.Readable y f.2.2 := by
  induction members using Members.listInduction generalizing attrs with
  | nil => exact iff_of_true trivial fun _ h => absurd h List.not_mem_nil
  | cons name t rest ih =>
    obtain ⟨v, more, rfl, _, hRest⟩ := h
    rw [Members.Readable, ih hRest, Members.fields, List.forall_mem_cons, and_assoc]

/-! ## Messages in fields and in lists -/

section

variable {y : Yaml} {unicodeWord : Char → Bool} {env : Classes} {pre : Str}

def ElementRecovered (y : Yaml) (env : Classes) (pre : Str) (t : Ty) (v : PyVal) : Prop :=
  ∃ w, (t.block v).value y.meaning = some w ∧
    ∃ r, elementResult env [] pre (PyObj.ofPyVal t.fresh) w = .ok r ∧ Equals false v r

theorem equals_obj {loose : Bool} {cls : Str} {attrs : List (Str × PyVal)} {rs : List (Str × PyObj)} :
    Equals loose (.obj cls attrs) (.obj cls rs) ↔ EqualAttrs attrs rs := by
  constructor
  · rintro ⟨w, hw, hEqual⟩
    obtain ⟨others, hOthers, rfl⟩ := Option.map_eq_some_iff.mp hw
    rw [PyVal.eqv, Bool.and_eq_true] at hEqual
    exact ⟨others, hOthers, hEqual.2⟩
  · rintro ⟨others, hOthers, hEqual⟩
    refine ⟨.obj cls others, by rw [PyObj.toPyVal?, hOthers]; rfl, ?_⟩
    rw [PyVal.eqv, hEqual, beq_self_eq_true]
    rfl

theorem value_message (cls : Str) {members : Members}
    (hStamp : isStamp cls = true → members = stampMembers .uint32 ∨ members = stampMembers .int32)
    {attrs : List (Str × PyVal)} (h : members.Canonical attrs) :
    ((Ty.message cls members).block (.obj cls attrs)).value y.meaning =
      (Block.mapping (members.entries attrs)).value y.meaning := by
  rw [Ty.block]
  split
  · rename_i hIs
    obtain ⟨secs, nsecs, rfl⟩ := canonical_stamp (hStamp hIs) h
    have hPadded : (Block.scalar (nineWide.fill nsecs)).value y.meaning = (Block.scalar (intText nsecs)).value y.meaning :=
      congrArg y.scalar (dropBlanks_blanks _ _)
    have hEntries : Block.entryValues y.meaning (stampEntries [(str "secs", .int secs), (str "nsecs", .int nsecs)]) =
        Block.entryValues y.meaning [(str "secs", .scalar (intText secs)), (str "nsecs", .scalar (intText nsecs))] := by
      simp only [stampEntries, Block.entryValues, hPadded]
    obtain rfl | rfl := hStamp hIs <;> exact congrArg (Option.map fun items => PyObj.dict (dictOf items)) hEntries
  · rfl

theorem recovered_message {cls : Str} {members : Members} {attrs : List (Str × PyVal)} (h : members.Canonical attrs)
    (fill : PyObj → Except FillFault PyObj) (hNone : (fill .none).toOption = none)
    (hDict : ∀ items, fill (.dict items) = (fillItems env [] pre cls items (PyObj.ofAttrs members.fresh)).map (.obj cls))
    (loose : Bool) (hSlots : members.slots.Nodup)
    (hKey : ∀ f ∈ members.fields attrs, ∀ s, y.key f.1 = some (.str s) → s = f.1) :
    (∃ w, (Block.mapping (members.entries attrs)).value y.meaning = some w ∧
      ∃ r, fill w = .ok r ∧ Equals loose (.obj cls attrs) r) ↔
      attrs ≠ [] ∧ ∀ f ∈ members.fields attrs,
        y.key f.1 = some (.str f.1) ∧ Recovered y env pre cls members.slots f := by
  obtain ⟨hEntries, hOlds, hAttrs, hNames⟩ := members.fields_entries h
  have hFields := recovered_fields y env pre cls (members.fields attrs)
    (by rw [hNames]; exact hSlots) hKey
  rw [hEntries, hOlds, hAttrs, hNames] at hFields
  rw [← hFields]
  have hEmpty : (members.entries attrs).isEmpty = true ↔ attrs = [] := by
    rw [← hEntries, List.isEmpty_iff, List.map_eq_nil_iff]
    constructor
    · intro hNil
      rw [← hAttrs, hNil]
      rfl
    · exact fun hNil => List.map_eq_nil_iff.mp (hAttrs.trans hNil)
  constructor
  · rintro ⟨w, hw, r, hr, hEqual⟩
    rw [Block.value] at hw
    split at hw
    · cases hw
      have hr' : fill .none = .ok r := hr
      rw [hr'] at hNone
      cases hNone
    · rename_i hNot
      obtain ⟨items, hItems, rfl⟩ := Option.map_eq_some_iff.mp hw
      refine ⟨fun hNil => hNot (hEmpty.mpr hNil), items, hItems, ?_⟩
      have hFilled : fill (.dict (dictOf items)) = .ok r := hr
      rw [hDict] at hFilled
      cases hFill : fillItems env [] pre cls (dictOf items) (PyObj.ofAttrs members.fresh) with
      | error fault =>
        rw [hFill] at hFilled
        cases hFilled
      | ok rs =>
        rw [hFill] at hFilled
        cases hFilled
        exact ⟨rs, rfl, equals_obj.mp hEqual⟩
  · rintro ⟨hNonempty, items, hItems, rs, hFill, hEqual⟩
    refine ⟨.dict (dictOf items), ?_, .obj cls rs, ?_, equals_obj.mpr hEqual⟩
    · rw [Block.value, if_neg fun hNil => hNonempty (hEmpty.mp hNil), hItems]
      rfl
    · rw [hDict, hFill]
      rfl

theorem recovered_messageField {cls : Str} {members : Members}
    (hStamp : isStamp cls = true → members = stampMembers .uint32 ∨ members = stampMembers .int32)
    {attrs : List (Str × PyVal)} (h : members.Canonical attrs) (hSlots : members.slots.Nodup)
    (hKey : ∀ f ∈ members.fields attrs, ∀ s, y.key f.1 = some (.str s) → s = f.1) (outer : Str) (slots : List Str) (name : Str) :
    Recovered y env pre outer slots (name, .message cls members, .obj cls attrs) ↔
      attrs ≠ [] ∧ ∀ f ∈ members.fields attrs,
        y.key f.1 = some (.str f.1) ∧ Recovered y env (pre ++ name ++ ['.']) cls members.slots f := by
  rw [← recovered_message h (slotResult env [] pre outer slots name (PyObj.ofPyVal (Ty.message cls members).fresh))
    rfl (fun _ => rfl) true hSlots hKey, ← value_message cls hStamp h]
  rfl

theorem recovered_messageElement {cls : Str} {members : Members}
    (hStamp : isStamp cls = true → members = stampMembers .uint32 ∨ members = stampMembers .int32)
    {attrs : List (Str × PyVal)} (h : members.Canonical attrs) (hSlots : members.slots.Nodup)
    (hKey : ∀ f ∈ members.fields attrs, ∀ s, y.key f.1 = some (.str s) → s = f.1) :
    ElementRecovered y env pre (.message cls members) (.obj cls attrs) ↔
      attrs ≠ [] ∧ ∀ f ∈ members.fields attrs,
        y.key f.1 = some (.str f.1) ∧ Recovered y env pre cls members.slots f := by
  rw [← recovered_message h (elementResult env [] pre (PyObj.ofPyVal (Ty.message cls members).fresh))
    rfl (fun _ => rfl) false hSlots hKey, ← value_message cls hStamp h]
  rfl

/-! ## Lists of messages -/

def EqualEach (vs : List PyVal) (rs : List PyObj) : Prop :=
  ∃ others, PyObj.toEach? rs = some others ∧ PyVal.eqvEach vs others = true

theorem equals_each {vs : List PyVal} {rs : List PyObj} : Equals true (.list vs) (.list rs) ↔ EqualEach vs rs := by
  constructor
  · rintro ⟨w, hw, hEqual⟩
    obtain ⟨others, hOthers, rfl⟩ := Option.map_eq_some_iff.mp hw
    rw [PyVal.eqv] at hEqual
    exact ⟨others, hOthers, hEqual⟩
  · rintro ⟨others, hOthers, hEqual⟩
    exact ⟨.list others, by rw [PyObj.toPyVal?, hOthers]; rfl, by rw [PyVal.eqv]; exact hEqual⟩

theorem equalEach_cons {v : PyVal} {vs : List PyVal} {r : PyObj} {rs : List PyObj} :
    EqualEach (v :: vs) (r :: rs) ↔ Equals false v r ∧ EqualEach vs rs := by
  constructor
  · rintro ⟨others, hOthers, hSame⟩
    obtain ⟨w, hw, hMore⟩ := Option.bind_eq_some_iff.mp hOthers
    obtain ⟨more, hRest, rfl⟩ := Option.map_eq_some_iff.mp hMore
    rw [PyVal.eqvEach, Bool.and_eq_true] at hSame
    exact ⟨⟨w, hw, hSame.1⟩, more, hRest, hSame.2⟩
  · rintro ⟨⟨w, hw, hHead⟩, more, hRest, hTail⟩
    refine ⟨w :: more, by rw [PyObj.toEach?, hw, Option.bind_some, hRest]; rfl, ?_⟩
    rw [PyVal.eqvEach, hHead, hTail]
    rfl

theorem itemValues_map (f : PyVal → Block) (vs : List PyVal) :
    Block.itemValues y.meaning (vs.map f) = vs.mapM fun v => (f v).value y.meaning := by
  induction vs with
  | nil => rfl
  | cons v vs ih =>
    rw [List.map_cons, Block.itemValues, ih, List.mapM_cons]
    cases (f v).value y.meaning with
    | none => rfl
    | some w => cases vs.mapM fun v => (f v).value y.meaning <;> rfl

theorem value_messages (hReads : y.Reads unicodeWord) (length : Option Nat) {t : Ty} (hSimple : t.isSimple = false)
    (vs : List PyVal) : ((Ty.array length t).block (.list vs)).value y.meaning =
      (vs.mapM fun v => (t.block v).value y.meaning).map .list := by
  rw [← itemValues_map, Ty.block, hSimple]
  cases vs with
  | nil => exact hReads.ints []
  | cons v vs => rfl

theorem recovered_elements {t : Ty} (vs : List PyVal) :
    (∃ rs, (vs.mapM fun v => ((t.block v).value y.meaning).bind fun w =>
        (elementResult env [] pre (PyObj.ofPyVal t.fresh) w).toOption) = some rs ∧ EqualEach vs rs) ↔
      ∀ v ∈ vs, ElementRecovered y env pre t v := by
  induction vs with
  | nil => exact iff_of_true ⟨[], rfl, [], rfl, rfl⟩ fun _ h => absurd h List.not_mem_nil
  | cons v vs ih =>
    rw [List.forall_mem_cons, ← ih, List.mapM_cons]
    constructor
    · rintro ⟨rs, hrs, hEqual⟩
      obtain ⟨r, hr, hMore⟩ := Option.bind_eq_some_iff.mp hrs
      obtain ⟨more, hTail, hCons⟩ := Option.bind_eq_some_iff.mp hMore
      obtain rfl := Option.some.inj hCons
      obtain ⟨w, hw, hResult⟩ := Option.bind_eq_some_iff.mp hr
      obtain ⟨hHead, hOthers⟩ := equalEach_cons.mp hEqual
      exact ⟨⟨w, hw, r, ok_of_toOption hResult, hHead⟩, more, hTail, hOthers⟩
    · rintro ⟨⟨w, hw, r, hResult, hHead⟩, more, hTail, hOthers⟩
      refine ⟨r :: more, ?_, equalEach_cons.mpr ⟨hHead, hOthers⟩⟩
      rw [hw, Option.bind_some, hResult, hTail]
      rfl

theorem recovered_messages (hReads : y.Reads unicodeWord) {length : Option Nat} {cls : Str} {members : Members}
    {vs : List PyVal} (hLength : HasLength length vs)
    (hNew : env.new cls = some (PyObj.ofPyVal (.obj cls members.fresh))) {outer : Str} {slots : List Str} {name type : Str}
    (hSlot : slotType env outer slots (.str name) = some type) (hType : SlotType type (.array length (.message cls members))) :
    Recovered y env pre outer slots (name, .array length (.message cls members), .list vs) ↔
      ∀ v ∈ vs, ElementRecovered y env pre (.message cls members) v := by
  have hOld : (Field.old (name, .array length (.message cls members), .list vs)).2 = _ :=
    ofPyVal_fresh_list (t := .message cls members) length rfl
  have hFill : ∀ ws : List PyObj, ws.length = vs.length →
      slotResult env [] pre outer slots name (Field.old (name, .array length (.message cls members), .list vs)).2 (.list ws) =
        (fillEach env [] pre ws (PyObj.ofPyVal (.obj cls members.fresh))).map .list := by
    intro ws hws
    cases hType with
    | other hArray => cases hArray
    | array hParse _ hMessage =>
      obtain ⟨rfl, hPrimitive⟩ := hMessage cls members rfl
      have hSame : HasLength length ws := fun n hn => hws.trans (hLength n hn)
      rw [hOld, slotResult, hSlot]
      exact fillList_message hParse hSame hPrimitive hNew
  rw [← recovered_elements, ← mapM_bind_mapM, Recovered]
  have hValue := value_messages hReads length (t := .message cls members) rfl vs
  constructor
  · rintro ⟨w, hw, r, hr, hEqual⟩
    obtain ⟨ws, hws, rfl⟩ := Option.map_eq_some_iff.mp (hValue.symm.trans hw)
    have hCount : ws.length = vs.length := (List.Forall₂.length_eq (mapM_eq_some_iff.mp hws)).symm
    rw [hFill ws hCount] at hr
    have hElements := fillEach_elements env [] pre (PyObj.ofPyVal (.obj cls members.fresh)) ws
    cases hEach : fillEach env [] pre ws (PyObj.ofPyVal (.obj cls members.fresh)) with
    | error fault =>
      rw [hEach] at hr
      cases hr
    | ok rs =>
      rw [hEach] at hr hElements
      cases hr
      exact ⟨rs, by rw [hws]; exact hElements.symm, equals_each.mp hEqual⟩
  · rintro ⟨rs, hrs, hEqual⟩
    obtain ⟨ws, hws, hElements⟩ := Option.bind_eq_some_iff.mp hrs
    have hCount : ws.length = vs.length := (List.Forall₂.length_eq (mapM_eq_some_iff.mp hws)).symm
    have hEach := ok_of_toOption ((fillEach_elements env [] pre
      (PyObj.ofPyVal (.obj cls members.fresh)) ws).trans hElements)
    refine ⟨.list ws, hValue.trans (by rw [hws]; rfl), .list rs, ?_, equals_each.mpr hEqual⟩
    rw [hFill ws hCount, hEach]
    rfl

end

/-! ## All types -/

section

variable {ctx : MsgContext} {fuel : Nat} {y : Yaml} {unicodeWord : Char → Bool}

theorem Members.mem_slots {members : Members} {attrs : List (Str × PyVal)} (h : members.Canonical attrs) {f : Field}
    (hf : f ∈ members.fields attrs) : f.1 ∈ members.slots :=
  (members.fields_entries h).2.2.2 ▸ List.mem_map.mpr ⟨f, hf, rfl⟩

theorem Members.lookup_slotTypes (members : Members) {types : List Str} (hGenerated : members.Generated ctx fuel types)
    {attrs : List (Str × PyVal)} (h : members.Canonical attrs) (hSlots : members.slots.Nodup) :
    ∀ f ∈ members.fields attrs, ∃ type, ((members.slots.map Key.str).zip types).lookup (.str f.1) = some type ∧
      SlotType type f.2.1 := by
  induction members using Members.listInduction generalizing types attrs with
  | nil => exact fun _ h => absurd h List.not_mem_nil
  | cons name t rest ih =>
    obtain ⟨type, more, rfl, hType, _, hRest⟩ := hGenerated
    obtain ⟨v, attrs, rfl, _, hAttrs⟩ := h
    obtain ⟨hFresh, hNodup⟩ := List.nodup_cons.mp hSlots
    intro f hf
    have hZip : ((Members.cons name t rest).slots.map Key.str).zip (type :: more) =
        (.str (remapReserved name), type) :: (rest.slots.map Key.str).zip more := rfl
    rw [hZip]
    obtain rfl | hf := List.mem_cons.mp hf
    · exact ⟨type, List.lookup_cons_self, hType⟩
    · obtain ⟨found, hFound, hFoundType⟩ := ih hRest hAttrs hNodup f hf
      have hNe : (Key.str f.1 == Key.str (remapReserved name)) = false := by
        refine beq_eq_false_iff_ne.mpr fun hEq => hFresh ?_
        have hMem : f.1 ∈ rest.slots := Members.mem_slots hAttrs hf
        rwa [Key.str.inj hEq] at hMem
      exact ⟨found, by rw [List.lookup_cons, hNe]; exact hFound, hFoundType⟩

theorem Members.key_fields (hReads : y.Reads unicodeWord) (members : Members) (hPlain : members.Plain unicodeWord)
    {attrs : List (Str × PyVal)} (h : members.Canonical attrs) :
    ∀ f ∈ members.fields attrs, ∀ s, y.key f.1 = some (.str s) → s = f.1 := by
  induction members using Members.listInduction generalizing attrs with
  | nil => exact fun _ h => absurd h List.not_mem_nil
  | cons name t rest ih =>
    obtain ⟨v, attrs, rfl, _, hAttrs⟩ := h
    exact List.forall_mem_cons.mpr ⟨fun s => hReads.key _ s (isLegal_remapReserved hPlain.1), ih hPlain.2.2 hAttrs⟩

theorem Members.part_fields (members : Members) (hFormed : members.WellFormed) (hPlain : members.Plain unicodeWord)
    {attrs : List (Str × PyVal)} (h : members.Canonical attrs) :
    ∀ f ∈ members.fields attrs, f.2.1.WellFormed ∧ f.2.1.Plain unicodeWord ∧ f.2.1.Canonical f.2.2 := by
  induction members using Members.listInduction generalizing attrs with
  | nil => exact fun _ h => absurd h List.not_mem_nil
  | cons name t rest ih =>
    obtain ⟨v, attrs, rfl, hv, hAttrs⟩ := h
    exact List.forall_mem_cons.mpr ⟨⟨hFormed.1, hPlain.2.1, hv⟩, ih hFormed.2 hPlain.2.2 hAttrs⟩

theorem fields_stamp {members : Members} {attrs : List (Str × PyVal)}
    (hMembers : members = stampMembers .uint32 ∨ members = stampMembers .int32) :
    ∀ f ∈ members.fields attrs, f.2.1.isArray = false := by
  obtain rfl | rfl := hMembers
  all_goals
    cases attrs with
    | nil => exact fun _ h => absurd h List.not_mem_nil
    | cons attr attrs =>
      cases attrs with
      | nil => exact List.forall_mem_singleton.mpr rfl
      | cons other attrs => exact List.forall_mem_cons.mpr ⟨rfl, List.forall_mem_singleton.mpr rfl⟩

variable (env : Classes)

theorem slotType_generated {cls : Str} {members : Members}
    (hStamp : isStamp cls = true → members = stampMembers .uint32 ∨ members = stampMembers .int32)
    (hGenerated : (Ty.message cls members).Generated ctx fuel) {attrs : List (Str × PyVal)} (h : members.Canonical attrs)
    (hSlots : members.slots.Nodup) :
    ∀ f ∈ members.fields attrs, f.2.1.isArray = true →
      ∃ type, slotType (env.generated ctx fuel) cls members.slots (.str f.1) = some type ∧ SlotType type f.2.1 := by
  intro f hf hArray
  cases hIs : isStamp cls with
  | true =>
    rw [fields_stamp (hStamp hIs) f hf] at hArray
    cases hArray
  | false =>
    obtain ⟨_, spec, hSpec, hMembers⟩ := hGenerated
    obtain ⟨type, hLookup, hType⟩ := members.lookup_slotTypes hMembers h hSlots f hf
    have hTypes : (env.generated ctx fuel).slotTypes cls = some spec.types := by
      show slotTypes ctx cls = _
      rw [slotTypes, hIs, hSpec]
      rfl
    exact ⟨type, by rw [slotType, hTypes]; exact hLookup, hType⟩

mutual

theorem Ty.recovered_iff (hReads : y.Reads unicodeWord) : (t : Ty) → t.WellFormed → t.Plain unicodeWord →
    t.Generated ctx fuel → (v : PyVal) → t.Canonical v →
    (∀ pre cls slots name,
      (t.isArray = true → ∃ type, slotType (env.generated ctx fuel) cls slots (.str name) = some type ∧ SlotType type t) →
      (Recovered y (env.generated ctx fuel) pre cls slots (name, t, v) ↔ t.Readable y v)) ∧
    (∀ cls members, t = .message cls members → ∀ pre,
      (ElementRecovered y (env.generated ctx fuel) pre t v ↔ t.Readable y v))
  | .simple s, _, hPlain, _, v, hCanonical => by
    refine ⟨fun pre cls slots name _ => ?_, by rintro cls members ⟨⟩⟩
    exact iff_of_true (recovered_simple hReads name hPlain hCanonical) trivial
  | .string, _, hPlain, _, _, _ => hPlain.elim
  | .array length t, hFormed, hPlain, hGenerated, v, hCanonical => by
    refine ⟨fun pre cls slots name hArray => ?_, by rintro cls members ⟨⟩⟩
    obtain ⟨type, hSlot, hType⟩ := hArray rfl
    rw [Ty.Canonical] at hCanonical
    split at hCanonical
    · rename_i hByte
      obtain ⟨bs, rfl, _⟩ := hCanonical
      exact iff_of_false (not_recovered_bytes hReads name hByte bs) id
    · rename_i hByte
      obtain ⟨vs, rfl, hLength, hEach⟩ := hCanonical
      rw [Ty.Readable]
      obtain ⟨s, rfl, hFloat⟩ | ⟨c, members, rfl⟩ := Ty.plain_element hFormed.1 hPlain
      · refine iff_of_true (recovered_list hReads name hFloat ?_ hLength hEach hSlot hType) fun _ _ => trivial
        exact Bool.not_eq_true _ ▸ hByte
      · have hNew : (env.generated ctx fuel).new c = some (PyObj.ofPyVal (.obj c members.fresh)) :=
          congrArg (Option.map PyObj.ofPyVal) hGenerated.1
        rw [recovered_messages hReads hLength hNew hSlot hType]
        have hElements : ∀ w ∈ vs, (ElementRecovered y (env.generated ctx fuel) pre (.message c members) w ↔
            (Ty.message c members).Readable y w) := fun w hw =>
          ((Ty.message c members).recovered_iff hReads hFormed.2 hPlain hGenerated w (hEach w hw)).2 c members rfl pre
        exact forall_congr' fun w => forall_congr' fun hw => hElements w hw
  | .message cls members, hFormed, hPlain, hGenerated, v, hCanonical => by
    obtain ⟨attrs, rfl, hAttrs, _⟩ := hCanonical
    have hKey := members.key_fields hReads hPlain.2 hAttrs
    have hParts : ∀ pre, (∀ f ∈ members.fields attrs,
        y.key f.1 = some (.str f.1) ∧ Recovered y (env.generated ctx fuel) pre cls members.slots f) ↔
        members.Readable y attrs := by
      intro pre
      have hTypes := slotType_generated env hPlain.1 hGenerated hAttrs hFormed.1
      obtain ⟨_, spec, _, hMembers⟩ := hGenerated
      have hEach := members.recovered_each hReads hFormed.2 hPlain.2 spec.types hMembers attrs hAttrs pre cls members.slots hTypes
      rw [members.readable_fields y hAttrs]
      exact forall_congr' fun f => forall_congr' fun hf => and_congr Iff.rfl (hEach f hf)
    constructor
    · intro pre outer slots name _
      rw [recovered_messageField hPlain.1 hAttrs hFormed.1 hKey, hParts, Ty.Readable]
    · intro _ _ _ pre
      rw [recovered_messageElement hPlain.1 hAttrs hFormed.1 hKey, hParts, Ty.Readable]

theorem Members.recovered_each (hReads : y.Reads unicodeWord) : (members : Members) → members.WellFormed →
    members.Plain unicodeWord → (types : List Str) → members.Generated ctx fuel types → (attrs : List (Str × PyVal)) →
    members.Canonical attrs → ∀ pre cls slots,
      (∀ f ∈ members.fields attrs, f.2.1.isArray = true →
        ∃ type, slotType (env.generated ctx fuel) cls slots (.str f.1) = some type ∧ SlotType type f.2.1) →
      ∀ f ∈ members.fields attrs,
        (Recovered y (env.generated ctx fuel) pre cls slots f ↔ f.2.1.Readable y f.2.2)
  | .nil, _, _, _, _, attrs, hCanonical, _, _, _, _ => by
    exact fun _ h => absurd h List.not_mem_nil
  | .cons name t rest, hFormed, hPlain, types, hGenerated, attrs, hCanonical, pre, cls, slots, hTypes => by
    obtain ⟨type, more, rfl, _, hHead, hRest⟩ := hGenerated
    obtain ⟨v, attrs, rfl, hv, hAttrs⟩ := hCanonical
    obtain ⟨hHeadType, hRestTypes⟩ := List.forall_mem_cons.mp hTypes
    refine List.forall_mem_cons.mpr ⟨?_, ?_⟩
    · exact (t.recovered_iff hReads hFormed.1 hPlain.2.1 hHead v hv).1 pre cls slots (remapReserved name) hHeadType
    · exact rest.recovered_each hReads hFormed.2 hPlain.2.2 more hRest attrs hAttrs pre cls slots hRestTypes

end

/-! ## The message itself -/

theorem values_dictInsert {key : Key} {v : PyObj} {items : List (Key × PyObj)} {item : Key × PyObj}
    (h : item ∈ dictInsert key v items) : item.2 = v ∨ item.2 ∈ items.map Prod.snd := by
  induction items with
  | nil =>
    obtain rfl := List.mem_singleton.mp h
    exact .inl rfl
  | cons other items ih =>
    obtain ⟨k, w⟩ := other
    rw [dictInsert] at h
    split at h
    · obtain rfl | h := List.mem_cons.mp h
      · exact .inl rfl
      · exact .inr (List.mem_cons_of_mem _ (List.mem_map.mpr ⟨item, h, rfl⟩))
    · obtain rfl | h := List.mem_cons.mp h
      · exact .inr List.mem_cons_self
      · exact (ih h).imp_right (List.mem_cons_of_mem _)

theorem values_dictOf {items : List (Key × PyObj)} {item : Key × PyObj} (h : item ∈ dictOf items) :
    item.2 ∈ items.map Prod.snd := by
  have hFold : ∀ (items dict : List (Key × PyObj)),
      item ∈ items.foldl (fun dict item => dictInsert item.1 item.2 dict) dict →
        item.2 ∈ dict.map Prod.snd ∨ item.2 ∈ items.map Prod.snd := by
    intro items
    induction items with
    | nil => exact fun dict h => .inl (List.mem_map.mpr ⟨item, h, rfl⟩)
    | cons other items ih =>
      intro dict h
      obtain hDict | hRest := ih _ h
      · obtain ⟨found, hFound, hEq⟩ := List.mem_map.mp hDict
        obtain hValue | hOld := values_dictInsert hFound
        · exact .inr (List.mem_cons.mpr (.inl (hEq.symm.trans hValue)))
        · exact .inl (hEq ▸ hOld)
      · exact .inr (List.mem_cons_of_mem _ hRest)
  exact (hFold items [] h).resolve_left List.not_mem_nil

theorem value_of_item {fs : List Field} {items : List (Key × PyObj)}
    (h : Block.entryValues y.meaning (fs.map Field.entry) = some items) {w : PyObj} (hw : w ∈ items.map Prod.snd) :
    ∃ f ∈ fs, f.entry.2.value y.meaning = some w := by
  induction fs generalizing items with
  | nil =>
    cases h
    exact absurd hw List.not_mem_nil
  | cons f fs ih =>
    obtain ⟨k, _, hValue⟩ := Option.bind_eq_some_iff.mp h
    obtain ⟨v, hv, hMore⟩ := Option.bind_eq_some_iff.mp hValue
    obtain ⟨rest, hRest, rfl⟩ := Option.map_eq_some_iff.mp hMore
    obtain rfl | hw := List.mem_cons.mp hw
    · exact ⟨f, List.mem_cons_self, hv⟩
    · obtain ⟨g, hg, hValue⟩ := ih hRest hw
      exact ⟨g, List.mem_cons_of_mem f hg, hValue⟩

theorem key_of_dict (hReads : y.Reads unicodeWord) {t : Ty} (hFormed : t.WellFormed) (hPlain : t.Plain unicodeWord)
    {v : PyVal} (hCanonical : t.Canonical v) {inner : List (Key × PyObj)}
    (h : (t.block v).value y.meaning = some (.dict inner)) :
    ∃ k ∈ inner.map Prod.fst, ∀ s, k = .str s → y.key s = some (.str s) := by
  cases t with
  | simple s =>
    have hValue := (value_line hReads hPlain hCanonical).symm.trans h
    obtain ⟨-, b, rfl⟩ | ⟨-, n, rfl⟩ := Simple.plain_cases hPlain hCanonical <;> cases hValue
  | string => exact hPlain.elim
  | array length t =>
    rw [Ty.Canonical] at hCanonical
    split at hCanonical
    · obtain ⟨bs, rfl, _⟩ := hCanonical
      have hScalar : y.scalar (Block.dropBlanks (bytesText bs)) = some (.dict inner) := h
      rw [dropBlanks_bytesText] at hScalar
      obtain ⟨s, hText⟩ := hReads.bytes bs _ hScalar
      cases hText
    · obtain ⟨vs, rfl, _, hEach⟩ := hCanonical
      obtain ⟨s, rfl, hFloat⟩ | ⟨c, members, rfl⟩ := Ty.plain_element hFormed.1 hPlain
      · have hBlock : (Ty.array length (.simple s)).block (.list vs) = .scalar (listText (vs.map lineText)) := by
          rw [Ty.block, Ty.isSimple, Bool.or_true]
          rfl
        rw [hBlock, value_list hReads hFloat hEach] at h
        cases h
      · rw [value_messages hReads length rfl] at h
        obtain ⟨ws, _, hList⟩ := Option.map_eq_some_iff.mp h
        cases hList
  | message cls members =>
    obtain ⟨attrs, rfl, hAttrs, _⟩ := hCanonical
    have hKey := members.key_fields hReads hPlain.2 hAttrs
    rw [value_message cls hPlain.1 hAttrs, Block.value] at h
    split at h
    · cases h
    · rename_i hNonempty
      obtain ⟨items, hItems, hDict⟩ := Option.map_eq_some_iff.mp h
      cases hDict
      rw [← (members.fields_entries hAttrs).1] at hItems hNonempty
      obtain ⟨f, hf⟩ := List.exists_mem_of_ne_nil (members.fields attrs) fun hNil => hNonempty (by rw [hNil]; rfl)
      obtain ⟨k, hk, hMem⟩ := mem_entryValues hItems hf
      refine ⟨k, (keys_dictOf items k).mpr hMem, ?_⟩
      rintro s rfl
      obtain rfl := hKey f hf s hk
      exact hk

/-- What the text of a message is read as, and the fields of an instance are filled with. -/
def Refilled (y : Yaml) (env : Classes) (args : PyObj → PyObj) (cls : Str) (members : Members) (attrs : List (Str × PyVal)) :
    Prop :=
  ∃ loaded, (Block.mapping (members.entries attrs)).value y.meaning = some loaded ∧
    ∃ r, fillMessageArgs env [] (PyObj.ofPyVal (.obj cls members.fresh)) (args loaded) = .ok r ∧
      Equals false (.obj cls attrs) r

theorem fillMessageArgs_dict (newInst : PyObj) {items : List (Key × PyObj)} (h : items.length ≠ 1) :
    fillMessageArgs env [] newInst (.dict items) = fillMessageArgs env [] newInst (.list [.dict items]) := by
  cases items with
  | nil => rfl
  | cons item items =>
    cases items with
    | nil => exact absurd rfl h
    | cons other items =>
      rw [fillMessageArgs, fillMessageArgs]
      all_goals simp

structure TextMessage (ctx : MsgContext) (fuel : Nat) (unicodeWord : Char → Bool) (cls : Str) (members : Members)
    (attrs : List (Str × PyVal)) : Prop where
  notStamp : isStamp cls = false
  formed : (Ty.message cls members).WellFormed
  plain : members.Plain unicodeWord
  generated : (Ty.message cls members).Generated ctx fuel
  canonical : members.Canonical attrs

variable {cls : Str} {members : Members} {attrs : List (Str × PyVal)}

theorem TextMessage.readable_iff (h : TextMessage ctx fuel unicodeWord cls members attrs) (hReads : y.Reads unicodeWord)
    (pre : Str) : (∀ f ∈ members.fields attrs,
      y.key f.1 = some (.str f.1) ∧ Recovered y (env.generated ctx fuel) pre cls members.slots f) ↔
      members.Readable y attrs := by
  have hStamp : isStamp cls = true → members = stampMembers .uint32 ∨ members = stampMembers .int32 := fun hIs =>
    absurd hIs (by rw [h.notStamp]; decide)
  have hTypes := slotType_generated env hStamp h.generated h.canonical h.formed.1
  obtain ⟨_, spec, _, hMembers⟩ := h.generated
  have hEach := members.recovered_each env hReads h.formed.2 h.plain spec.types hMembers attrs h.canonical pre cls
    members.slots hTypes
  rw [members.readable_fields y h.canonical]
  exact forall_congr' fun f => forall_congr' fun hf => and_congr Iff.rfl (hEach f hf)

theorem exists_items (h : members.Canonical attrs) (hNonempty : attrs ≠ []) {loaded : PyObj}
    (hLoaded : (Block.mapping (members.entries attrs)).value y.meaning = some loaded) :
    ∃ items, Block.entryValues y.meaning ((members.fields attrs).map Field.entry) = some items ∧
      loaded = .dict (dictOf items) := by
  rw [← (members.fields_entries h).1, Block.value] at hLoaded
  split at hLoaded
  · rename_i hEmpty
    rw [List.isEmpty_iff, List.map_eq_nil_iff] at hEmpty
    have hAttrs := (members.fields_entries h).2.2.1
    rw [hEmpty] at hAttrs
    exact absurd hAttrs.symm hNonempty
  · obtain ⟨items, hItems, rfl⟩ := Option.map_eq_some_iff.mp hLoaded
    exact ⟨items, hItems, rfl⟩

theorem refilled_nil (args : PyObj → PyObj) (hArgs : args .none = .list []) :
    Refilled y env args cls .nil [] := by
  refine ⟨.none, rfl, .obj cls [], by rw [hArgs]; rfl, .obj cls [], rfl, ?_⟩
  rw [PyVal.eqv, beq_self_eq_true]
  rfl

theorem TextMessage.refilled_inList (h : TextMessage ctx fuel unicodeWord cls members attrs) (hReads : y.Reads unicodeWord) :
    Refilled y (env.generated ctx fuel) inList cls members attrs ↔ members.Readable y attrs := by
  rcases eq_or_ne attrs [] with rfl | hNonempty
  · cases members with
    | nil => exact iff_of_true (refilled_nil _ inList rfl) trivial
    | cons name t rest =>
      obtain ⟨_, _, hCons, _⟩ := h.canonical
      cases hCons
  · have hMessage := @recovered_message y (env.generated ctx fuel) [] cls members attrs h.canonical
      (fun w => fillArgs (env.generated ctx fuel) [] [] w (PyObj.ofPyVal (.obj cls members.fresh))) rfl
      (fun _ => rfl) false h.formed.1 (members.key_fields hReads h.plain h.canonical)
    rw [h.readable_iff env hReads, and_iff_right hNonempty] at hMessage
    rw [← hMessage]
    constructor
    · rintro ⟨loaded, hLoaded, r, hr, hEqual⟩
      obtain ⟨items, _, rfl⟩ := exists_items h.canonical hNonempty hLoaded
      exact ⟨_, hLoaded, r, hr, hEqual⟩
    · rintro ⟨loaded, hLoaded, r, hr, hEqual⟩
      obtain ⟨items, _, rfl⟩ := exists_items h.canonical hNonempty hLoaded
      exact ⟨_, hLoaded, r, hr, hEqual⟩

theorem TextMessage.not_refilled_single (h : TextMessage ctx fuel unicodeWord cls members attrs)
    (hReads : y.Reads unicodeWord) {items : List (Key × PyObj)}
    (hItems : Block.entryValues y.meaning ((members.fields attrs).map Field.entry) = some items) {k : Key} {v : PyObj}
    (hSingle : dictOf items = [(k, v)]) :
    (fillMessageArgs (env.generated ctx fuel) [] (PyObj.ofPyVal (.obj cls members.fresh)) (.dict [(k, v)])).toOption =
      none := by
  have hOlds : ∀ slot ∈ (PyObj.ofAttrs members.fresh).map Prod.fst, y.key slot = some k := by
    rw [← (members.fields_entries h.canonical).2.1, List.map_map]
    intro slot hSlot
    obtain ⟨f, hf, rfl⟩ := List.mem_map.mp hSlot
    obtain ⟨k', hKey, hMem⟩ := mem_entryValues hItems hf
    rw [← keys_dictOf, hSingle] at hMem
    obtain rfl : k' = k := List.mem_singleton.mp hMem
    exact hKey
  cases k with
  | null | str s => rfl
  | bool b =>
    cases b with
    | true => rfl
    | false =>
      have hForeign : ∀ slot ∈ (PyObj.ofAttrs members.fresh).map Prod.fst, Key.bool false ≠ .str slot := by
        rintro slot - ⟨⟩
      have hRefused : ∀ items k, k ∈ items.map Prod.fst →
          (∀ slot ∈ (PyObj.ofAttrs members.fresh).map Prod.fst, k ≠ .str slot) →
          (fillArgs (env.generated ctx fuel) [] [] (.dict items) (PyObj.ofPyVal (.obj cls members.fresh))).toOption = none := by
        intro items k hItem hForeign
        have hNone := fillItems_foreign (env.generated ctx fuel) [] [] cls hItem hForeign
        show ((fillItems _ _ _ _ _ _).map _).toOption = none
        cases hFill : fillItems (env.generated ctx fuel) [] [] cls items (PyObj.ofAttrs members.fresh) with
        | error fault => rfl
        | ok rs =>
          rw [hFill] at hNone
          cases hNone
      cases v with
      | dict inner =>
        have hMem : (Key.bool false, PyObj.dict inner) ∈ dictOf items := by
          rw [hSingle]
          exact List.mem_singleton_self _
        obtain ⟨f, hf, hValue⟩ := value_of_item hItems (values_dictOf hMem)
        obtain ⟨hFormed, hPlain, hCanonical⟩ := members.part_fields h.formed.2 h.plain h.canonical f hf
        obtain ⟨k, hk, hKey⟩ := key_of_dict hReads hFormed hPlain hCanonical hValue
        refine hRefused inner k hk ?_
        rintro slot hSlot rfl
        have hSlotKey := hOlds slot hSlot
        rw [hKey slot rfl] at hSlotKey
        cases hSlotKey
      | none | bool | int | single | double | str | bytes | list | tuple | iterator | obj =>
        refine hRefused _ (.bool false) List.mem_cons_self ?_
        rintro slot - ⟨⟩

theorem TextMessage.refilled_asRead (h : TextMessage ctx fuel unicodeWord cls members attrs) (hReads : y.Reads unicodeWord) :
    Refilled y (env.generated ctx fuel) asRead cls members attrs ↔ members.Readable y attrs ∧ attrs.length ≠ 1 := by
  rcases eq_or_ne attrs [] with rfl | hNonempty
  · cases members with
    | nil => exact iff_of_true (refilled_nil _ asRead rfl) ⟨trivial, by decide⟩
    | cons name t rest =>
      obtain ⟨_, _, hCons, _⟩ := h.canonical
      cases hCons
  · obtain ⟨_, _, hAttrs, hNames⟩ := members.fields_entries h.canonical
    have hCount : (members.fields attrs).length = attrs.length := by
      rw [← List.length_map (f := Field.attr), hAttrs]
    have hNodup : ((members.fields attrs).map Prod.fst).Nodup := hNames ▸ h.formed.1
    have hLength : members.Readable y attrs → ∀ items,
        Block.entryValues y.meaning ((members.fields attrs).map Field.entry) = some items →
        (dictOf items).length = attrs.length := by
      intro hReadable items hItems
      rw [members.readable_fields y h.canonical] at hReadable
      rw [entryValues_named fun f hf => (hReadable f hf).1] at hItems
      obtain ⟨ts, hts, rfl⟩ := Option.map_eq_some_iff.mp hItems
      rw [dictOf_named hNodup hts, List.length_map, ← hCount]
      exact (List.Forall₂.length_eq (mapM_eq_some_iff.mp hts)).symm
    rw [← h.refilled_inList env hReads] at hLength ⊢
    constructor
    · rintro ⟨loaded, hLoaded, r, hr, hEqual⟩
      obtain ⟨items, hItems, rfl⟩ := exists_items h.canonical hNonempty hLoaded
      have hNot : (dictOf items).length ≠ 1 := by
        intro hOne
        obtain ⟨⟨k, v⟩, hSingle⟩ := List.length_eq_one_iff.mp hOne
        have hNone := h.not_refilled_single env hReads hItems hSingle
        rw [← hSingle, show fillMessageArgs _ _ _ (.dict (dictOf items)) = .ok r from hr] at hNone
        cases hNone
      have hInList : Refilled y (env.generated ctx fuel) inList cls members attrs :=
        ⟨_, hLoaded, r, (fillMessageArgs_dict _ _ hNot).symm.trans hr, hEqual⟩
      exact ⟨hInList, hLength hInList items hItems ▸ hNot⟩
    · rintro ⟨hInList, hMany⟩
      obtain ⟨loaded, hLoaded, r, hr, hEqual⟩ := id hInList
      obtain ⟨items, hItems, rfl⟩ := exists_items h.canonical hNonempty hLoaded
      have hNot : (dictOf items).length ≠ 1 := (hLength hInList items hItems).symm ▸ hMany
      exact ⟨_, hLoaded, r, (fillMessageArgs_dict _ _ hNot).trans hr, hEqual⟩

end

end XcRos.Genpy
