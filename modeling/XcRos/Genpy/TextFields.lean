import XcRos.Genpy.FillFields
import XcRos.Genpy.Yaml

/-! # Fields read back

What the text of a field is read as fills the slot of a new instance. The fields of a message come back one by one, if
their names are read as themselves.
-/

namespace XcRos.Genpy

open XcRos.Foundation XcRos.Msg

/-! ## Equality -/

/-- `v == r`, where no dictionary is equal to what a message holds. -/
def Equals (loose : Bool) (v : PyVal) (r : PyObj) : Prop := ∃ w, r.toPyVal? = some w ∧ v.eqv loose w = true

def EqualAttrs (attrs : List (Str × PyVal)) (rs : List (Str × PyObj)) : Prop :=
  ∃ others, PyObj.toAttrs? rs = some others ∧ PyVal.eqvAttrs attrs others = true

/-! ## Slots with their types and values -/

def Members.fields : Members → List (Str × PyVal) → List (Str × Ty × PyVal)
  | .cons name t rest, (_, v) :: attrs => (remapReserved name, t, v) :: rest.fields attrs
  | _, _ => []

abbrev Field := Str × Ty × PyVal

def Field.entry (f : Field) : Str × Block := (f.1, f.2.1.block f.2.2)

def Field.old (f : Field) : Str × PyObj := (f.1, PyObj.ofPyVal f.2.1.fresh)

def Field.attr (f : Field) : Str × PyVal := (f.1, f.2.2)

theorem Members.fields_entries (members : Members) {attrs : List (Str × PyVal)} (h : members.Canonical attrs) :
    (members.fields attrs).map Field.entry = members.entries attrs ∧
      (members.fields attrs).map Field.old = PyObj.ofAttrs members.fresh ∧
      (members.fields attrs).map Field.attr = attrs ∧ (members.fields attrs).map Prod.fst = members.slots := by
  induction members using Members.listInduction generalizing attrs with
  | nil =>
    obtain rfl := h
    exact ⟨rfl, rfl, rfl, rfl⟩
  | cons name t rest ih =>
    obtain ⟨v, more, rfl, _, hRest⟩ := h
    obtain ⟨hEntries, hOlds, hAttrs, hSlots⟩ := ih hRest
    exact ⟨congrArg (Field.entry _ :: ·) hEntries, congrArg (Field.old _ :: ·) hOlds, congrArg (Field.attr _ :: ·) hAttrs,
      congrArg (remapReserved name :: ·) hSlots⟩

/-! ## Equality of attributes -/

theorem eqvAttrs_behind {name : Str} {attrs : List (Str × PyVal)} (h : name ∉ attrs.map Prod.fst) (w : PyVal)
    (others : List (Str × PyVal)) : PyVal.eqvAttrs attrs ((name, w) :: others) = PyVal.eqvAttrs attrs others := by
  induction attrs with
  | nil => rfl
  | cons attr attrs ih =>
    obtain ⟨hHead, hTail⟩ := not_or.mp fun hMem => h (List.mem_cons.mpr hMem)
    have hNe : (attr.1 == name) = false := beq_eq_false_iff_ne.mpr (Ne.symm hHead)
    rw [PyVal.eqvAttrs, PyVal.eqvAttrs, ih hTail, List.lookup_cons, hNe]

theorem equalAttrs_cons {name : Str} {v : PyVal} {attrs : List (Str × PyVal)} (h : name ∉ attrs.map Prod.fst) (r : PyObj)
    (rs : List (Str × PyObj)) :
    EqualAttrs ((name, v) :: attrs) ((name, r) :: rs) ↔ Equals true v r ∧ EqualAttrs attrs rs := by
  have hEqv (w : PyVal) (others : List (Str × PyVal)) :
      PyVal.eqvAttrs ((name, v) :: attrs) ((name, w) :: others) = (v.eqv true w && PyVal.eqvAttrs attrs others) := by
    rw [PyVal.eqvAttrs, List.lookup_cons_self, eqvAttrs_behind h]
  constructor
  · rintro ⟨others, hOthers, hSame⟩
    obtain ⟨w, hw, hMore⟩ := Option.bind_eq_some_iff.mp hOthers
    obtain ⟨more, hRest, rfl⟩ := Option.map_eq_some_iff.mp hMore
    rw [hEqv, Bool.and_eq_true] at hSame
    exact ⟨⟨w, hw, hSame.1⟩, more, hRest, hSame.2⟩
  · rintro ⟨⟨w, hw, hHead⟩, more, hRest, hTail⟩
    refine ⟨(name, w) :: more, ?_, ?_⟩
    · rw [PyObj.toAttrs?, hw, Option.bind_some, hRest]
      rfl
    · rw [hEqv, hHead, hTail]
      rfl

/-! ## All fields of a message -/

theorem mapM_bind_mapM {α β γ : Type} (f : α → Option β) (g : β → Option γ) (as : List α) :
    ((as.mapM f).bind fun bs => bs.mapM g) = as.mapM fun a => (f a).bind g := by
  induction as with
  | nil => rfl
  | cons a as ih =>
    rw [List.mapM_cons, List.mapM_cons, ← ih]
    cases f a with
    | none => rfl
    | some b =>
      cases as.mapM f with
      | none =>
        show none = (g b).bind _
        cases g b <;> rfl
      | some bs => exact List.mapM_cons

section

variable (y : Yaml) (env : Classes) (pre cls : Str) (slots : List Str)

def fieldValue (f : Field) : Option (Str × PyObj × PyObj) :=
  (f.entry.2.value y.meaning).map fun w => (f.1, f.old.2, w)

def Recovered (f : Field) : Prop :=
  ∃ w, f.entry.2.value y.meaning = some w ∧
    ∃ r, slotResult env [] pre cls slots f.1 f.old.2 w = .ok r ∧ Equals true f.2.2 r

variable {y env pre cls slots}

theorem fieldValue_names {fs : List Field} {ts : List (Str × PyObj × PyObj)} (h : fs.mapM (fieldValue y) = some ts) :
    ts.map Prod.fst = fs.map Prod.fst ∧ ts.map (fun t => (t.1, t.2.1)) = fs.map Field.old := by
  have hEach := mapM_eq_some_iff.mp h
  clear h
  induction hEach with
  | nil => exact ⟨rfl, rfl⟩
  | @cons f t fs ts hHead _ ih =>
    obtain ⟨w, _, rfl⟩ := Option.map_eq_some_iff.mp hHead
    exact ⟨congrArg (f.1 :: ·) ih.1, congrArg (f.old :: ·) ih.2⟩

theorem entryValues_named {fs : List Field} (hKeys : ∀ f ∈ fs, y.key f.1 = some (.str f.1)) :
    Block.entryValues y.meaning (fs.map Field.entry) =
      (fs.mapM (fieldValue y)).map fun ts => ts.map fun t => (Key.str t.1, t.2.2) := by
  induction fs with
  | nil => rfl
  | cons f fs ih =>
    obtain ⟨hHead, hTail⟩ := List.forall_mem_cons.mp hKeys
    have hKey : y.meaning.key f.entry.1 = some (.str f.1) := hHead
    rw [List.map_cons, Block.entryValues, hKey, Option.bind_some, ih hTail, List.mapM_cons, fieldValue]
    cases f.entry.2.value y.meaning with
    | none => rfl
    | some w => cases fs.mapM (fieldValue y) <;> rfl

theorem dictOf_named {fs : List Field} (hNodup : (fs.map Prod.fst).Nodup) {ts : List (Str × PyObj × PyObj)}
    (h : fs.mapM (fieldValue y) = some ts) :
    dictOf (ts.map fun t => (Key.str t.1, t.2.2)) = ts.map fun t => (Key.str t.1, t.2.2) := by
  have hKeys : (ts.map fun t => (Key.str t.1, t.2.2)).map Prod.fst = (fs.map Prod.fst).map Key.str := by
    rw [← (fieldValue_names h).1, List.map_map, List.map_map]
    rfl
  refine dictOf_of_nodup ?_
  rw [hKeys]
  exact hNodup.map fun a b hEq => Key.str.inj hEq

theorem mem_entryValues {fs : List Field} {items : List (Key × PyObj)}
    (h : Block.entryValues y.meaning (fs.map Field.entry) = some items) {f : Field} (hf : f ∈ fs) :
    ∃ k, y.key f.1 = some k ∧ k ∈ items.map Prod.fst := by
  induction fs generalizing items with
  | nil => exact absurd hf List.not_mem_nil
  | cons g fs ih =>
    obtain ⟨k, hKey, hValue⟩ := Option.bind_eq_some_iff.mp h
    obtain ⟨w, _, hMore⟩ := Option.bind_eq_some_iff.mp hValue
    obtain ⟨rest, hRest, rfl⟩ := Option.map_eq_some_iff.mp hMore
    obtain rfl | hf := List.mem_cons.mp hf
    · exact ⟨k, hKey, List.mem_cons_self⟩
    · obtain ⟨k', hKey', hMem⟩ := ih hRest hf
      exact ⟨k', hKey', List.mem_cons_of_mem _ hMem⟩

variable (y env pre cls slots)

theorem recovered_each (fs : List Field) (hNodup : (fs.map Prod.fst).Nodup) :
    (∃ news, (fs.mapM fun f => (fieldValue y f).bind (filledSlot env [] pre cls slots)) = some news ∧
      EqualAttrs (fs.map Field.attr) news) ↔ ∀ f ∈ fs, Recovered y env pre cls slots f := by
  induction fs with
  | nil => exact iff_of_true ⟨[], rfl, [], rfl, rfl⟩ fun _ h => absurd h List.not_mem_nil
  | cons f fs ih =>
    obtain ⟨hFresh, hRest⟩ := List.nodup_cons.mp hNodup
    have hNames : f.1 ∉ (fs.map Field.attr).map Prod.fst := by
      rw [List.map_map]
      exact hFresh
    rw [List.forall_mem_cons, ← ih hRest, List.mapM_cons]
    constructor
    · rintro ⟨news, hNews, hEqual⟩
      obtain ⟨new, hNew, hMore⟩ := Option.bind_eq_some_iff.mp hNews
      obtain ⟨more, hTail, hCons⟩ := Option.bind_eq_some_iff.mp hMore
      obtain rfl := Option.some.inj hCons
      obtain ⟨t, hValue, hFilled⟩ := Option.bind_eq_some_iff.mp hNew
      obtain ⟨w, hw, rfl⟩ := Option.map_eq_some_iff.mp hValue
      obtain ⟨r, hResult, rfl⟩ := Option.map_eq_some_iff.mp hFilled
      obtain ⟨hHead, hOthers⟩ := (equalAttrs_cons hNames r more).mp hEqual
      exact ⟨⟨w, hw, r, ok_of_toOption hResult, hHead⟩, more, hTail, hOthers⟩
    · rintro ⟨⟨w, hw, r, hResult, hHead⟩, more, hTail, hOthers⟩
      refine ⟨(f.1, r) :: more, ?_, (equalAttrs_cons hNames r more).mpr ⟨hHead, hOthers⟩⟩
      have hNew : (fieldValue y f).bind (filledSlot env [] pre cls slots) = some (f.1, r) := by
        rw [fieldValue, hw, Option.map_some, Option.bind_some, filledSlot, hResult]
        rfl
      rw [hNew, hTail]
      rfl

theorem recovered_fields (fs : List Field) (hNodup : (fs.map Prod.fst).Nodup)
    (hKey : ∀ f ∈ fs, ∀ s, y.key f.1 = some (.str s) → s = f.1) :
    (∃ items, Block.entryValues y.meaning (fs.map Field.entry) = some items ∧
      ∃ r, fillItems env [] pre cls (dictOf items) (fs.map Field.old) = .ok r ∧ EqualAttrs (fs.map Field.attr) r) ↔
      ∀ f ∈ fs, y.key f.1 = some (.str f.1) ∧ Recovered y env pre cls (fs.map Prod.fst) f := by
  by_cases hKeys : ∀ f ∈ fs, y.key f.1 = some (.str f.1)
  · have hEach := recovered_each y env pre cls (fs.map Prod.fst) fs hNodup
    have hAll : (∀ f ∈ fs, y.key f.1 = some (.str f.1) ∧ Recovered y env pre cls (fs.map Prod.fst) f) ↔
        ∀ f ∈ fs, Recovered y env pre cls (fs.map Prod.fst) f :=
      ⟨fun h f hf => (h f hf).2, fun h f hf => ⟨hKeys f hf, h f hf⟩⟩
    rw [hAll, ← hEach, ← mapM_bind_mapM, entryValues_named hKeys]
    have hFill : ∀ ts, fs.mapM (fieldValue y) = some ts →
        (fillItems env [] pre cls (dictOf (ts.map fun t => (Key.str t.1, t.2.2))) (fs.map Field.old)).toOption =
          ts.mapM (filledSlot env [] pre cls (fs.map Prod.fst)) := by
      intro ts hts
      obtain ⟨hNames, hOlds⟩ := fieldValue_names hts
      have hSlots := fillItems_slots env [] pre cls ts [] (fs.map Prod.fst)
        (by rw [hNames]; rfl) hNodup
      rw [List.nil_append, hOlds] at hSlots
      rw [dictOf_named hNodup hts, hSlots]
      cases ts.mapM (filledSlot env [] pre cls (fs.map Prod.fst)) <;> rfl
    constructor
    · rintro ⟨items, hItems, r, hr, hEqual⟩
      obtain ⟨ts, hts, rfl⟩ := Option.map_eq_some_iff.mp hItems
      refine ⟨r, ?_, hEqual⟩
      rw [hts, Option.bind_some, ← hFill ts hts, hr]
      rfl
    · rintro ⟨news, hNews, hEqual⟩
      obtain ⟨ts, hts, hMore⟩ := Option.bind_eq_some_iff.mp hNews
      rw [← hFill ts hts] at hMore
      exact ⟨_, by rw [hts]; rfl, news, ok_of_toOption hMore, hEqual⟩
  · refine iff_of_false ?_ fun h => hKeys fun f hf => (h f hf).1
    rintro ⟨items, hItems, r, hr, -⟩
    obtain ⟨f, hBad⟩ := not_forall.mp hKeys
    obtain ⟨hf, hBad⟩ := Classical.not_imp.mp hBad
    obtain ⟨k, hk, hMem⟩ := mem_entryValues hItems hf
    have hForeign : ∀ slot ∈ (fs.map Field.old).map Prod.fst, k ≠ .str slot := by
      rintro slot - rfl
      obtain rfl := hKey f hf slot hk
      exact hBad hk
    have hNone := fillItems_foreign env [] pre cls ((keys_dictOf items k).mpr hMem) hForeign
    rw [hr] at hNone
    cases hNone

end

/-! ## Fields of simple types -/

section

variable {y : Yaml} {unicodeWord : Char → Bool} (hReads : y.Reads unicodeWord) {env : Classes} {pre cls : Str}
  {slots : List Str}

include hReads

theorem value_line {s : Simple} {v : PyVal} (hFloat : s ≠ .float32 ∧ s ≠ .float64) (h : s.Canonical v) :
    (Block.scalar (lineText v)).value y.meaning = some (PyObj.ofPyVal v) := by
  obtain ⟨-, b, rfl⟩ | ⟨-, n, rfl⟩ := Simple.plain_cases hFloat h
  · exact (congrArg y.scalar (dropBlanks_boolText b)).trans (hReads.bool b)
  · exact (congrArg y.scalar (dropBlanks_intText n)).trans (hReads.int n)

omit hReads in
theorem equals_line {s : Simple} {v : PyVal} (hFloat : s ≠ .float32 ∧ s ≠ .float64) (h : s.Canonical v) :
    Equals true v (PyObj.ofPyVal v) := by
  obtain ⟨-, b, rfl⟩ | ⟨-, n, rfl⟩ := Simple.plain_cases hFloat h
  · exact ⟨.bool b, rfl, by rw [PyVal.eqv]; exact beq_self_eq_true b⟩
  · exact ⟨.int n, rfl, by rw [PyVal.eqv]; exact beq_self_eq_true n⟩

theorem recovered_simple (name : Str) {s : Simple} {v : PyVal} (hFloat : s ≠ .float32 ∧ s ≠ .float64) (h : s.Canonical v) :
    Recovered y env pre cls slots (name, .simple s, v) := by
  refine ⟨_, value_line hReads hFloat h, _, ?_, equals_line hFloat h⟩
  obtain ⟨-, b, rfl⟩ | ⟨-, n, rfl⟩ := Simple.plain_cases hFloat h <;> cases s <;> rfl

theorem not_recovered_bytes (name : Str) {length : Option Nat} {t : Ty} (hByte : t.isByte = true) (bs : Bytes) :
    ¬ Recovered y env pre cls slots (name, .array length t, .bytes bs) := by
  rintro ⟨w, hw, r, hr, others, hOthers, hEqual⟩
  have hValue : y.scalar (Block.dropBlanks (bytesText bs)) = some w := hw
  rw [dropBlanks_bytesText] at hValue
  obtain ⟨s, rfl⟩ := hReads.bytes bs w hValue
  have hOld : Field.old (name, .array length t, .bytes bs) = (name, .bytes (List.replicate (length.getD 0) 0)) := by
    rw [Field.old, Ty.fresh, if_pos hByte]
    rfl
  rw [hOld] at hr
  cases hr
  cases hOthers
  rw [PyVal.eqv] at hEqual
  · cases hEqual
  all_goals simp

end

/-! ## Arrays -/

section

variable {env : Classes} {path type base : Str} {length : Option Nat} {elements : PyObj → Except FillFault (List PyObj)}
  {v : PyObj} {els : List PyObj}

theorem fillList_primitive (hParse : parseType type = some (base, arityOfLength length)) (hLength : HasLength length els)
    (hPrimitive : primitiveTypes.contains base = true) : fillList env path (some type) elements v els = .ok v := by
  rw [fillList, Option.bind_some, hParse]
  cases length with
  | none => exact if_pos hPrimitive
  | some n =>
    have hEq : ¬ (els.length : Int) ≠ (n : Int) := not_not.mpr (congrArg Nat.cast (hLength n rfl))
    dsimp only [arityOfLength]
    rw [if_neg hEq]
    exact if_pos hPrimitive

theorem fillList_message (hParse : parseType type = some (base, arityOfLength length)) (hLength : HasLength length els)
    (hPrimitive : primitiveTypes.contains base = false) {inner : PyObj} (hNew : env.new base = some inner) :
    fillList env path (some type) elements v els = (elements inner).map .list := by
  have hNot : ¬ primitiveTypes.contains base = true := by
    rw [hPrimitive]
    decide
  rw [fillList, Option.bind_some, hParse]
  cases length with
  | none =>
    dsimp only [arityOfLength]
    rw [if_neg hNot, hNew]
  | some n =>
    have hEq : ¬ (els.length : Int) ≠ (n : Int) := not_not.mpr (congrArg Nat.cast (hLength n rfl))
    dsimp only [arityOfLength]
    rw [if_neg hEq]
    dsimp only
    rw [if_neg hNot, hNew]

end

theorem ofEach_eq_map (vs : List PyVal) : PyObj.ofEach vs = vs.map PyObj.ofPyVal := by
  induction vs with
  | nil => rfl
  | cons v vs ih => rw [PyObj.ofEach, ih]; rfl

theorem ofPyVal_fresh_list (length : Option Nat) {t : Ty} (hByte : t.isByte = false) :
    PyObj.ofPyVal (Ty.array length t).fresh = .list (List.replicate (length.getD 0) (PyObj.ofPyVal t.fresh)) := by
  have hFresh : (Ty.array length t).fresh = .list (List.replicate (length.getD 0) t.fresh) := by
    rw [Ty.fresh, hByte]
    rfl
  rw [hFresh, PyObj.ofPyVal, ofEach_eq_map, List.map_replicate]

section

variable {y : Yaml} {unicodeWord : Char → Bool} (hReads : y.Reads unicodeWord) {env : Classes} {pre cls : Str}
  {slots : List Str}

include hReads

theorem value_list {s : Simple} {vs : List PyVal} (hFloat : s ≠ .float32 ∧ s ≠ .float64) (h : ∀ v ∈ vs, s.Canonical v) :
    (Block.scalar (listText (vs.map lineText))).value y.meaning = some (.list (vs.map PyObj.ofPyVal)) := by
  refine (congrArg y.scalar (dropBlanks_listText _)).trans ?_
  obtain ⟨bs, rfl⟩ | ⟨ns, rfl⟩ := Simple.plain_list hFloat h
  · rw [List.map_map, List.map_map]
    exact hReads.bools bs
  · rw [List.map_map, List.map_map]
    exact hReads.ints ns

omit hReads in
theorem equals_list {s : Simple} {vs : List PyVal} (hFloat : s ≠ .float32 ∧ s ≠ .float64) (h : ∀ v ∈ vs, s.Canonical v) :
    Equals true (.list vs) (.list (vs.map PyObj.ofPyVal)) := by
  have hEach : PyObj.toEach? (vs.map PyObj.ofPyVal) = some vs ∧ PyVal.eqvEach vs vs = true := by
    induction vs with
    | nil => exact ⟨rfl, rfl⟩
    | cons v vs ih =>
      obtain ⟨hHead, hTail⟩ := List.forall_mem_cons.mp h
      obtain ⟨hBack, hSame⟩ := ih hTail
      obtain ⟨-, b, rfl⟩ | ⟨-, n, rfl⟩ := Simple.plain_cases hFloat hHead
      · refine ⟨by rw [List.map_cons, PyObj.toEach?, hBack]; rfl, ?_⟩
        rw [PyVal.eqvEach, hSame, PyVal.eqv, beq_self_eq_true]
        rfl
      · refine ⟨by rw [List.map_cons, PyObj.toEach?, hBack]; rfl, ?_⟩
        rw [PyVal.eqvEach, hSame, PyVal.eqv, beq_self_eq_true]
        rfl
  refine ⟨.list vs, ?_, ?_⟩
  · rw [PyObj.toPyVal?, hEach.1]
    rfl
  · rw [PyVal.eqv]
    exact hEach.2

theorem recovered_list (name : Str) {type : Str} {length : Option Nat} {s : Simple} {vs : List PyVal}
    (hFloat : s ≠ .float32 ∧ s ≠ .float64) (hByte : (Ty.simple s).isByte = false) (hLength : HasLength length vs)
    (h : ∀ v ∈ vs, s.Canonical v) (hSlot : slotType env cls slots (.str name) = some type)
    (hType : SlotType type (.array length (.simple s))) :
    Recovered y env pre cls slots (name, .array length (.simple s), .list vs) := by
  have hBlock : (Ty.array length (.simple s)).block (.list vs) = .scalar (listText (vs.map lineText)) := by
    rw [Ty.block, Ty.isSimple, Bool.or_true]
    rfl
  refine ⟨_, (congrArg (Block.value y.meaning) hBlock).trans (value_list hReads hFloat h), _, ?_, equals_list hFloat h⟩
  cases hType with
  | other hArray => cases hArray
  | array hParse hSimple _ =>
    have hOld : (Field.old (name, .array length (.simple s), .list vs)).2 = _ := ofPyVal_fresh_list length hByte
    have hMapped : HasLength length (vs.map PyObj.ofPyVal) := fun n hn => (List.length_map _).trans (hLength n hn)
    rw [hOld, slotResult, hSlot]
    exact fillList_primitive hParse hMapped (hSimple rfl)

end

end XcRos.Genpy
