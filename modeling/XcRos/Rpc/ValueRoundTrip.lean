import XcRos.Rpc.Value

/-! # Round trip of values

`toXml` followed by `fromXml`, anywhere inside a longer text. Each reader is shown to stop right
before the end tag of what it reads; `fromXml` then skips to the next `</value>`, which is its own.
-/

namespace XcRos.Rpc

open XcRos.Foundation

/-- A member name that `xmlEncode` leaves as it is. -/
def PlainName (name : Bytes) : Prop := ∀ c ∈ name, c ∉ bytes "<>&'\""

/-- Values built from booleans, integers, strings, arrays and structs with plain member names. -/
inductive Value.Representable : Value → Prop
  | boolean (b : Bool) : Representable (.boolean b)
  | int (i : Int32) : Representable (.int i)
  | string (s : Bytes) : Representable (.string s)
  | array {elements : List Value} (hElements : ∀ v ∈ elements, Representable v) :
      Representable (.array elements)
  | struct {members : List (Bytes × Value)} (hSorted : KeysSorted members)
      (hNames : ∀ m ∈ members, PlainName m.1) (hMembers : ∀ m ∈ members, Representable m.2) :
      Representable (.struct members)

theorem Value.Representable.ne_invalid {v : Value} (h : v.Representable) : v ≠ .invalid := by
  rintro rfl
  cases h

theorem xmlEncode_plain {name : Bytes} (h : PlainName name) : xmlEncode name = name := by
  rw [xmlEncode_eq, flatMap_plain]
  intro c hc
  have hPlain : c ∉ [60, 62, 38, 39, 34] := h c hc
  simpa [xmlEntities] using hPlain

theorem PlainName.no_tag {name : Bytes} (h : PlainName name) : 60 ∉ name :=
  fun hMem => h 60 hMem (by decide)

section Tags

variable {xml : Bytes} {offset : Nat}

theorem valueOpens (tag name : Bytes) {rest : Bytes} (hTag : tag = 60 :: name ++ [62]) (hLength : xml.length ≤ intMax)
    (hClose : 62 ∉ name) (hZero : 0 ∉ name) (hDrop : xml.drop offset = valueTag ++ (tag ++ rest)) :
    nextTagIs valueTag xml offset = some (offset + valueTag.length) ∧
      getNextTag xml (offset + valueTag.length) = (tag, offset + valueTag.length + tag.length) := by
  subst hTag
  refine ⟨nextTagIs_here (bytes "value>") hLength hDrop, ?_⟩
  have hInner : xml.drop (offset + valueTag.length) = [] ++ (60 :: name ++ 62 :: rest) := by
    rw [drop_add_of_drop hDrop]
    simp
  have hBlanks : ∀ c ∈ ([] : Bytes), isspace c = true := by simp
  exact getNextTag_behind hLength hBlanks hClose hZero hInner

theorem valueCloses (etag name : Bytes) {rest : Bytes} (hEtag : etag = 60 :: name) (hLength : xml.length ≤ intMax)
    (hName : 60 ∉ name) (hOther : ¬ valueEtag <+: etag ++ (valueEtag ++ rest))
    (hDrop : xml.drop offset = etag ++ (valueEtag ++ rest)) :
    findTag valueEtag xml offset = some (offset + etag.length + valueEtag.length) := by
  subst hEtag
  exact findTag_behind_tag (bytes "/value>") hLength hName hOther hDrop

theorem textFrom_here {text rest : Bytes} (hText : 60 ∉ text) (hDrop : xml.drop offset = text ++ 60 :: rest) :
    textFrom xml offset = some text := by
  have hFind : indexOf [60] (xml.drop offset) = some text.length := by
    rw [hDrop]
    exact indexOf_first hText rest
  rw [textFrom, hFind, Option.map_some, hDrop, List.take_left]

theorem boolFromXml_here {b : Bool} {rest : Bytes}
    (hDrop : xml.drop offset = (if b then [49] else [48]) ++ (booleanEtag ++ rest)) :
    boolFromXml xml offset = some (.boolean b, offset + (if b then [49] else [48] : Bytes).length) := by
  have hEtag : booleanEtag = 60 :: bytes "/boolean>" := rfl
  cases b with
  | false =>
    have hRead : strtol (xml.drop offset) = (0, 1) := by
      rw [hDrop, hEtag]
      exact strtol_digits [48] _ (by simp [isdigit]) (by decide) (by decide)
    simp [boolFromXml, hRead]
  | true =>
    have hRead : strtol (xml.drop offset) = (1, 1) := by
      rw [hDrop, hEtag]
      exact strtol_digits [49] _ (by simp [isdigit]) (by decide) (by decide)
    simp [boolFromXml, hRead]

theorem intFromXml_here {i : Int32} {rest : Bytes}
    (hDrop : xml.drop offset = printInt i.toInt ++ (i4Etag ++ rest)) :
    intFromXml xml offset = some (.int i, offset + (printInt i.toInt).length) := by
  have hEtag : i4Etag = 60 :: bytes "/i4>" := rfl
  have hRead : strtol (xml.drop offset) = (i.toInt, (printInt i.toInt).length) := by
    rw [hDrop, hEtag]
    exact strtol_printInt i _ (by decide)
  have hSome : (printInt i.toInt).length ≠ 0 := by
    rw [printInt]
    have := List.length_pos_of_ne_nil (printNat_ne_nil i.toInt.natAbs)
    split
    · simp
    · omega
  simp [intFromXml, hRead, hSome]

theorem stringFromXml_here {s rest : Bytes} (hDrop : xml.drop offset = xmlEncode s ++ (valueEtag ++ rest)) :
    stringFromXml xml offset = some (.string s, offset + s.length) := by
  rw [stringFromXml, textFrom_here (xmlEncode_no_tag s) hDrop, Option.map_some, xmlDecode_xmlEncode]

theorem stringCloses {s rest : Bytes} (hLength : xml.length ≤ intMax)
    (hDrop : xml.drop offset = xmlEncode s ++ (valueEtag ++ rest)) :
    findTag valueEtag xml (offset + s.length) =
      some (offset + (xmlEncode s).length + valueEtag.length) := by
  have hLe := xmlEncode_length_le s
  have hTail : xml.drop (offset + s.length) = (xmlEncode s).drop s.length ++ (valueEtag ++ rest) := by
    rw [← List.drop_drop, hDrop, List.drop_append_of_le_length hLe]
  have hNoTag : 60 ∉ (xmlEncode s).drop s.length := fun h => xmlEncode_no_tag s (List.mem_of_mem_drop h)
  have hFound := findTag_behind (bytes "/value>") hLength hNoTag hTail
  have hAdd : offset + s.length + ((xmlEncode s).drop s.length).length = offset + (xmlEncode s).length := by
    rw [List.length_drop]
    omega
  rw [← hAdd]
  exact hFound

theorem getNextTag_string {s rest : Bytes} (hLength : xml.length ≤ intMax)
    (hDrop : xml.drop offset = xmlEncode s ++ (valueEtag ++ rest)) :
    (getNextTag xml offset).1 = valueEtag ∨ getNextTag xml offset = ([], offset) := by
  by_cases hBlank : ∀ c ∈ xmlEncode s, isspace c = true
  · left
    have hText : xml.drop offset = xmlEncode s ++ (60 :: bytes "/value" ++ 62 :: rest) := hDrop
    rw [getNextTag_behind hLength hBlank (by decide) (by decide) hText]
    rfl
  · right
    have hSplit := List.takeWhile_append_dropWhile (p := isspace) (l := xmlEncode s)
    have hStop := List.head?_dropWhile_not isspace (xmlEncode s)
    cases hRest : (xmlEncode s).dropWhile isspace with
    | nil =>
      refine absurd (fun c hc => ?_) hBlank
      rw [← hSplit, hRest, List.append_nil] at hc
      exact List.mem_takeWhile_imp hc
    | cons c tail =>
      rw [hRest] at hSplit hStop
      have hLetter : isspace c = false := by simpa using hStop
      have hPlain : c ≠ 60 := by
        rintro rfl
        refine xmlEncode_no_tag s ?_
        rw [← hSplit]
        exact List.mem_append_right _ List.mem_cons_self
      have hText : xml.drop offset =
          (xmlEncode s).takeWhile isspace ++ c :: (tail ++ (valueEtag ++ rest)) := by
        calc
          xml.drop offset = ((xmlEncode s).takeWhile isspace ++ c :: tail) ++ (valueEtag ++ rest) := by
            rw [hSplit, hDrop]
          _ = _ := by rw [List.append_assoc, List.cons_append]
      exact getNextTag_text (fun d hd => List.mem_takeWhile_imp hd) hLetter hPlain hText

end Tags

section RoundTrip

variable [DoubleText]

theorem toXml_pos {v : Value} (h : v ≠ .invalid) : 0 < v.toXml.length := by
  have hTag : 0 < valueTag.length := by decide
  cases v with
  | invalid => exact absurd rfl h
  | _ =>
    simp only [Value.toXml, boolToXml, intToXml, doubleToXml, stringToXml, timeToXml, binaryToXml,
      List.length_append]
    omega

def ReadsBack (v : Value) : Prop :=
  ∀ (fuel : Nat) (xml : Bytes) (offset : Nat) (rest : Bytes), xml.length ≤ intMax →
    v.toXml.length ≤ fuel + 1 → xml.drop offset = v.toXml ++ rest →
    fromXmlFuel (fuel + 1) xml offset = some (v, offset + v.toXml.length)

theorem readsBack_boolean (b : Bool) : ReadsBack (.boolean b) := by
  intro fuel xml offset rest hLength _ hDrop
  simp only [Value.toXml, boolToXml, List.append_assoc] at hDrop
  obtain ⟨hValue, hTag⟩ := valueOpens booleanTag (bytes "boolean") rfl hLength (by decide) (by decide) hDrop
  have hBody := drop_add_of_drop (drop_add_of_drop hDrop)
  have hClose := valueCloses booleanEtag (bytes "/boolean>") rfl hLength (by decide)
    (by simp [valueEtag, booleanEtag, bytes, List.cons_prefix_cons]) (drop_add_of_drop hBody)
  simp only [fromXmlFuel, hValue, hTag, if_true, boolFromXml_here hBody, hClose,
    Option.getD_some]
  simp only [Value.toXml, boolToXml, List.length_append, Nat.add_assoc]

theorem readsBack_int (i : Int32) : ReadsBack (.int i) := by
  intro fuel xml offset rest hLength _ hDrop
  simp only [Value.toXml, intToXml, List.append_assoc] at hDrop
  obtain ⟨hValue, hTag⟩ := valueOpens i4Tag (bytes "i4") rfl hLength (by decide) (by decide) hDrop
  have hBody := drop_add_of_drop (drop_add_of_drop hDrop)
  have hClose := valueCloses i4Etag (bytes "/i4>") rfl hLength (by decide)
    (by simp [valueEtag, i4Etag, bytes, List.cons_prefix_cons]) (drop_add_of_drop hBody)
  have hBoolean : i4Tag ≠ booleanTag := by decide
  simp only [fromXmlFuel, hValue, hTag, if_neg hBoolean, true_or, if_true, intFromXml_here hBody, hClose,
    Option.getD_some]
  simp only [Value.toXml, intToXml, List.length_append, Nat.add_assoc]

theorem readsBack_string (s : Bytes) : ReadsBack (.string s) := by
  intro fuel xml offset rest hLength _ hDrop
  simp only [Value.toXml, stringToXml, List.append_assoc] at hDrop
  have hValue := nextTagIs_here (bytes "value>") hLength hDrop
  change nextTagIs valueTag xml offset = some (offset + valueTag.length) at hValue
  have hText := drop_add_of_drop hDrop
  have hLengths : (Value.string s).toXml.length =
      valueTag.length + (xmlEncode s).length + valueEtag.length := by
    simp [Value.toXml, stringToXml, Nat.add_assoc]
  rcases getNextTag_string hLength hText with hTag | hTag
  · have hDispatch : valueEtag ≠ booleanTag ∧ valueEtag ≠ i4Tag ∧ valueEtag ≠ intTag ∧ valueEtag ≠ doubleTag ∧
        valueEtag ≠ [] ∧ valueEtag ≠ stringTag ∧ valueEtag ≠ dateTimeTag ∧ valueEtag ≠ base64Tag ∧
        valueEtag ≠ arrayTag ∧ valueEtag ≠ structTag := by decide
    simp only [fromXmlFuel, hValue, hTag, hDispatch, or_self, if_false, if_true, stringFromXml_here hText,
      stringCloses hLength hText, Option.getD_some, hLengths]
    simp only [Nat.add_assoc]
  · have hDispatch : [] ≠ booleanTag ∧ [] ≠ i4Tag ∧ [] ≠ intTag ∧ [] ≠ doubleTag := by decide
    simp only [fromXmlFuel, hValue, hTag, hDispatch, or_self, if_false, true_or, if_true,
      stringFromXml_here hText, stringCloses hLength hText, Option.getD_some, hLengths]
    simp only [Nat.add_assoc]

/-! ## Arrays and structs -/

theorem fromXmlFuel_other (fuel : Nat) {offset : Nat} {xml : Bytes} (other : Bytes) {rest : Bytes}
    (hDrop : xml.drop offset = 60 :: other ++ rest) (hOther : ¬ valueTag <+: 60 :: other ++ rest) :
    fromXmlFuel (fuel + 1) xml offset = none := by
  have hNone := nextTagIs_other (bytes "value>") other hDrop hOther
  change nextTagIs valueTag xml offset = none at hNone
  simp only [fromXmlFuel, hNone]

theorem elementsFromXml_toXml {elements : List Value}
    (hElements : ∀ v ∈ elements, v ≠ .invalid ∧ ReadsBack v) {fuel offset : Nat} {xml rest : Bytes}
    (hLength : xml.length ≤ intMax) (hFuel : (elementsToXml elements).length + 2 ≤ fuel)
    (hDrop : xml.drop offset = elementsToXml elements ++ (dataEtag ++ rest)) :
    elementsFromXml fuel xml offset = (elements, offset + (elementsToXml elements).length) := by
  induction elements generalizing fuel offset with
  | nil =>
    obtain ⟨fuel, rfl⟩ := Nat.exists_eq_add_of_le' hFuel
    have hNone := fromXmlFuel_other fuel (bytes "/data>") hDrop
      (by simp [valueTag, bytes, List.cons_prefix_cons])
    simp only [elementsToXml, List.length_nil] at hNone ⊢
    simp only [elementsFromXml, hNone, Nat.add_zero]
  | cons v vs ih =>
    obtain ⟨hValid, hRead⟩ := hElements v List.mem_cons_self
    have hPos := toXml_pos hValid
    simp only [elementsToXml, List.length_append, List.append_assoc] at hFuel hDrop ⊢
    obtain ⟨fuel, rfl⟩ := Nat.exists_eq_add_of_le' (Nat.le_trans (Nat.le_add_left 2 _) hFuel)
    have hHead := hRead fuel xml offset _ hLength (by omega) hDrop
    have hEnough : (elementsToXml vs).length + 2 ≤ fuel + 1 := by omega
    have hTail := ih (fun w hw => hElements w (List.mem_cons_of_mem v hw)) hEnough (drop_add_of_drop hDrop)
    rw [elementsFromXml, hHead]
    simp only [hTail, Nat.add_assoc]

theorem fromXmlFuel_array (fuel : Nat) {offset : Nat} {xml rest : Bytes} (hLength : xml.length ≤ intMax)
    (hDrop : xml.drop offset = valueTag ++ (arrayTag ++ (dataTag ++ rest))) :
    fromXmlFuel (fuel + 1) xml offset =
      let r := elementsFromXml fuel xml (offset + valueTag.length + arrayTag.length + dataTag.length)
      some (.array r.1, (findTag valueEtag xml (skipTag dataEtag xml r.2)).getD (skipTag dataEtag xml r.2)) := by
  obtain ⟨hValue, hTag⟩ :=
    valueOpens arrayTag (bytes "array") rfl hLength (by decide) (by decide) hDrop
  have hData := nextTagIs_here (bytes "data>") hLength (drop_add_of_drop (drop_add_of_drop hDrop))
  change nextTagIs dataTag xml _ = some (_ + dataTag.length) at hData
  have hDispatch : arrayTag ≠ booleanTag ∧ arrayTag ≠ i4Tag ∧ arrayTag ≠ intTag ∧ arrayTag ≠ doubleTag ∧
      arrayTag ≠ [] ∧ arrayTag ≠ stringTag ∧ arrayTag ≠ dateTimeTag ∧ arrayTag ≠ base64Tag := by decide
  simp only [fromXmlFuel, hValue, hTag, hDispatch, or_self, if_false, if_true, hData]

theorem readsBack_array {elements : List Value}
    (hElements : ∀ v ∈ elements, v ≠ .invalid ∧ ReadsBack v) : ReadsBack (.array elements) := by
  intro fuel xml offset rest hLength hFuel hDrop
  simp only [Value.toXml, List.append_assoc] at hDrop
  have hBody := drop_add_of_drop (drop_add_of_drop (drop_add_of_drop hDrop))
  have hEnough : (elementsToXml elements).length + 2 ≤ fuel := by
    have hTags : 3 ≤ valueTag.length := by decide
    simp only [Value.toXml, List.length_append] at hFuel
    omega
  have hRead := elementsFromXml_toXml hElements hLength hEnough hBody
  have hAfter := drop_add_of_drop hBody
  have hSkip := nextTagIs_here (bytes "/data>") hLength hAfter
  change nextTagIs dataEtag xml _ = some (_ + dataEtag.length) at hSkip
  have hClose := valueCloses arrayEtag (bytes "/array>") rfl hLength (by decide)
    (by simp [valueEtag, arrayEtag, bytes, List.cons_prefix_cons]) (drop_add_of_drop hAfter)
  simp only [fromXmlFuel_array fuel hLength hDrop, hRead, skipTag, hSkip, Option.getD_some, hClose]
  simp only [Value.toXml, List.length_append, Nat.add_assoc]

theorem membersFromXml_member (fuel : Nat) (front : List (Bytes × Value)) {offset : Nat} {name : Bytes} {v : Value}
    {xml rest : Bytes} (hPlain : PlainName name) (hLength : xml.length ≤ intMax)
    (hDrop : xml.drop offset = memberTag ++ (nameTag ++ (name ++ (nameEtag ++ (v.toXml ++ (memberEtag ++ rest)))))) :
    ∃ body, body = offset + memberTag.length + nameTag.length + name.length + nameEtag.length ∧
      xml.drop body = v.toXml ++ (memberEtag ++ rest) ∧
      membersFromXml (fuel + 1) front xml offset =
        (fromXmlFuel fuel xml body).bind fun r =>
          membersFromXml fuel (insertAbsent name r.1 front) xml (skipTag memberEtag xml r.2) := by
  have hMember := nextTagIs_here (bytes "member>") hLength hDrop
  change nextTagIs memberTag xml offset = some (offset + memberTag.length) at hMember
  have hName := drop_add_of_drop hDrop
  have hParse := parseTag_here (bytes "name>") hLength hPlain.no_tag hName
  change parseTag nameTag xml (offset + memberTag.length) =
    (name, offset + memberTag.length + nameTag.length + name.length + nameEtag.length) at hParse
  refine ⟨_, rfl, drop_add_of_drop (drop_add_of_drop (drop_add_of_drop hName)), ?_⟩
  rw [membersFromXml, hMember]
  simp only [hParse]
  cases fromXmlFuel fuel xml (offset + memberTag.length + nameTag.length + name.length + nameEtag.length) <;> rfl

theorem membersFromXml_toXml {members : List (Bytes × Value)}
    (hNames : ∀ m ∈ members, PlainName m.1) (hMembers : ∀ m ∈ members, ReadsBack m.2)
    {fuel offset : Nat} {front : List (Bytes × Value)} {xml rest : Bytes}
    (hSorted : KeysSorted (front ++ members)) (hLength : xml.length ≤ intMax)
    (hFuel : (membersToXml members).length + 2 ≤ fuel)
    (hDrop : xml.drop offset = membersToXml members ++ (structEtag ++ rest)) :
    membersFromXml fuel front xml offset = some (front ++ members, offset + (membersToXml members).length) := by
  induction members generalizing fuel offset front with
  | nil =>
    obtain ⟨fuel, rfl⟩ := Nat.exists_eq_add_of_le' hFuel
    have hNone := nextTagIs_other (bytes "member>") (bytes "/struct>") hDrop
      (by simp [bytes, List.cons_prefix_cons])
    change nextTagIs memberTag xml offset = none at hNone
    simp only [membersToXml, List.length_nil] at hNone ⊢
    simp only [membersFromXml, hNone, Nat.add_zero, List.append_nil]
  | cons m ms ih =>
    obtain ⟨name, v⟩ := m
    have hPlain : PlainName name := hNames (name, v) List.mem_cons_self
    have hTags : 2 ≤ memberTag.length := by decide
    simp only [membersToXml, memberToXml, xmlEncode_plain hPlain, List.length_append, List.append_assoc]
      at hFuel hDrop ⊢
    obtain ⟨fuel, rfl⟩ := Nat.exists_eq_add_of_le' (Nat.le_trans (Nat.le_add_left 2 _) hFuel)
    obtain ⟨body, rfl, hBody, hStep⟩ := membersFromXml_member (fuel + 1) front hPlain hLength hDrop
    have hRead := hMembers (name, v) List.mem_cons_self fuel xml _ _ hLength (by simp only; omega) hBody
    have hAfter := drop_add_of_drop hBody
    have hSkip := nextTagIs_here (bytes "/member>") hLength hAfter
    change nextTagIs memberEtag xml _ = some (_ + memberEtag.length) at hSkip
    have hBefore : ∀ e ∈ front, e.1 < name := fun e he =>
      (List.pairwise_append.mp hSorted).2.2 e he (name, v) List.mem_cons_self
    have hEnough : (membersToXml ms).length + 2 ≤ fuel + 1 := by omega
    have hSortedTail : KeysSorted (front ++ [(name, v)] ++ ms) := by simpa using hSorted
    have hTail := ih (fun e he => hNames e (List.mem_cons_of_mem _ he))
      (fun e he => hMembers e (List.mem_cons_of_mem _ he)) hSortedTail hEnough (drop_add_of_drop hAfter)
    rw [hStep, hRead, Option.bind_some]
    simp only [skipTag, hSkip, Option.getD_some, insertAbsent_last v hBefore, hTail]
    simp only [List.append_assoc, List.singleton_append, Nat.add_assoc]

theorem fromXmlFuel_struct (fuel : Nat) {offset : Nat} {xml rest : Bytes} (hLength : xml.length ≤ intMax)
    (hDrop : xml.drop offset = valueTag ++ (structTag ++ rest)) :
    fromXmlFuel (fuel + 1) xml offset =
      (membersFromXml fuel [] xml (offset + valueTag.length + structTag.length)).map fun r =>
        (.struct r.1, (findTag valueEtag xml r.2).getD r.2) := by
  obtain ⟨hValue, hTag⟩ :=
    valueOpens structTag (bytes "struct") rfl hLength (by decide) (by decide) hDrop
  have hDispatch : structTag ≠ booleanTag ∧ structTag ≠ i4Tag ∧ structTag ≠ intTag ∧ structTag ≠ doubleTag ∧
      structTag ≠ [] ∧ structTag ≠ stringTag ∧ structTag ≠ dateTimeTag ∧ structTag ≠ base64Tag ∧
      structTag ≠ arrayTag := by decide
  simp only [fromXmlFuel, hValue, hTag, hDispatch, or_self, if_false, if_true]
  cases membersFromXml fuel [] xml (offset + valueTag.length + structTag.length) <;> rfl

theorem readsBack_struct {members : List (Bytes × Value)} (hSorted : KeysSorted members)
    (hNames : ∀ m ∈ members, PlainName m.1) (hMembers : ∀ m ∈ members, ReadsBack m.2) :
    ReadsBack (.struct members) := by
  intro fuel xml offset rest hLength hFuel hDrop
  simp only [Value.toXml, List.append_assoc] at hDrop
  have hBody := drop_add_of_drop (drop_add_of_drop hDrop)
  have hEnough : (membersToXml members).length + 2 ≤ fuel := by
    have hTags : 3 ≤ valueTag.length := by decide
    simp only [Value.toXml, List.length_append] at hFuel
    omega
  have hAll : KeysSorted ([] ++ members) := hSorted
  have hRead := membersFromXml_toXml hNames hMembers hAll hLength hEnough hBody
  have hClose := valueCloses structEtag (bytes "/struct>") rfl hLength (by decide)
    (by simp [valueEtag, structEtag, bytes, List.cons_prefix_cons]) (drop_add_of_drop hBody)
  simp only [fromXmlFuel_struct fuel hLength hDrop, hRead, List.nil_append, Option.map_some, hClose, Option.getD_some]
  simp only [Value.toXml, List.length_append, Nat.add_assoc]

theorem readsBack_of_representable {v : Value} (h : v.Representable) : ReadsBack v := by
  induction h with
  | boolean b => exact readsBack_boolean b
  | int i => exact readsBack_int i
  | string s => exact readsBack_string s
  | array hElements ih => exact readsBack_array fun v hv => ⟨(hElements v hv).ne_invalid, ih v hv⟩
  | struct hSorted hNames hMembers ih => exact readsBack_struct hSorted hNames ih

/-- A representable value is read back from any text that `fromXml` does not refuse as too long. -/
theorem fromXml_toXml {v : Value} (h : v.Representable) (front rest : Bytes)
    (hLength : (front ++ v.toXml ++ rest).length ≤ intMax) :
    fromXml (front ++ v.toXml ++ rest) front.length = some (v, (front ++ v.toXml).length) := by
  have hDrop : (front ++ v.toXml ++ rest).drop front.length = v.toXml ++ rest := by
    rw [List.append_assoc, List.drop_left]
  have hFuel : v.toXml.length ≤ (front ++ v.toXml ++ rest).length + 1 := by
    simp only [List.length_append]
    omega
  rw [fromXml, readsBack_of_representable h _ _ _ rest hLength hFuel hDrop, List.length_append]

theorem fromXml_overlong {xml : Bytes} (h : intMax < xml.length) (offset : Nat) :
    fromXml xml offset = none := by
  have hTag : nextTagIs valueTag xml offset = none := by rw [nextTagIs, if_pos h]
  simp only [fromXml, fromXmlFuel, hTag]

end RoundTrip

@[reducible] def noDoubles : DoubleText where
  print _ := []
  strtod _ := (0, 0)

theorem fromXml_toXml_nested :
    @fromXml noDoubles (bytes "ab" ++ @Value.toXml noDoubles
        (.struct [(bytes "k", .array [.string (bytes " <&"), .string []]), (bytes "n", .int (-7))]) ++ bytes "</x>") 2 =
      some (.struct [(bytes "k", .array [.string (bytes " <&"), .string []]), (bytes "n", .int (-7))],
        (bytes "ab" ++ @Value.toXml noDoubles
          (.struct [(bytes "k", .array [.string (bytes " <&"), .string []]), (bytes "n", .int (-7))])).length) := by
  refine @fromXml_toXml noDoubles _ (.struct ?_ ?_ ?_) (bytes "ab") (bytes "</x>") ?_
  · unfold KeysSorted
    decide
  · unfold PlainName
    simp [bytes]
  · simp only [List.mem_cons, List.not_mem_nil, or_false, forall_eq_or_imp, forall_eq]
    refine ⟨.array ?_, .int _⟩
    simp only [List.mem_cons, List.not_mem_nil, or_false, forall_eq_or_imp, forall_eq]
    exact ⟨.string _, .string _⟩
  · decide +kernel

/-- With `__INT_MAX__` bytes behind it even a boolean is not read back. -/
theorem fromXml_toXml_overlong :
    (Value.boolean true).Representable ∧
      @fromXml noDoubles ([] ++ @Value.toXml noDoubles (.boolean true) ++ List.replicate intMax 32) 0 ≠
        some (.boolean true, ([] ++ @Value.toXml noDoubles (.boolean true)).length) := by
  refine ⟨.boolean true, ?_⟩
  have hPos := @toXml_pos noDoubles (.boolean true) (by simp)
  rw [@fromXml_overlong noDoubles]
  · simp
  · simp only [List.nil_append, List.length_append, List.length_replicate]
    omega

end XcRos.Rpc
