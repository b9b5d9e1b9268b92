import Mathlib.Algebra.Order.Group.Multiset
import XcRos.Rpc.ValueBounds
import XcRos.Rpc.CodableValue

/-! # Values and names in a text

Every `<value>` and every name that a reader takes stands at a place of the text of its own. So what is read has at most
the values and names that stand in the text, however the readers get lost in it.
-/

namespace XcRos.Rpc

open XcRos.Foundation

/-- A place where a value or a name that is not empty can be read. -/
inductive Token where
  | value
  | name (n : Bytes)
deriving DecidableEq, Repr

def nameTokens (n : Bytes) : List Token := if n = [] then [] else [.name n]

def tokensHere (s : Bytes) : List Token :=
  if valueTag <+: s then [.value]
  else if nameTag <+: s then
    match indexOf nameEtag (s.drop nameTag.length) with
    | none => []
    | some n => nameTokens ((s.drop nameTag.length).take n)
  else []

def tokensIn : Bytes → List Token
  | [] => []
  | c :: rest => tokensHere (c :: rest) ++ tokensIn rest

/-- What can be read from `offset` on. -/
def tokensFrom (xml : Bytes) (offset : Nat) : Multiset Token := tokensIn (xml.drop offset)

mutual

/-- The values that a value consists of, and the names in it as `f` writes them. -/
def Value.tokens (f : Bytes → Bytes) : Value → Multiset Token
  | .invalid => 0
  | .array elements => {.value} + elementsTokens f elements
  | .struct members => {.value} + membersTokens f members
  | _ => {.value}

def elementsTokens (f : Bytes → Bytes) : List Value → Multiset Token
  | [] => 0
  | v :: vs => v.tokens f + elementsTokens f vs

def membersTokens (f : Bytes → Bytes) : List (Bytes × Value) → Multiset Token
  | [] => 0
  | m :: ms => memberTokens f m + membersTokens f ms

def memberTokens (f : Bytes → Bytes) : Bytes × Value → Multiset Token
  | (name, v) => nameTokens (f name) + v.tokens f

end

/-! ## Places -/

section

variable {xml : Bytes} {offset : Nat}

theorem tokensFrom_succ (xml : Bytes) (offset : Nat) :
    tokensFrom xml offset = tokensHere (xml.drop offset) + tokensFrom xml (offset + 1) ∨ xml.length ≤ offset := by
  rcases Nat.lt_or_ge offset xml.length with h | h
  · left
    rw [tokensFrom, tokensFrom, List.drop_eq_getElem_cons h, tokensIn, ← Multiset.coe_add]
  · exact .inr h

theorem tokensFrom_antitone (xml : Bytes) {offset next : Nat} (h : offset ≤ next) :
    tokensFrom xml next ≤ tokensFrom xml offset := by
  induction h with
  | refl => exact le_refl _
  | @step next _ ih =>
    rcases tokensFrom_succ xml next with hStep | hEnd
    · exact le_trans (hStep ▸ Multiset.le_add_left _ _) ih
    · have hNil : tokensFrom xml (next + 1) = 0 := by
        rw [tokensFrom, List.drop_eq_nil_of_le (Nat.le_succ_of_le hEnd)]
        rfl
      exact hNil ▸ Multiset.zero_le _

theorem tokensHere_add_le {place next : Nat} (hPlace : offset ≤ place) (hBound : place < xml.length) (hNext : place < next) :
    tokensHere (xml.drop place) + tokensFrom xml next ≤ tokensFrom xml offset := by
  have hStep := (tokensFrom_succ xml place).resolve_right (Nat.not_le.mpr hBound)
  calc
    (tokensHere (xml.drop place) : Multiset Token) + tokensFrom xml next
        ≤ tokensHere (xml.drop place) + tokensFrom xml (place + 1) := add_le_add_right (tokensFrom_antitone xml hNext) _
    _ = tokensFrom xml place := hStep.symm
    _ ≤ tokensFrom xml offset := tokensFrom_antitone xml hPlace

theorem tokensFrom_valueTag {next : Nat} (h : nextTagIs valueTag xml offset = some next) :
    {.value} + tokensFrom xml next ≤ tokensFrom xml offset := by
  obtain ⟨place, hPlace, _, hPrefix, rfl⟩ := nextTagIs_place h
  have hHere : tokensHere (xml.drop place) = [.value] := by rw [tokensHere, if_pos hPrefix]
  have hLong : 0 < valueTag.length := by decide
  have hBound := hPrefix.length_le
  rw [List.length_drop] at hBound
  have hRead := @tokensHere_add_le xml offset place (place + valueTag.length) hPlace (by omega) (by omega)
  rwa [hHere] at hRead

theorem tokensFrom_parseTag (xml : Bytes) (offset : Nat) :
    (nameTokens (parseTag nameTag xml offset).1 : Multiset Token) + tokensFrom xml (parseTag nameTag xml offset).2 ≤
      tokensFrom xml offset := by
  have hNothing : (nameTokens [] : Multiset Token) + tokensFrom xml offset ≤ tokensFrom xml offset := by
    rw [nameTokens, if_pos rfl, Multiset.coe_nil, zero_add]
  rw [parseTag]
  split
  · exact hNothing
  · split
    · exact hNothing
    · split
      · exact hNothing
      · rename_i i hStart
        dsimp only
        split
        · exact hNothing
        · rename_i n hEnd
          have hPrefix := indexOf_prefix_drop hStart
          have hBound := indexOf_add_le hStart
          have hLong : 0 < nameTag.length := by decide
          rw [List.drop_drop] at hPrefix
          rw [List.length_drop] at hBound
          have hOther : ¬ valueTag <+: xml.drop (offset + i) := by
            intro hValue
            exact absurd (List.prefix_of_prefix_length_le hPrefix hValue (by decide)) (by decide)
          have hHere : tokensHere (xml.drop (offset + i)) = nameTokens ((xml.drop (offset + i + nameTag.length)).take n) := by
            rw [tokensHere, if_neg hOther, if_pos hPrefix, List.drop_drop]
            have hSame : indexOf nameEtag (xml.drop (offset + i + nameTag.length)) = some n := hEnd
            rw [hSame]
          rw [← hHere]
          exact tokensHere_add_le (Nat.le_add_right _ _) (by omega) (by omega)

end

/-! ## Readers -/

/-- What is read from behind a `<value>` at most: the value itself, and what stands behind the tag. -/
def CountedFrom (xml : Bytes) (after : Nat) (result : Option (Value × Nat)) : Prop :=
  ∀ v next, result = some (v, next) →
    next ≤ xml.length ∧ v.tokens id + tokensFrom xml next ≤ {.value} + tokensFrom xml after

theorem countedFrom_none (xml : Bytes) (after : Nat) : CountedFrom xml after none := by
  intro v next h
  cases h

theorem countedFrom_some {xml : Bytes} {after next : Nat} {v : Value} (hBound : next ≤ xml.length)
    (h : v.tokens id + tokensFrom xml next ≤ {.value} + tokensFrom xml after) : CountedFrom xml after (some (v, next)) := by
  intro w other hSame
  cases hSame
  exact ⟨hBound, h⟩

theorem countedFrom_plain {xml : Bytes} {after offset : Nat} {result : Option (Value × Nat)} (hAfter : after ≤ offset)
    (hStops : StopsWithin xml offset result) (hPlain : ∀ v next, result = some (v, next) → v.tokens id = {.value}) :
    CountedFrom xml after result := by
  intro v next h
  obtain ⟨_, hLow, hHigh⟩ := hStops v next h
  refine ⟨hHigh, ?_⟩
  rw [hPlain v next h]
  exact add_le_add_right (tokensFrom_antitone xml (Nat.le_trans hAfter hLow)) _

section

variable {xml : Bytes} {offset next : Nat} {v : Value} {f : Bytes → Bytes}

theorem boolFromXml_plain (h : boolFromXml xml offset = some (v, next)) : v.tokens f = {.value} := by
  rw [boolFromXml] at h
  split at h
  · cases h
  · cases h
    simp only [Value.tokens]

theorem intFromXml_plain (h : intFromXml xml offset = some (v, next)) : v.tokens f = {.value} := by
  rw [intFromXml] at h
  split at h
  · cases h
  · cases h
    simp only [Value.tokens]

theorem doubleFromXml_plain [DoubleText] (h : doubleFromXml xml offset = some (v, next)) : v.tokens f = {.value} := by
  rw [doubleFromXml] at h
  split at h
  · cases h
  · cases h
    simp only [Value.tokens]

theorem stringFromXml_plain (h : stringFromXml xml offset = some (v, next)) : v.tokens f = {.value} := by
  obtain ⟨text, _, hSame⟩ := Option.map_eq_some_iff.mp h
  cases hSame
  simp only [Value.tokens]

theorem timeFromXml_plain (h : timeFromXml xml offset = some (v, next)) : v.tokens f = {.value} := by
  rw [timeFromXml] at h
  split at h
  · cases h
  · obtain ⟨t, _, hSame⟩ := Option.map_eq_some_iff.mp h
    cases hSame
    simp only [Value.tokens]

theorem binaryFromXml_plain (h : binaryFromXml xml offset = some (v, next)) : v.tokens f = {.value} := by
  obtain ⟨text, _, hSame⟩ := Option.map_eq_some_iff.mp h
  cases hSame
  simp only [Value.tokens]

end

theorem insertAbsent_tokens (f : Bytes → Bytes) (name : Bytes) (v : Value) (ms : List (Bytes × Value)) :
    membersTokens f (insertAbsent name v ms) ≤ memberTokens f (name, v) + membersTokens f ms := by
  induction ms with
  | nil => exact le_refl _
  | cons m ms ih =>
    rw [insertAbsent]
    split
    · exact le_refl _
    · split
      · rw [membersTokens, membersTokens, add_left_comm]
        exact add_le_add_right ih _
      · exact Multiset.le_add_left _ _

/-- What the readers of values, of the elements of an array and of the members of a struct read at most. -/
structure ReadersCount [DoubleText] (fuel : Nat) (xml : Bytes) : Prop where
  value : ∀ offset v next, fromXmlFuel fuel xml offset = some (v, next) →
    v.tokens id + tokensFrom xml next ≤ tokensFrom xml offset
  elements : ∀ offset, elementsTokens id (elementsFromXml fuel xml offset).1 +
    tokensFrom xml (elementsFromXml fuel xml offset).2 ≤ tokensFrom xml offset
  members : ∀ offset members all next, membersFromXml fuel members xml offset = some (all, next) →
    membersTokens id all + tokensFrom xml next ≤ membersTokens id members + tokensFrom xml offset

section

variable [DoubleText] {fuel : Nat} {xml : Bytes}

theorem readersCount_zero : ReadersCount 0 xml where
  value offset v next h := by
    rw [fromXmlFuel] at h
    cases h
  elements offset := by
    rw [elementsFromXml, elementsTokens, zero_add]
  members offset members all next h := by
    rw [membersFromXml] at h
    cases h

theorem ReadersCount.value_succ (hStrtod : DoubleText.Bounded) (h : ReadersCount fuel xml) {offset next : Nat} {v : Value}
    (hRead : fromXmlFuel (fuel + 1) xml offset = some (v, next)) :
    v.tokens id + tokensFrom xml next ≤ tokensFrom xml offset := by
  rw [fromXmlFuel] at hRead
  cases hValue : nextTagIs valueTag xml offset with
  | none =>
    rw [hValue] at hRead
    cases hRead
  | some after =>
    rw [hValue] at hRead
    dsimp only at hRead
    obtain ⟨_, hAfter⟩ := nextTagIs_bounds hValue
    obtain ⟨hTag, hInner⟩ := getNextTag_bounds hAfter
    have hStop := readersStop hStrtod fuel xml
    split at hRead
    · cases hRead
    · rename_i w stop hResult
      have hCounted : CountedFrom xml after (some (w, stop)) := by
        rw [← hResult]
        repeat' split
        · exact countedFrom_plain hTag (boolFromXml_stops hInner) fun _ _ => boolFromXml_plain
        · exact countedFrom_plain hTag (intFromXml_stops hInner) fun _ _ => intFromXml_plain
        · exact countedFrom_plain hTag (doubleFromXml_stops hStrtod hInner) fun _ _ => doubleFromXml_plain
        · exact countedFrom_plain hTag (stringFromXml_stops hInner) fun _ _ => stringFromXml_plain
        · exact countedFrom_plain hTag (timeFromXml_stops hInner) fun _ _ => timeFromXml_plain
        · exact countedFrom_plain hTag (binaryFromXml_stops hInner) fun _ _ => binaryFromXml_plain
        · exact countedFrom_none xml after
        · rename_i data hData
          obtain ⟨hDataOpen, hDataLe⟩ := nextTagIs_bounds hData
          obtain ⟨_, hElementsLe⟩ := hStop.elements data hDataLe
          obtain ⟨hSkip, hSkipLe⟩ := skipTag_bounds dataEtag hElementsLe
          have hElements := le_trans (add_le_add_right (tokensFrom_antitone xml hSkip) _) (h.elements data)
          have hBefore : after ≤ data := by omega
          refine countedFrom_some hSkipLe ?_
          rw [Value.tokens, add_assoc]
          exact add_le_add_right (le_trans hElements (tokensFrom_antitone xml hBefore)) _
        · exact countedFrom_none xml after
        · rename_i members stop hMembers
          obtain ⟨_, hHigh⟩ := hStop.members _ [] members stop hInner hMembers
          have hAll := h.members _ [] members stop hMembers
          rw [membersTokens, zero_add] at hAll
          refine countedFrom_some hHigh ?_
          rw [Value.tokens, add_assoc]
          exact add_le_add_right (le_trans hAll (tokensFrom_antitone xml hTag)) _
        · exact countedFrom_plain (Nat.le_refl _) (stringFromXml_stops hAfter) fun _ _ => stringFromXml_plain
        · exact countedFrom_none xml after
      obtain ⟨hHigh, hTokens⟩ := hCounted w stop rfl
      obtain ⟨hClose, _⟩ := findTag_getD_bounds valueEtag hHigh
      cases hRead
      calc
        v.tokens id + tokensFrom xml ((findTag valueEtag xml stop).getD stop)
            ≤ v.tokens id + tokensFrom xml stop := add_le_add_right (tokensFrom_antitone xml hClose) _
        _ ≤ {.value} + tokensFrom xml after := hTokens
        _ ≤ tokensFrom xml offset := tokensFrom_valueTag hValue

theorem ReadersCount.elements_succ (h : ReadersCount fuel xml) (offset : Nat) :
    elementsTokens id (elementsFromXml (fuel + 1) xml offset).1 +
      tokensFrom xml (elementsFromXml (fuel + 1) xml offset).2 ≤ tokensFrom xml offset := by
  rw [elementsFromXml]
  cases hHead : fromXmlFuel fuel xml offset with
  | none =>
    dsimp only
    rw [elementsTokens, zero_add]
  | some read =>
    obtain ⟨v, next⟩ := read
    dsimp only
    rw [elementsTokens, add_assoc]
    exact le_trans (add_le_add_right (h.elements next) _) (h.value offset v next hHead)

theorem ReadersCount.members_succ (hStrtod : DoubleText.Bounded) (h : ReadersCount fuel xml) {offset next : Nat}
    {members all : List (Bytes × Value)} (hRead : membersFromXml (fuel + 1) members xml offset = some (all, next)) :
    membersTokens id all + tokensFrom xml next ≤ membersTokens id members + tokensFrom xml offset := by
  rw [membersFromXml] at hRead
  cases hMember : nextTagIs memberTag xml offset with
  | none =>
    rw [hMember] at hRead
    cases hRead
    exact le_refl _
  | some inner =>
    rw [hMember] at hRead
    dsimp only at hRead
    obtain ⟨hOpen, hInner⟩ := nextTagIs_bounds hMember
    split at hRead
    · cases hRead
    · rename_i v stop hValue
      obtain ⟨_, _, hHigh⟩ := (readersStop hStrtod fuel xml).value _ v stop hValue
      obtain ⟨hSkip, _⟩ := skipTag_bounds memberEtag hHigh
      have hName := tokensFrom_parseTag xml inner
      generalize parseTag nameTag xml inner = name at hRead hValue hName
      have hLong : offset ≤ inner := by omega
      calc
        membersTokens id all + tokensFrom xml next
            ≤ membersTokens id (insertAbsent name.1 v members) + tokensFrom xml (skipTag memberEtag xml stop) :=
              h.members _ _ all next hRead
        _ ≤ memberTokens id (name.1, v) + membersTokens id members + tokensFrom xml stop :=
              add_le_add (insertAbsent_tokens id name.1 v members) (tokensFrom_antitone xml hSkip)
        _ = membersTokens id members + (nameTokens name.1 + (v.tokens id + tokensFrom xml stop)) := by
              rw [memberTokens, id_eq, add_comm _ (membersTokens id members), add_assoc, add_assoc]
        _ ≤ membersTokens id members + (nameTokens name.1 + tokensFrom xml name.2) :=
              add_le_add_right (add_le_add_right (h.value _ v stop hValue) _) _
        _ ≤ membersTokens id members + tokensFrom xml inner := add_le_add_right hName _
        _ ≤ membersTokens id members + tokensFrom xml offset := add_le_add_right (tokensFrom_antitone xml hLong) _

theorem readersCount (hStrtod : DoubleText.Bounded) (fuel : Nat) (xml : Bytes) : ReadersCount fuel xml := by
  induction fuel with
  | zero => exact readersCount_zero
  | succ fuel ih =>
    exact {
      value := fun _ _ _ => ih.value_succ hStrtod
      elements := ih.elements_succ
      members := fun _ _ _ _ => ih.members_succ hStrtod }

end

/-! ## The text of a value -/

/-- Values whose structs are maps, and whose doubles have a decimal text that is read back. -/
inductive Value.Regular [DoubleText] : Value → Prop
  | invalid : Regular .invalid
  | boolean (b : Bool) : Regular (.boolean b)
  | int (i : Int32) : Regular (.int i)
  | double {bits : UInt64} (hExact : DoubleText.Exact bits) (hText : 60 ∉ DoubleText.print bits) : Regular (.double bits)
  | string (s : Bytes) : Regular (.string s)
  | dateTime (t : Tm) : Regular (.dateTime t)
  | base64 (data : Bytes) : Regular (.base64 data)
  | array {elements : List Value} (hElements : ∀ v ∈ elements, Regular v) : Regular (.array elements)
  | struct {members : List (Bytes × Value)} (hSorted : KeysSorted members) (hMembers : ∀ m ∈ members, Regular m.2) :
      Regular (.struct members)

theorem tokensHere_text {c : UInt8} (h : c ≠ 60) (rest : Bytes) : tokensHere (c :: rest) = [] := by
  have hValue : ¬ valueTag <+: c :: rest := fun hPrefix => h (List.cons_prefix_cons.mp hPrefix).1.symm
  have hName : ¬ nameTag <+: c :: rest := fun hPrefix => h (List.cons_prefix_cons.mp hPrefix).1.symm
  rw [tokensHere, if_neg hValue, if_neg hName]

theorem tokensIn_text {front : Bytes} (h : 60 ∉ front) (rest : Bytes) : tokensIn (front ++ rest) = tokensIn rest := by
  induction front with
  | nil => rfl
  | cons c front ih =>
    rw [List.cons_append, tokensIn, tokensHere_text (List.ne_of_not_mem_cons h).symm, List.nil_append,
      ih (List.not_mem_of_not_mem_cons h)]

/-- A tag that its first letter tells from `<value>` and `<name>`. -/
def otherTag : Bytes → Bool
  | 60 :: c :: name => c != 118 && c != 110 && !(c :: name).contains 60
  | _ => false

theorem tokensIn_tag {tag : Bytes} (h : otherTag tag = true) (rest : Bytes) : tokensIn (tag ++ rest) = tokensIn rest := by
  unfold otherTag at h
  split at h
  · rename_i c name
    simp only [Bool.and_eq_true, bne_iff_ne, ne_eq, Bool.not_eq_true', List.contains_eq_mem, decide_eq_false_iff_not] at h
    obtain ⟨⟨hValue, hName⟩, hText⟩ := h
    have hNoValue : ¬ valueTag <+: 60 :: c :: (name ++ rest) := fun hPrefix =>
      hValue (List.cons_prefix_cons.mp (List.cons_prefix_cons.mp hPrefix).2).1.symm
    have hNoName : ¬ nameTag <+: 60 :: c :: (name ++ rest) := fun hPrefix =>
      hName (List.cons_prefix_cons.mp (List.cons_prefix_cons.mp hPrefix).2).1.symm
    rw [List.cons_append, List.cons_append, tokensIn, tokensHere, if_neg hNoValue, if_neg hNoName, List.nil_append,
      ← List.cons_append, tokensIn_text hText]
  · cases h

theorem tokensIn_value (rest : Bytes) : tokensIn (valueTag ++ rest) = .value :: tokensIn rest := by
  have hText : 60 ∉ bytes "value>" := by decide
  have hRest := tokensIn_text hText rest
  have hHere : tokensHere (valueTag ++ rest) = [.value] := by rw [tokensHere, if_pos (List.prefix_append _ _)]
  have hSplit : valueTag ++ rest = 60 :: (bytes "value>" ++ rest) := rfl
  rw [hSplit] at hHere ⊢
  rw [tokensIn, hHere, hRest, List.singleton_append]

theorem tokensIn_name {contents : Bytes} (h : 60 ∉ contents) (rest : Bytes) :
    tokensIn (nameTag ++ (contents ++ (nameEtag ++ rest))) = nameTokens contents ++ tokensIn rest := by
  have hHere : tokensHere (nameTag ++ (contents ++ (nameEtag ++ rest))) = nameTokens contents := by
    have hOther : ¬ valueTag <+: nameTag ++ (contents ++ (nameEtag ++ rest)) := by
      simp [valueTag, nameTag, bytes, List.cons_prefix_cons]
    have hEnd : indexOf nameEtag (contents ++ (nameEtag ++ rest)) = some contents.length := indexOf_first h rest
    rw [tokensHere, if_neg hOther, if_pos (List.prefix_append _ _), List.drop_left, hEnd]
    simp only [List.take_left]
  have hBehind : tokensIn (bytes "name>" ++ (contents ++ (nameEtag ++ rest))) = tokensIn rest := by
    rw [tokensIn_text (by decide), tokensIn_text h]
    have hEnd : otherTag nameEtag = true := by decide
    exact tokensIn_tag hEnd rest
  have hSplit : nameTag ++ (contents ++ (nameEtag ++ rest)) = 60 :: (bytes "name>" ++ (contents ++ (nameEtag ++ rest))) := rfl
  rw [hSplit] at hHere ⊢
  rw [tokensIn, hHere, hBehind]

theorem tokensIn_tagged {tag text etag : Bytes} (hTag : otherTag tag = true) (hText : 60 ∉ text) (hEtag : otherTag etag = true)
    (rest : Bytes) : tokensIn (valueTag ++ tag ++ text ++ etag ++ valueEtag ++ rest) = .value :: tokensIn rest := by
  have hEnd : otherTag valueEtag = true := by decide
  simp only [List.append_assoc]
  rw [tokensIn_value, tokensIn_tag hTag, tokensIn_text hText, tokensIn_tag hEtag, tokensIn_tag hEnd]

section

variable [DoubleText]

theorem elementsToXml_tokens {vs : List Value}
    (h : ∀ v ∈ vs, ∀ rest, (tokensIn (v.toXml ++ rest) : Multiset Token) = v.tokens xmlEncode + tokensIn rest) (rest : Bytes) :
    (tokensIn (elementsToXml vs ++ rest) : Multiset Token) = elementsTokens xmlEncode vs + tokensIn rest := by
  induction vs with
  | nil => rw [elementsToXml, elementsTokens, List.nil_append, zero_add]
  | cons v vs ih =>
    rw [elementsToXml, elementsTokens, List.append_assoc, h v List.mem_cons_self,
      ih fun w hw => h w (List.mem_cons_of_mem v hw), add_assoc]

theorem membersToXml_tokens {ms : List (Bytes × Value)}
    (h : ∀ m ∈ ms, ∀ rest, (tokensIn (m.2.toXml ++ rest) : Multiset Token) = m.2.tokens xmlEncode + tokensIn rest)
    (rest : Bytes) : (tokensIn (membersToXml ms ++ rest) : Multiset Token) = membersTokens xmlEncode ms + tokensIn rest := by
  induction ms with
  | nil => rw [membersToXml, membersTokens, List.nil_append, zero_add]
  | cons m ms ih =>
    obtain ⟨name, v⟩ := m
    have hOpen : otherTag memberTag = true := by decide
    have hClose : otherTag memberEtag = true := by decide
    have hTail := ih fun n hn => h n (List.mem_cons_of_mem _ hn)
    simp only [membersToXml, memberToXml, List.append_assoc]
    rw [tokensIn_tag hOpen, tokensIn_name (xmlEncode_no_tag name), ← Multiset.coe_add, h (name, v) List.mem_cons_self,
      tokensIn_tag hClose, hTail, membersTokens, memberTokens, add_assoc, add_assoc]

theorem toXml_tokens {v : Value} (h : v.Regular) (rest : Bytes) :
    (tokensIn (v.toXml ++ rest) : Multiset Token) = v.tokens xmlEncode + tokensIn rest := by
  induction h generalizing rest with
  | invalid => rw [Value.toXml, Value.tokens, List.nil_append, zero_add]
  | boolean b =>
    have hText : 60 ∉ (if b then [49] else [48] : Bytes) := by cases b <;> decide
    rw [Value.toXml, boolToXml, tokensIn_tagged (by decide) hText (by decide)]
    simp only [Value.tokens, ← Multiset.cons_coe, Multiset.singleton_add]
  | int i =>
    have hText : 60 ∉ printInt i.toInt := not_mem_printInt (by decide) (by decide) _
    rw [Value.toXml, intToXml, tokensIn_tagged (by decide) hText (by decide)]
    simp only [Value.tokens, ← Multiset.cons_coe, Multiset.singleton_add]
  | double hExact hText =>
    rw [Value.toXml, doubleToXml, tokensIn_tagged (by decide) hText (by decide)]
    simp only [Value.tokens, ← Multiset.cons_coe, Multiset.singleton_add]
  | string s =>
    have hEnd : otherTag valueEtag = true := by decide
    rw [Value.toXml, stringToXml, List.append_assoc, List.append_assoc, tokensIn_value, tokensIn_text (xmlEncode_no_tag s),
      tokensIn_tag hEnd]
    simp only [Value.tokens, ← Multiset.cons_coe, Multiset.singleton_add]
  | dateTime t =>
    rw [Value.toXml, timeToXml, tokensIn_tagged (by decide) (timeText_no_tag t) (by decide)]
    simp only [Value.tokens, ← Multiset.cons_coe, Multiset.singleton_add]
  | base64 data =>
    rw [Value.toXml, binaryToXml, tokensIn_tagged (by decide) (Base64.put_no_tag 0 data) (by decide)]
    simp only [Value.tokens, ← Multiset.cons_coe, Multiset.singleton_add]
  | @array elements hElements ih =>
    have hTags : otherTag arrayTag = true ∧ otherTag dataTag = true ∧ otherTag dataEtag = true ∧ otherTag arrayEtag = true ∧
        otherTag valueEtag = true := by decide
    obtain ⟨hArray, hData, hDataEnd, hArrayEnd, hEnd⟩ := hTags
    simp only [Value.toXml, List.append_assoc]
    rw [tokensIn_value, tokensIn_tag hArray, tokensIn_tag hData, ← Multiset.cons_coe, elementsToXml_tokens ih,
      tokensIn_tag hDataEnd, tokensIn_tag hArrayEnd, tokensIn_tag hEnd, Value.tokens, add_assoc, Multiset.singleton_add]
  | @struct members hSorted hMembers ih =>
    have hTags : otherTag structTag = true ∧ otherTag structEtag = true ∧ otherTag valueEtag = true := by decide
    obtain ⟨hStruct, hStructEnd, hEnd⟩ := hTags
    simp only [Value.toXml, List.append_assoc]
    rw [tokensIn_value, tokensIn_tag hStruct, ← Multiset.cons_coe, membersToXml_tokens ih, tokensIn_tag hStructEnd,
      tokensIn_tag hEnd, Value.tokens, add_assoc, Multiset.singleton_add]

end

end XcRos.Rpc
