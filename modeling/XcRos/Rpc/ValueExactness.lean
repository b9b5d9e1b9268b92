import Mathlib.Algebra.BigOperators.Group.Multiset.Basic
import XcRos.Rpc.ValueArray
import XcRos.Rpc.ValueTokens

/-! # Which values come back

The text of a value is read back as that value only if the codec can represent it. Names that `xmlEncode` changes are
read as they stand in the text, which is longer; the names of a value that comes back would have to be as long as those
in its text. Unassigned values have no text at all.
-/

namespace XcRos.Rpc

open XcRos.Foundation

/-! ## Names -/

inductive Value.HasName (name : Bytes) : Value → Prop
  | here {members : List (Bytes × Value)} {v : Value} (h : (name, v) ∈ members) : HasName name (.struct members)
  | element {elements : List Value} {v : Value} (h : v ∈ elements) (hName : HasName name v) : HasName name (.array elements)
  | member {members : List (Bytes × Value)} {m : Bytes × Value} (h : m ∈ members) (hName : HasName name m.2) :
      HasName name (.struct members)

/-- No name at any depth has one of the letters that `xmlEncode` writes as entities. -/
def Value.PlainNames (v : Value) : Prop := ∀ name, v.HasName name → PlainName name

theorem encodeByte_length_pos (c : UInt8) : 0 < (encodeByte c).length := by
  rw [encodeByte]
  split <;> simp

theorem encodeByte_length_of_special {c : UInt8} (h : c ∈ bytes "<>&'\"") : 1 < (encodeByte c).length := by
  have hAll : (bytes "<>&'\"").all fun d => decide (1 < (encodeByte d).length) := by decide
  exact of_decide_eq_true (List.all_eq_true.mp hAll c h)

theorem xmlEncode_length_lt {name : Bytes} (h : ¬ PlainName name) : name.length < (xmlEncode name).length := by
  rw [xmlEncode_eq]
  induction name with
  | nil => exact absurd (fun c hc => absurd hc List.not_mem_nil) h
  | cons c name ih =>
    rw [List.flatMap_cons, List.length_append, List.length_cons]
    have hTail := xmlEncode_length_le name
    rw [xmlEncode_eq] at hTail
    by_cases hSpecial : c ∈ bytes "<>&'\""
    · have hHead := encodeByte_length_of_special hSpecial
      omega
    · have hRest : ¬ PlainName name := by
        intro hPlain
        refine h fun d hd => ?_
        rcases List.mem_cons.mp hd with rfl | hd
        · exact hSpecial
        · exact hPlain d hd
      have hHead := encodeByte_length_pos c
      have := ih hRest
      omega

theorem xmlEncode_eq_nil_iff {name : Bytes} : xmlEncode name = [] ↔ name = [] := by
  constructor
  · intro h
    have hLe := xmlEncode_length_le name
    rw [h] at hLe
    exact List.eq_nil_of_length_eq_zero (Nat.le_zero.mp hLe)
  · rintro rfl
    rfl

/-! ## Weights -/

def Token.weight : Token → Nat
  | .value => 0
  | .name n => n.length

def lettersOf (tokens : Multiset Token) : Nat := (tokens.map Token.weight).sum

theorem lettersOf_add (s t : Multiset Token) : lettersOf (s + t) = lettersOf s + lettersOf t := by
  rw [lettersOf, Multiset.map_add, Multiset.sum_add]
  rfl

theorem lettersOf_nameTokens (n : Bytes) : lettersOf (nameTokens n) = n.length := by
  rw [nameTokens]
  split
  · rename_i h
    rw [lettersOf, Multiset.coe_nil, Multiset.map_zero, Multiset.sum_zero, h, List.length_nil]
  · rw [lettersOf, Multiset.coe_singleton, Multiset.map_singleton, Multiset.sum_singleton, Token.weight]

theorem card_nameTokens (n : Bytes) :
    Multiset.card (nameTokens (xmlEncode n) : Multiset Token) = Multiset.card (nameTokens n : Multiset Token) := by
  rw [nameTokens, nameTokens]
  by_cases h : n = []
  · rw [if_pos h, if_pos (xmlEncode_eq_nil_iff.mpr h)]
  · rw [if_neg h, if_neg (fun hNil => h (xmlEncode_eq_nil_iff.mp hNil))]
    rfl

theorem count_nameTokens (n : Bytes) : Multiset.count .value (nameTokens n : Multiset Token) = 0 := by
  rw [nameTokens]
  split
  · rfl
  · simp

/-- A value against its text: as many values and names, no fewer letters, and as many letters only if all names are
plain. -/
structure Written (v : Value) : Prop where
  values : (v.tokens xmlEncode).count .value = (v.tokens id).count .value
  card : Multiset.card (v.tokens xmlEncode) = Multiset.card (v.tokens id)
  letters : lettersOf (v.tokens id) ≤ lettersOf (v.tokens xmlEncode)
  plain : lettersOf (v.tokens id) = lettersOf (v.tokens xmlEncode) → v.PlainNames

theorem written_leaf {v : Value} (hTokens : v.tokens xmlEncode = v.tokens id) (hNames : ∀ name, ¬ v.HasName name) :
    Written v where
  values := by rw [hTokens]
  card := by rw [hTokens]
  letters := by rw [hTokens]
  plain _ name hName := absurd hName (hNames name)

theorem written_elements {vs : List Value} (h : ∀ v ∈ vs, Written v) :
    (elementsTokens xmlEncode vs).count .value = (elementsTokens id vs).count .value ∧
      Multiset.card (elementsTokens xmlEncode vs) = Multiset.card (elementsTokens id vs) ∧
      lettersOf (elementsTokens id vs) ≤ lettersOf (elementsTokens xmlEncode vs) ∧
      (lettersOf (elementsTokens id vs) = lettersOf (elementsTokens xmlEncode vs) → ∀ v ∈ vs, v.PlainNames) := by
  induction vs with
  | nil => exact ⟨rfl, rfl, Nat.le_refl _, fun _ v hv => absurd hv List.not_mem_nil⟩
  | cons v vs ih =>
    obtain ⟨hValues, hCard, hLetters, hPlain⟩ := ih fun w hw => h w (List.mem_cons_of_mem v hw)
    have hHead := h v List.mem_cons_self
    have hHeadLetters := hHead.letters
    simp only [elementsTokens, Multiset.count_add, Multiset.card_add, lettersOf_add]
    refine ⟨by rw [hHead.values, hValues], by rw [hHead.card, hCard], by omega, fun hEq w hw => ?_⟩
    rcases List.mem_cons.mp hw with rfl | hw
    · exact hHead.plain (by omega)
    · exact hPlain (by omega) w hw

theorem written_members {ms : List (Bytes × Value)} (h : ∀ m ∈ ms, Written m.2) :
    (membersTokens xmlEncode ms).count .value = (membersTokens id ms).count .value ∧
      Multiset.card (membersTokens xmlEncode ms) = Multiset.card (membersTokens id ms) ∧
      lettersOf (membersTokens id ms) ≤ lettersOf (membersTokens xmlEncode ms) ∧
      (lettersOf (membersTokens id ms) = lettersOf (membersTokens xmlEncode ms) →
        ∀ m ∈ ms, PlainName m.1 ∧ m.2.PlainNames) := by
  induction ms with
  | nil => exact ⟨rfl, rfl, Nat.le_refl _, fun _ m hm => absurd hm List.not_mem_nil⟩
  | cons m ms ih =>
    obtain ⟨name, v⟩ := m
    obtain ⟨hValues, hCard, hLetters, hPlain⟩ := ih fun n hn => h n (List.mem_cons_of_mem _ hn)
    have hHead : Written v := h (name, v) List.mem_cons_self
    have hHeadLetters := hHead.letters
    have hName := xmlEncode_length_le name
    simp only [membersTokens, memberTokens, Multiset.count_add, Multiset.card_add, lettersOf_add, lettersOf_nameTokens,
      card_nameTokens, count_nameTokens, id_eq]
    refine ⟨by rw [hHead.values, hValues], by rw [hHead.card, hCard], by omega, fun hEq n hn => ?_⟩
    rcases List.mem_cons.mp hn with rfl | hn
    · refine ⟨?_, hHead.plain (by omega)⟩
      by_contra hSpecial
      have hLonger : name.length < (xmlEncode name).length := xmlEncode_length_lt hSpecial
      omega
    · exact hPlain (by omega) n hn

theorem writtenText (v : Value) : Written v := by
  induction v using Value.childInduction with
  | h v ih =>
    cases v with
    | array elements =>
      have hElements : ∀ v ∈ elements, Written v := ih
      obtain ⟨hValues, hCard, hLetters, hPlain⟩ := written_elements hElements
      refine ⟨?_, ?_, ?_, fun hEq name hName => ?_⟩
      · simp only [Value.tokens, Multiset.count_add, hValues]
      · simp only [Value.tokens, Multiset.card_add, hCard]
      · simp only [Value.tokens, lettersOf_add]
        omega
      · simp only [Value.tokens, lettersOf_add] at hEq
        cases hName with
        | element hMem hName => exact hPlain (by omega) _ hMem name hName
    | struct members =>
      have hMembers : ∀ m ∈ members, Written m.2 := fun m hm => ih m.2 (List.mem_map.mpr ⟨m, hm, rfl⟩)
      obtain ⟨hValues, hCard, hLetters, hPlain⟩ := written_members hMembers
      refine ⟨?_, ?_, ?_, fun hEq name hName => ?_⟩
      · simp only [Value.tokens, Multiset.count_add, hValues]
      · simp only [Value.tokens, Multiset.card_add, hCard]
      · simp only [Value.tokens, lettersOf_add]
        omega
      · simp only [Value.tokens, lettersOf_add] at hEq
        cases hName with
        | here hMem => exact (hPlain (by omega) _ hMem).1
        | member hMem hName => exact (hPlain (by omega) _ hMem).2 name hName
    | _ => exact written_leaf (by simp only [Value.tokens]) (by rintro name ⟨⟩)

theorem plainNames_of_tokens_le {v : Value} (h : v.tokens id ≤ v.tokens xmlEncode) : v.PlainNames := by
  have hSame := Multiset.eq_of_le_of_card_le h (le_of_eq (writtenText v).card)
  exact (writtenText v).plain (by rw [hSame])

/-! ## Values that come back -/

section

variable [DoubleText]

theorem membersFromXml_mem {fuel offset next : Nat} {xml : Bytes} {members all : List (Bytes × Value)}
    (h : membersFromXml fuel members xml offset = some (all, next)) {m : Bytes × Value} (hm : m ∈ members) : m ∈ all := by
  induction fuel generalizing members offset with
  | zero =>
    rw [membersFromXml] at h
    cases h
  | succ fuel ih =>
    rw [membersFromXml] at h
    split at h
    · cases h
      exact hm
    · dsimp only at h
      split at h
      · cases h
      · exact ih h (mem_insertAbsent _ _ hm)

/-- A value whose reading in place gives the value itself is one that the codec can represent. -/
def CodableWhereRead (v : Value) : Prop :=
  ∀ (fuel : Nat) (xml : Bytes) (offset next : Nat) (rest : Bytes), xml.length ≤ intMax → v.toXml.length ≤ fuel + 1 →
    xml.drop offset = v.toXml ++ rest → fromXmlFuel (fuel + 1) xml offset = some (v, next) → v.Codable

theorem codable_elements {vs : List Value} (h : ∀ v ∈ vs, CodableWhereRead v)
    {fuel offset : Nat} {xml rest : Bytes} (hLength : xml.length ≤ intMax) (hFuel : (elementsToXml vs).length + 2 ≤ fuel)
    (hDrop : xml.drop offset = elementsToXml vs ++ (dataEtag ++ rest)) (hRead : (elementsFromXml fuel xml offset).1 = vs) :
    ∀ v ∈ vs, v.Codable := by
  induction vs generalizing fuel offset with
  | nil => exact fun v hv => absurd hv List.not_mem_nil
  | cons v vs ih =>
    obtain ⟨fuel, rfl⟩ := Nat.exists_eq_add_of_le' (Nat.le_trans (Nat.le_add_left 2 _) hFuel)
    rw [elementsToXml, List.length_append] at hFuel
    rw [elementsToXml, List.append_assoc] at hDrop
    rw [elementsFromXml] at hRead
    cases hHead : fromXmlFuel (fuel + 1) xml offset with
    | none =>
      rw [hHead] at hRead
      cases hRead
    | some read =>
      obtain ⟨w, next⟩ := read
      rw [hHead] at hRead
      obtain ⟨rfl, hTail⟩ := List.cons.inj hRead
      have hCodable : w.Codable := h w List.mem_cons_self fuel xml offset next _ hLength (by omega) hDrop hHead
      have hBack := readsBack_of_codable hCodable fuel xml offset _ hLength (by omega) hDrop
      rw [hBack, Option.some.injEq, Prod.mk.injEq] at hHead
      obtain ⟨_, rfl⟩ := hHead
      have hPos := toXml_pos hCodable.ne_invalid
      have hRest := ih (fun u hu => h u (List.mem_cons_of_mem w hu)) (by omega) (drop_add_of_drop hDrop) hTail
      intro u hu
      rcases List.mem_cons.mp hu with rfl | hu
      · exact hCodable
      · exact hRest u hu

theorem codable_members {ms front : List (Bytes × Value)} (h : ∀ m ∈ ms, CodableWhereRead m.2)
    (hNames : ∀ m ∈ ms, PlainName m.1) (hSorted : KeysSorted (front ++ ms)) {fuel offset next : Nat} {xml rest : Bytes}
    (hLength : xml.length ≤ intMax) (hFuel : (membersToXml ms).length + 2 ≤ fuel)
    (hDrop : xml.drop offset = membersToXml ms ++ (structEtag ++ rest))
    (hRead : membersFromXml fuel front xml offset = some (front ++ ms, next)) : ∀ m ∈ ms, m.2.Codable := by
  induction ms generalizing fuel offset front with
  | nil => exact fun m hm => absurd hm List.not_mem_nil
  | cons m ms ih =>
    obtain ⟨name, v⟩ := m
    have hPlain : PlainName name := hNames (name, v) List.mem_cons_self
    have hTags : 2 ≤ memberTag.length := by decide
    simp only [membersToXml, memberToXml, xmlEncode_plain hPlain, List.length_append, List.append_assoc] at hFuel hDrop
    obtain ⟨fuel, rfl⟩ := Nat.exists_eq_add_of_le' (Nat.le_trans (Nat.le_add_left 2 _) hFuel)
    obtain ⟨body, rfl, hBody, hStep⟩ := membersFromXml_member (fuel + 1) front hPlain hLength hDrop
    rw [hStep] at hRead
    obtain ⟨⟨w, stop⟩, hValue, hRest⟩ := Option.bind_eq_some_iff.mp hRead
    have hBefore : ∀ e ∈ front, e.1 < name := fun e he =>
      (List.pairwise_append.mp hSorted).2.2 e he (name, v) List.mem_cons_self
    rw [insertAbsent_last w hBefore] at hRest
    -- the value stays under its name, where the struct that came out has the value of the member
    have hSame : w = v := by
      have hMem := membersFromXml_mem hRest (List.mem_append_right front (List.mem_singleton_self (name, w)))
      have hFound := (find?_map_eq_some_iff hSorted).mpr hMem
      have hOwn := (find?_map_eq_some_iff hSorted).mpr
        (List.mem_append_right front (List.mem_cons_self (a := (name, v)) (l := ms)))
      exact Option.some.inj (hFound.symm.trans hOwn)
    subst hSame
    have hCodable : w.Codable := h (name, w) List.mem_cons_self fuel xml _ stop _ hLength (by simp only; omega) hBody hValue
    have hBack := readsBack_of_codable hCodable fuel xml _ _ hLength (by omega) hBody
    rw [hBack, Option.some.injEq, Prod.mk.injEq] at hValue
    obtain ⟨_, rfl⟩ := hValue
    have hAfter := drop_add_of_drop hBody
    have hSkip := nextTagIs_here (bytes "/member>") hLength hAfter
    change nextTagIs memberEtag xml _ = some (_ + memberEtag.length) at hSkip
    rw [skipTag, hSkip, Option.getD_some] at hRest
    have hSortedTail : KeysSorted (front ++ [(name, w)] ++ ms) := by simpa using hSorted
    have hEnough : (membersToXml ms).length + 2 ≤ fuel + 1 := by omega
    have hTail := ih (fun e he => h e (List.mem_cons_of_mem _ he)) (fun e he => hNames e (List.mem_cons_of_mem _ he))
      hSortedTail hEnough (drop_add_of_drop hAfter) (by simpa using hRest)
    intro e he
    rcases List.mem_cons.mp he with rfl | he
    · exact hCodable
    · exact hTail e he

theorem codableWhereRead (hStrtod : DoubleText.Bounded) {v : Value} (h : v.Regular) (hNames : v.PlainNames) :
    CodableWhereRead v := by
  induction h with
  | invalid =>
    intro fuel xml offset next rest _ _ _ hRead
    exact absurd rfl ((readersStop hStrtod (fuel + 1) xml).value offset .invalid next hRead).1
  | boolean b => exact fun _ _ _ _ _ _ _ _ _ => .boolean b
  | int i => exact fun _ _ _ _ _ _ _ _ _ => .int i
  | double hExact _ => exact fun _ _ _ _ _ _ _ _ _ => .double hExact
  | string s => exact fun _ _ _ _ _ _ _ _ _ => .string s
  | dateTime t =>
    intro fuel xml offset next rest hLength _ hDrop hRead
    rw [fromXmlFuel_dateTime fuel t hLength hDrop] at hRead
    obtain ⟨t', hScan, hSame⟩ := Option.map_eq_some_iff.mp hRead
    cases hSame
    have hExact : t.Exact := by rw [Tm.Exact, cStr_timeText, hScan]
    exact .dateTime hExact
  | base64 data => exact fun _ _ _ _ _ _ _ _ _ => .base64 data
  | @array elements hElements ih =>
    intro fuel xml offset next rest hLength hFuel hDrop hRead
    simp only [Value.toXml, List.append_assoc] at hDrop
    rw [fromXmlFuel_array fuel hLength hDrop, Option.some.injEq, Prod.mk.injEq, Value.array.injEq] at hRead
    have hEnough : (elementsToXml elements).length + 2 ≤ fuel := by
      have hTags : 3 ≤ valueTag.length := by decide
      simp only [Value.toXml, List.length_append] at hFuel
      omega
    have hBody := drop_add_of_drop (drop_add_of_drop (drop_add_of_drop hDrop))
    have hInner : ∀ v ∈ elements, CodableWhereRead v := fun v hv => ih v hv fun name hName => hNames name (.element hv hName)
    exact .array (codable_elements hInner hLength hEnough hBody hRead.1)
  | @struct members hSorted hMembers ih =>
    intro fuel xml offset next rest hLength hFuel hDrop hRead
    simp only [Value.toXml, List.append_assoc] at hDrop
    rw [fromXmlFuel_struct fuel hLength hDrop] at hRead
    obtain ⟨⟨all, stop⟩, hAll, hSame⟩ := Option.map_eq_some_iff.mp hRead
    rw [Prod.mk.injEq, Value.struct.injEq] at hSame
    obtain ⟨rfl, _⟩ := hSame
    have hEnough : (membersToXml all).length + 2 ≤ fuel := by
      have hTags : 3 ≤ valueTag.length := by decide
      simp only [Value.toXml, List.length_append] at hFuel
      omega
    have hBody := drop_add_of_drop (drop_add_of_drop hDrop)
    have hPlain : ∀ m ∈ all, PlainName m.1 := fun m hm => hNames m.1 (.here hm)
    have hInner : ∀ m ∈ all, CodableWhereRead m.2 := fun m hm => ih m hm fun name hName => hNames name (.member hm hName)
    exact .struct hSorted hPlain (@codable_members _ all [] hInner hPlain hSorted fuel _ stop xml _ hLength hEnough hBody hAll)

theorem Value.Codable.plainNames {v : Value} (h : v.Codable) : v.PlainNames := by
  induction h with
  | array hElements ih =>
    intro name hName
    cases hName with
    | element hMem hName => exact ih _ hMem name hName
  | struct hSorted hNames hMembers ih =>
    intro name hName
    cases hName with
    | here hMem => exact hNames _ hMem
    | member hMem hName => exact ih _ hMem name hName
  | _ => rintro name ⟨⟩

theorem fromXml_toXml_eq_some_iff (hStrtod : DoubleText.Bounded) {v : Value} (h : v.Regular) :
    (∃ after, fromXml v.toXml 0 = some (v, after)) ↔ v.Codable ∧ v.toXml.length ≤ intMax := by
  constructor
  · rintro ⟨after, hRead⟩
    have hLength : v.toXml.length ≤ intMax := by
      by_contra hLong
      rw [fromXml_overlong (Nat.not_le.mp hLong)] at hRead
      cases hRead
    have hTokens := (readersCount hStrtod (v.toXml.length + 1) v.toXml).value 0 v after hRead
    have hText := toXml_tokens h []
    rw [List.append_nil, tokensIn, Multiset.coe_nil, add_zero] at hText
    have hPlain : v.PlainNames := by
      refine plainNames_of_tokens_le ?_
      rw [← hText]
      exact le_trans (Multiset.le_add_right _ _) hTokens
    exact ⟨codableWhereRead hStrtod h hPlain v.toXml.length v.toXml 0 after [] hLength (Nat.le_succ _)
      (by rw [List.append_nil]; rfl) hRead, hLength⟩
  · rintro ⟨hCodable, hLength⟩
    exact ⟨_, fromXml_of_codable hCodable hLength⟩

/-! ## Struct names -/

/-- Values that the codec can represent but for the names of their members, which are any but the empty one. -/
inductive Value.CodableButNames : Value → Prop
  | boolean (b : Bool) : CodableButNames (.boolean b)
  | int (i : Int32) : CodableButNames (.int i)
  | double {bits : UInt64} (hExact : DoubleText.Exact bits) (hText : 60 ∉ DoubleText.print bits) :
      CodableButNames (.double bits)
  | string (s : Bytes) : CodableButNames (.string s)
  | dateTime {t : Tm} (hExact : t.Exact) : CodableButNames (.dateTime t)
  | base64 (data : Bytes) : CodableButNames (.base64 data)
  | array {elements : List Value} (hElements : ∀ v ∈ elements, CodableButNames v) : CodableButNames (.array elements)
  | struct {members : List (Bytes × Value)} (hSorted : KeysSorted members) (hNames : ∀ m ∈ members, m.1 ≠ [])
      (hMembers : ∀ m ∈ members, CodableButNames m.2) : CodableButNames (.struct members)

theorem Value.CodableButNames.regular {v : Value} (h : v.CodableButNames) : v.Regular := by
  induction h with
  | boolean b => exact .boolean b
  | int i => exact .int i
  | double hExact hText => exact .double hExact hText
  | string s => exact .string s
  | dateTime _ => exact .dateTime _
  | base64 data => exact .base64 data
  | array _ ih => exact .array ih
  | struct hSorted _ _ ih => exact .struct hSorted ih

theorem Value.CodableButNames.codable {v : Value} (h : v.CodableButNames) (hPlain : v.PlainNames) : v.Codable := by
  induction h with
  | boolean b => exact .boolean b
  | int i => exact .int i
  | double hExact _ => exact .double hExact
  | string s => exact .string s
  | dateTime hExact => exact .dateTime hExact
  | base64 data => exact .base64 data
  | array _ ih => exact .array fun v hv => ih v hv fun name hName => hPlain name (.element hv hName)
  | struct hSorted _ _ ih =>
    exact .struct hSorted (fun m hm => hPlain m.1 (.here hm)) fun m hm =>
      ih m hm fun name hName => hPlain name (.member hm hName)

/-- A struct comes back with its names exactly when none of them, at any depth, has a letter written as an entity, and
its text is not overly long. -/
theorem struct_names_survive_iff (hStrtod : DoubleText.Bounded) {members : List (Bytes × Value)}
    (h : (Value.struct members).CodableButNames) :
    (∃ after, fromXml (Value.struct members).toXml 0 = some (.struct members, after)) ↔
      (Value.struct members).PlainNames ∧ (Value.struct members).toXml.length ≤ intMax := by
  rw [fromXml_toXml_eq_some_iff hStrtod h.regular]
  constructor
  · exact fun hBack => ⟨hBack.1.plainNames, hBack.2⟩
  · exact fun hPlain => ⟨h.codable hPlain.1, hPlain.2⟩

/-! ## Array positions -/

/-- The array that is read back is as long, and has every assigned element at its place. -/
def PositionsSurvive (elements : List Value) : Prop :=
  ∃ elements' after, fromXml (Value.array elements).toXml 0 = some (.array elements', after) ∧
    elements'.length = elements.length ∧
    ∀ (i : Nat) (v : Value), elements[i]? = some v → v ≠ .invalid → elements'[i]? = some v

theorem elementsFromXml_valid (hStrtod : DoubleText.Bounded) (fuel : Nat) (xml : Bytes) (offset : Nat) :
    ∀ v ∈ (elementsFromXml fuel xml offset).1, v ≠ .invalid := by
  induction fuel generalizing offset with
  | zero =>
    intro v hv
    rw [elementsFromXml] at hv
    cases hv
  | succ fuel ih =>
    rw [elementsFromXml]
    cases hHead : fromXmlFuel fuel xml offset with
    | none => exact fun v hv => absurd hv List.not_mem_nil
    | some read =>
      obtain ⟨v, next⟩ := read
      intro w hw
      rcases List.mem_cons.mp hw with rfl | hw
      · exact ((readersStop hStrtod fuel xml).value offset _ next hHead).1
      · exact ih next w hw

omit [DoubleText] in
theorem count_value_pos {v : Value} (h : v ≠ .invalid) : 0 < (v.tokens id).count .value := by
  cases v with
  | invalid => exact absurd rfl h
  | _ => simp [Value.tokens]

omit [DoubleText] in
theorem elements_eq_of_count {vs ws : List Value}
    (h : List.Forall₂ (fun v w => w ≠ .invalid ∧ (v ≠ .invalid → w = v)) vs ws) :
    (elementsTokens id vs).count .value ≤ (elementsTokens id ws).count .value ∧
      ((elementsTokens id ws).count .value ≤ (elementsTokens id vs).count .value → ws = vs) := by
  induction h with
  | nil => exact ⟨Nat.le_refl _, fun _ => rfl⟩
  | @cons v w vs ws hHead _ ih =>
    obtain ⟨hLe, hEq⟩ := ih
    obtain ⟨hValid, hSame⟩ := hHead
    simp only [elementsTokens, Multiset.count_add]
    by_cases hv : v = .invalid
    · have hPos := count_value_pos hValid
      have hZero : (v.tokens id).count .value = 0 := by
        rw [hv, Value.tokens, Multiset.count_zero]
      exact ⟨by omega, fun hCount => absurd hCount (by omega)⟩
    · rw [hSame hv]
      exact ⟨by omega, fun hCount => by rw [hEq (by omega)]⟩

/-- An array keeps its size and the places of its assigned elements exactly when every value in it, at any depth, is
assigned and one that the codec can represent, and its text is not overly long. -/
theorem array_positions_survive_iff (hStrtod : DoubleText.Bounded) {elements : List Value}
    (h : (Value.array elements).Regular) :
    PositionsSurvive elements ↔ (Value.array elements).Codable ∧ (Value.array elements).toXml.length ≤ intMax := by
  rw [← fromXml_toXml_eq_some_iff hStrtod h]
  constructor
  · rintro ⟨elements', after, hRead, hSize, hPlaces⟩
    have hLength : (Value.array elements).toXml.length ≤ intMax := by
      by_contra hLong
      rw [fromXml_overlong (Nat.not_le.mp hLong)] at hRead
      cases hRead
    have hValid : ∀ v ∈ elements', v ≠ .invalid := by
      have hDrop : (Value.array elements).toXml.drop 0 =
          valueTag ++ (arrayTag ++ (dataTag ++ (elementsToXml elements ++ (dataEtag ++ (arrayEtag ++ valueEtag))))) := by
        simp only [Value.toXml, List.append_assoc, List.drop_zero]
      have hLoop := fromXmlFuel_array (Value.array elements).toXml.length hLength hDrop
      have hSame := hRead.symm.trans hLoop
      rw [Option.some.injEq, Prod.mk.injEq, Value.array.injEq] at hSame
      rw [hSame.1]
      exact elementsFromXml_valid hStrtod _ _ _
    have hTokens := (readersCount hStrtod ((Value.array elements).toXml.length + 1) (Value.array elements).toXml).value 0 _
      after hRead
    have hText := toXml_tokens h []
    rw [List.append_nil, tokensIn, Multiset.coe_nil, add_zero] at hText
    have hCount : ((Value.array elements').tokens id).count .value ≤ ((Value.array elements).tokens id).count .value := by
      rw [← (writtenText (.array elements)).values, ← hText]
      exact Multiset.count_le_of_le .value (le_trans (Multiset.le_add_right _ _) hTokens)
    have hPairs : List.Forall₂ (fun v w => w ≠ .invalid ∧ (v ≠ .invalid → w = v)) elements elements' := by
      refine List.forall₂_iff_get.mpr ⟨hSize.symm, fun i hi hi' => ⟨hValid _ (List.get_mem _ _), fun hAssigned => ?_⟩⟩
      have hPlace := hPlaces i (elements.get ⟨i, hi⟩) (List.getElem?_eq_getElem hi) hAssigned
      rw [List.getElem?_eq_getElem hi'] at hPlace
      exact Option.some.inj hPlace
    have hSame : elements' = elements := by
      simp only [Value.tokens, Multiset.count_add] at hCount
      exact (elements_eq_of_count hPairs).2 (by omega)
    exact ⟨after, hSame ▸ hRead⟩
  · rintro ⟨after, hRead⟩
    exact ⟨elements, after, hRead, rfl, fun i v hv _ => hv⟩

end

/-! ## Runs -/

theorem struct_names_survive_iff_plain :
    (∃ after, @fromXml noDoubles (@Value.toXml noDoubles (.struct [(bytes "k", .int 1)])) 0 =
      some (.struct [(bytes "k", .int 1)], after)) := by
  refine (@struct_names_survive_iff noDoubles (fun s => Nat.zero_le s.length) [(bytes "k", .int 1)] ?_).mpr ⟨?_, by decide⟩
  · refine @Value.CodableButNames.struct noDoubles _ (List.pairwise_singleton _ _) ?_ ?_
    · simp [bytes]
    · intro m hm
      rw [List.mem_singleton.mp hm]
      exact @Value.CodableButNames.int noDoubles 1
  · intro name hName
    cases hName with
    | here hMem =>
      obtain ⟨rfl, _⟩ := Prod.mk.inj (List.mem_singleton.mp hMem)
      intro c hc
      have hLetter : c = 107 := List.mem_singleton.mp hc
      rw [hLetter]
      decide
    | member hMem hName =>
      rw [List.mem_singleton.mp hMem] at hName
      cases hName

/-- A member `a&b` comes back as `a&amp;b`. -/
theorem entity_stays_in_name :
    @Value.CodableButNames noDoubles (.struct [(bytes "a&b", .int 1)]) ∧
      (∃ after, @fromXml noDoubles (@Value.toXml noDoubles (.struct [(bytes "a&b", .int 1)])) 0 =
        some (.struct [(bytes "a&amp;b", .int 1)], after)) ∧
      ¬ ∃ after, @fromXml noDoubles (@Value.toXml noDoubles (.struct [(bytes "a&b", .int 1)])) 0 =
        some (.struct [(bytes "a&b", .int 1)], after) := by
  have hRead : @fromXml noDoubles (@Value.toXml noDoubles (.struct [(bytes "a&b", .int 1)])) 0 =
      some (.struct [(bytes "a&amp;b", .int 1)], 94) := by
    rfl
  refine ⟨@Value.CodableButNames.struct noDoubles _ (List.pairwise_singleton _ _) (by simp [bytes]) ?_, ⟨_, hRead⟩, ?_⟩
  · intro m hm
    rw [List.mem_singleton.mp hm]
    exact @Value.CodableButNames.int noDoubles 1
  · rintro ⟨after, hSame⟩
    rw [hRead] at hSame
    simp [bytes] at hSame

theorem array_positions_survive_iff_assigned : @PositionsSurvive noDoubles [.int 7, .string (bytes "x")] := by
  refine (@array_positions_survive_iff noDoubles (fun s => Nat.zero_le s.length) [.int 7, .string (bytes "x")] ?_).mpr
    ⟨?_, by decide⟩
  · refine @Value.Regular.array noDoubles _ ?_
    simp only [List.mem_cons, List.not_mem_nil, or_false, forall_eq_or_imp, forall_eq]
    exact ⟨@Value.Regular.int noDoubles 7, @Value.Regular.string noDoubles _⟩
  · refine @Value.Codable.array noDoubles _ ?_
    simp only [List.mem_cons, List.not_mem_nil, or_false, forall_eq_or_imp, forall_eq]
    exact ⟨@Value.Codable.int noDoubles 7, @Value.Codable.string noDoubles _⟩

/-- What was assigned to place 1 comes back at place 0. -/
theorem assigned_place_shifts :
    Value.invalid.assign 1 (.int 7) = some (.array [.invalid, .int 7]) ∧
      (∃ after, @fromXml noDoubles (@Value.toXml noDoubles (.array [.invalid, .int 7])) 0 =
        some (.array [.int 7], after)) ∧
      ¬ @PositionsSurvive noDoubles [.invalid, .int 7] := by
  have hRead : @fromXml noDoubles (@Value.toXml noDoubles (.array [.invalid, .int 7])) 0 =
      some (.array [.int 7], 68) := by
    rfl
  refine ⟨rfl, ⟨_, hRead⟩, ?_⟩
  rintro ⟨elements, after, hSame, hSize, _⟩
  rw [hRead] at hSame
  cases hSame
  exact absurd hSize (by decide)

end XcRos.Rpc
