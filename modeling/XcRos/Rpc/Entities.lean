import XcRos.Rpc.ValueBounds

/-! # The entity loops

`decodeWhile` and `encodeWhile` run the loops of `xmlDecode` and `xmlEncode` by the index into the text. Both end, and
with the results of `decodeLoop` and `encodeByte`. What is encoded holds an `&` only in front of an entity.
-/

namespace XcRos.Rpc

/-- `strncmp(s, t, n) == 0`; a text ends with the zero byte behind it. -/
def strncmpEqual : Nat → Bytes → Bytes → Bool
  | 0, _, _ => true
  | n + 1, s, t =>
    if s.headD 0 ≠ t.headD 0 then false
    else if s.headD 0 = 0 then true
    else strncmpEqual n s.tail t.tail

def decodePass (encoded : Bytes) (iAmp : Nat) (decoded : Bytes) : Nat × Bytes :=
  if encoded.getD iAmp 0 = 38 ∧ iAmp + 1 < encoded.length then
    match xmlEntities.find? fun entity => strncmpEqual entity.2.length (encoded.drop (iAmp + 1)) entity.2 with
    | some entity => (iAmp + (entity.2.length + 1), decoded ++ [entity.1])
    | none => (iAmp + 1, decoded ++ [encoded.getD iAmp 0])
  else (iAmp + 1, decoded ++ [encoded.getD iAmp 0])

/-- `while (iAmp != iSize)`; `none` when the fuel is used up. -/
def decodeWhile (encoded : Bytes) : Nat → Nat → Bytes → Option Bytes
  | 0, _, _ => none
  | fuel + 1, iAmp, decoded =>
    if iAmp = encoded.length then some decoded
    else
      let pass := decodePass encoded iAmp decoded
      decodeWhile encoded fuel pass.1 pass.2

def decodeText (fuel : Nat) (encoded : Bytes) : Option Bytes :=
  match encoded.findIdx? (· == 38) with
  | none => some encoded
  | some iAmp => decodeWhile encoded fuel iAmp (encoded.take iAmp)

def encodePass (raw : Bytes) (iRep : Nat) (encoded : Bytes) : Bytes :=
  match xmlEntities.find? fun entity => raw.getD iRep 0 == entity.1 with
  | some entity => encoded ++ [38] ++ entity.2
  | none => encoded ++ [raw.getD iRep 0]

/-- `while (iRep != iSize)` -/
def encodeWhile (raw : Bytes) : Nat → Nat → Bytes → Option Bytes
  | 0, _, _ => none
  | fuel + 1, iRep, encoded =>
    if iRep = raw.length then some encoded else encodeWhile raw fuel (iRep + 1) (encodePass raw iRep encoded)

def encodeText (fuel : Nat) (raw : Bytes) : Option Bytes :=
  match raw.findIdx? fun c => xmlEntities.any fun entity => c == entity.1 with
  | none => some raw
  | some iRep => encodeWhile raw fuel iRep (raw.take iRep)

/-! ## Decoding -/

theorem strncmpEqual_eq {t : Bytes} (h : 0 ∉ t) (s : Bytes) : strncmpEqual t.length s t = t.isPrefixOf s := by
  induction t generalizing s with
  | nil => simp [strncmpEqual]
  | cons d t ih =>
    have hd : d ≠ 0 := fun hZero => h (hZero ▸ List.mem_cons_self)
    have hTail : 0 ∉ t := fun hMem => h (List.mem_cons_of_mem d hMem)
    cases s with
    | nil =>
      -- the zero byte behind the text differs from the letter
      simp [strncmpEqual, hd.symm]
    | cons c s =>
      by_cases hHead : c = d
      · subst hHead
        simp [strncmpEqual, hd, ih hTail s]
      · have hOther : (d == c) = false := by simpa using Ne.symm hHead
        simp [strncmpEqual, List.isPrefixOf, hHead, hOther]

theorem xmlEntities_no_zero {entity : UInt8 × Bytes} (h : entity ∈ xmlEntities) : 0 ∉ entity.2 := by
  simp only [xmlEntities, List.mem_cons, List.not_mem_nil, or_false] at h
  rcases h with rfl | rfl | rfl | rfl | rfl <;> decide

theorem getD_of_lt {s : Bytes} {i : Nat} (h : i < s.length) : s.getD i 0 = s[i] := by
  rw [List.getD_eq_getElem?_getD, List.getElem?_eq_getElem h, Option.getD_some]

theorem find?_strncmp (s : Bytes) :
    (xmlEntities.find? fun entity => strncmpEqual entity.2.length s entity.2) =
      xmlEntities.find? fun entity => entity.2.isPrefixOf s := by
  have hCongr : ∀ entities : List (UInt8 × Bytes), (∀ entity ∈ entities, 0 ∉ entity.2) →
      (entities.find? fun entity => strncmpEqual entity.2.length s entity.2) =
        entities.find? fun entity => entity.2.isPrefixOf s := by
    intro entities
    induction entities with
    | nil => exact fun _ => rfl
    | cons entity entities ih =>
      intro hZero
      rw [List.find?_cons, List.find?_cons, strncmpEqual_eq (hZero entity List.mem_cons_self),
        ih fun e he => hZero e (List.mem_cons_of_mem entity he)]
  exact hCongr xmlEntities fun _ => xmlEntities_no_zero

theorem decodePass_spec {encoded : Bytes} {iAmp : Nat} (hIndex : iAmp < encoded.length) (decoded : Bytes) :
    iAmp < (decodePass encoded iAmp decoded).1 ∧ (decodePass encoded iAmp decoded).1 ≤ encoded.length ∧
      (decodePass encoded iAmp decoded).2 ++ decodeLoop 0 (encoded.drop (decodePass encoded iAmp decoded).1) =
        decoded ++ decodeLoop 0 (encoded.drop iAmp) := by
  have hDrop : encoded.drop iAmp = encoded[iAmp] :: encoded.drop (iAmp + 1) := List.drop_eq_getElem_cons hIndex
  have hGet : encoded.getD iAmp 0 = encoded[iAmp] := getD_of_lt hIndex
  have hRest : encoded.drop (iAmp + 1) ≠ [] ↔ iAmp + 1 < encoded.length := by
    rw [ne_eq, List.drop_eq_nil_iff]
    omega
  rw [decodePass, find?_strncmp, hDrop, hGet, decodeLoop]
  by_cases hAmp : encoded[iAmp] = 38 ∧ iAmp + 1 < encoded.length
  · rw [if_pos hAmp, if_pos ⟨hAmp.1, hRest.mpr hAmp.2⟩]
    cases hFind : xmlEntities.find? fun entity => entity.2.isPrefixOf (encoded.drop (iAmp + 1)) with
    | none => exact ⟨Nat.lt_succ_self iAmp, hIndex, by simp⟩
    | some entity =>
      have hPrefix : entity.2 <+: encoded.drop (iAmp + 1) := by simpa using List.find?_some hFind
      obtain ⟨rest, hText⟩ := hPrefix
      have hLength := congrArg List.length hText
      rw [List.length_append, List.length_drop] at hLength
      have hAfter : encoded.drop (iAmp + (entity.2.length + 1)) = rest := by
        rw [Nat.add_comm entity.2.length, ← Nat.add_assoc, ← List.drop_drop, ← hText, List.drop_left]
      refine ⟨?_, ?_, ?_⟩
      · show iAmp < iAmp + (entity.2.length + 1)
        omega
      · show iAmp + (entity.2.length + 1) ≤ encoded.length
        omega
      · show decoded ++ [entity.1] ++ decodeLoop 0 (encoded.drop (iAmp + (entity.2.length + 1))) =
          decoded ++ entity.1 :: decodeLoop entity.2.length (encoded.drop (iAmp + 1))
        rw [hAfter, ← hText, decodeLoop_skip, List.append_assoc, List.singleton_append]
  · rw [if_neg hAmp, if_neg fun h => hAmp ⟨h.1, hRest.mp h.2⟩]
    exact ⟨Nat.lt_succ_self iAmp, hIndex, by simp⟩

theorem decodeWhile_eq {encoded : Bytes} {fuel iAmp : Nat} (hIndex : iAmp ≤ encoded.length)
    (hFuel : encoded.length < fuel + iAmp) (decoded : Bytes) :
    decodeWhile encoded fuel iAmp decoded = some (decoded ++ decodeLoop 0 (encoded.drop iAmp)) := by
  induction fuel generalizing iAmp decoded with
  | zero => omega
  | succ fuel ih =>
    rw [decodeWhile]
    by_cases hEnd : iAmp = encoded.length
    · rw [if_pos hEnd, hEnd, List.drop_length, decodeLoop, List.append_nil]
    · obtain ⟨hForward, hWithin, hSame⟩ := decodePass_spec (by omega : iAmp < encoded.length) decoded
      rw [if_neg hEnd, ih hWithin (by omega), hSame]

theorem decodeText_eq {fuel : Nat} {encoded : Bytes} (hFuel : encoded.length < fuel) :
    decodeText fuel encoded = some (xmlDecode encoded) := by
  rw [decodeText, xmlDecode]
  cases hFind : encoded.findIdx? (· == 38) with
  | none => rfl
  | some iAmp =>
    obtain ⟨hIndex, _, _⟩ := List.findIdx?_eq_some_iff_getElem.mp hFind
    exact decodeWhile_eq (Nat.le_of_lt hIndex) (by omega) _

/-! ## Encoding -/

theorem encodeWhile_eq {raw : Bytes} {fuel iRep : Nat} (hIndex : iRep ≤ raw.length)
    (hFuel : raw.length < fuel + iRep) (encoded : Bytes) :
    encodeWhile raw fuel iRep encoded = some (encoded ++ (raw.drop iRep).flatMap encodeByte) := by
  induction fuel generalizing iRep encoded with
  | zero => omega
  | succ fuel ih =>
    rw [encodeWhile]
    by_cases hEnd : iRep = raw.length
    · rw [if_pos hEnd, hEnd, List.drop_length, List.flatMap_nil, List.append_nil]
    · have hLt : iRep < raw.length := by omega
      have hPass : encodePass raw iRep encoded = encoded ++ encodeByte raw[iRep] := by
        rw [encodePass, encodeByte, getD_of_lt hLt]
        cases xmlEntities.find? fun entity => raw[iRep] == entity.1 with
        | none => rfl
        | some entity => exact List.append_assoc ..
      rw [if_neg hEnd, ih hLt (by omega), hPass, List.drop_eq_getElem_cons hLt, List.flatMap_cons, List.append_assoc]

theorem encodeText_eq {fuel : Nat} {raw : Bytes} (hFuel : raw.length < fuel) :
    encodeText fuel raw = some (xmlEncode raw) := by
  rw [encodeText, xmlEncode]
  cases hFind : raw.findIdx? fun c => xmlEntities.any fun entity => c == entity.1 with
  | none => rfl
  | some iRep =>
    obtain ⟨hIndex, _, _⟩ := List.findIdx?_eq_some_iff_getElem.mp hFind
    exact encodeWhile_eq (Nat.le_of_lt hIndex) (by omega) _

/-- Every `&` of a text stands in front of an entity. -/
def OnlyEntities (text : Bytes) : Prop :=
  ∀ front back : Bytes, text = front ++ 38 :: back → ∃ entity ∈ xmlEntities, entity.2 <+: back

theorem onlyEntities_nil : OnlyEntities [] := fun front _ h => by
  cases front <;> cases h

theorem OnlyEntities.plain {c : UInt8} {text : Bytes} (h : OnlyEntities text) (hPlain : c ≠ 38) :
    OnlyEntities (c :: text) := by
  intro front back hText
  cases front with
  | nil => exact absurd (List.cons.inj hText).1 hPlain
  | cons d front => exact h front back (List.cons.inj hText).2

theorem OnlyEntities.append_plain {front text : Bytes} (h : OnlyEntities text) (hPlain : 38 ∉ front) :
    OnlyEntities (front ++ text) := by
  induction front with
  | nil => exact h
  | cons c front ih =>
    exact (ih fun hMem => hPlain (List.mem_cons_of_mem c hMem)).plain fun hc => hPlain (hc ▸ List.mem_cons_self)

theorem OnlyEntities.entity {entity : UInt8 × Bytes} {text : Bytes} (h : OnlyEntities text)
    (hEntity : entity ∈ xmlEntities) : OnlyEntities (38 :: (entity.2 ++ text)) := by
  have hNoAmp : ∀ e ∈ xmlEntities, (38 : UInt8) ∉ e.2 := by
    intro e he
    simp only [xmlEntities, List.mem_cons, List.not_mem_nil, or_false] at he
    rcases he with rfl | rfl | rfl | rfl | rfl <;> decide
  intro front back hText
  cases front with
  | nil => exact ⟨entity, hEntity, text, (List.cons.inj hText).2⟩
  | cons d front => exact h.append_plain (hNoAmp entity hEntity) front back (List.cons.inj hText).2

theorem onlyEntities_xmlEncode (raw : Bytes) : OnlyEntities (xmlEncode raw) := by
  rw [xmlEncode_eq]
  induction raw with
  | nil => exact onlyEntities_nil
  | cons c raw ih =>
    rw [List.flatMap_cons, encodeByte]
    cases hFind : xmlEntities.find? fun entity => c == entity.1 with
    | some entity => exact ih.entity (List.mem_of_find?_eq_some hFind)
    | none =>
      refine ih.plain ?_
      rintro rfl
      exact absurd hFind (by decide)

/-- `<`, `>`, `'` and `"` -/
def rawLetters : Bytes := [60, 62, 39, 34]

theorem encodeByte_no_raw {c d : UInt8} (hRaw : d ∈ rawLetters) : d ∉ encodeByte c := by
  have hNoRaw : ∀ entity ∈ xmlEntities, d ∉ 38 :: entity.2 := by
    intro entity hEntity
    simp only [xmlEntities, List.mem_cons, List.not_mem_nil, or_false] at hEntity
    simp only [rawLetters, List.mem_cons, List.not_mem_nil, or_false] at hRaw
    rcases hEntity with rfl | rfl | rfl | rfl | rfl <;> rcases hRaw with rfl | rfl | rfl | rfl <;> decide
  rw [encodeByte]
  cases hFind : xmlEntities.find? fun entity => c == entity.1 with
  | some entity => exact hNoRaw entity (List.mem_of_find?_eq_some hFind)
  | none =>
    intro hMem
    have hEq : d = c := List.mem_singleton.mp hMem
    subst hEq
    simp only [rawLetters, List.mem_cons, List.not_mem_nil, or_false] at hRaw
    rcases hRaw with rfl | rfl | rfl | rfl <;> exact absurd hFind (by decide)

theorem xmlEncode_no_raw {d : UInt8} (hRaw : d ∈ rawLetters) (raw : Bytes) : d ∉ xmlEncode raw := by
  rw [xmlEncode_eq]
  intro h
  obtain ⟨c, _, hc⟩ := List.mem_flatMap.mp h
  exact encodeByte_no_raw hRaw hc

/-- Every text comes back, no raw letter is left in it, and both loops end on every text. -/
theorem entityCoding (s : Bytes) :
    (∃ encoded, (∀ fuel > s.length, encodeText fuel s = some encoded) ∧
      (∀ fuel > encoded.length, decodeText fuel encoded = some s) ∧ (∀ d ∈ rawLetters, d ∉ encoded) ∧
      OnlyEntities encoded) ∧
    ∃ decoded, (∀ fuel > s.length, decodeText fuel s = some decoded) ∧ decoded.length ≤ s.length := by
  refine ⟨⟨xmlEncode s, fun fuel hFuel => encodeText_eq hFuel, fun fuel hFuel => ?_,
    fun d hd => xmlEncode_no_raw hd s, onlyEntities_xmlEncode s⟩,
    ⟨xmlDecode s, fun fuel hFuel => decodeText_eq hFuel, xmlDecode_length_le s⟩⟩
  rw [decodeText_eq hFuel, xmlDecode_xmlEncode]

end XcRos.Rpc
