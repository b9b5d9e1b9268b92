import XcRos.Rpc.Value

/-! # Where the readers stop

Each reader of tags and values moves the offset forward, and never past the end of the text. What is read is a valid
value.
-/

namespace XcRos.Rpc

open XcRos.Foundation

/-- `strtod` converts a part of the text that it is given. -/
def DoubleText.Bounded [DoubleText] : Prop := ∀ s, (DoubleText.strtod s).2 ≤ s.length

/-! ## Texts -/

theorem strtol_le (s : Bytes) : (strtol s).2 ≤ s.length := by
  have hBlanks := (List.takeWhile_prefix (l := s) isspace).length_le
  have hRest := (List.takeWhile_prefix
    (l := (s.drop (s.takeWhile isspace).length).drop (signOf (s.drop (s.takeWhile isspace).length)).2) isdigit).length_le
  rw [strtol]
  dsimp only
  split
  · exact Nat.zero_le _
  · rename_i hDigits
    have hSome := List.length_pos_of_ne_nil hDigits
    simp only [List.length_drop] at hRest ⊢
    omega

theorem cStr_length_le (s : Bytes) : (cStr s).length ≤ s.length := (List.takeWhile_prefix (l := s) _).length_le

theorem decodeLoop_length_le (skip : Nat) (s : Bytes) : (decodeLoop skip s).length ≤ s.length := by
  fun_induction decodeLoop skip s with
  | case1 => exact Nat.le_refl _
  | case2 skip c rest ih => exact Nat.le_succ_of_le ih
  | case3 c rest hAmp entity hEntity ih => exact Nat.succ_le_succ ih
  | case4 c rest hAmp hNone ih => exact Nat.succ_le_succ ih
  | case5 c rest hOther ih => exact Nat.succ_le_succ ih

theorem xmlDecode_length_le (encoded : Bytes) : (xmlDecode encoded).length ≤ encoded.length := by
  rw [xmlDecode_eq]
  exact decodeLoop_length_le 0 encoded

theorem tagText_length_le (s : Bytes) : (tagText s).length ≤ s.length := by
  induction s with
  | nil => exact Nat.le_refl _
  | cons c rest ih =>
    cases rest with
    | nil => simp [tagText]
    | cons d tail =>
      rw [tagText, List.length_cons, List.length_cons]
      refine Nat.succ_le_succ ?_
      split
      · exact Nat.zero_le _
      · split
        · exact Nat.zero_le _
        · exact ih

section

variable {xml : Bytes} {offset : Nat}

theorem textFrom_length_le {text : Bytes} (hOffset : offset ≤ xml.length) (h : textFrom xml offset = some text) :
    offset + text.length ≤ xml.length := by
  obtain ⟨n, _, rfl⟩ := Option.map_eq_some_iff.mp h
  rw [List.length_take, List.length_drop]
  omega

/-! ## Tags -/

theorem nextTagIs_place {tag : Bytes} {next : Nat} (h : nextTagIs tag xml offset = some next) :
    ∃ place, offset ≤ place ∧ place ≤ xml.length ∧ tag <+: xml.drop place ∧ next = place + tag.length := by
  rw [nextTagIs] at h
  split at h
  · cases h
  · split at h
    · cases h
    · dsimp only at h
      split at h
      · rename_i hPrefix
        cases h
        have hBlanks := (List.takeWhile_prefix (l := xml.drop offset) isspace).length_le
        rw [List.length_drop] at hBlanks
        rw [List.drop_drop] at hPrefix
        exact ⟨_, Nat.le_add_right _ _, by omega, hPrefix, rfl⟩
      · cases h

theorem nextTagIs_bounds {tag : Bytes} {next : Nat} (h : nextTagIs tag xml offset = some next) :
    offset + tag.length ≤ next ∧ next ≤ xml.length := by
  obtain ⟨place, hLow, hHigh, hPrefix, rfl⟩ := nextTagIs_place h
  have hLe := hPrefix.length_le
  rw [List.length_drop] at hLe
  omega

theorem getNextTag_bounds (hOffset : offset ≤ xml.length) :
    offset ≤ (getNextTag xml offset).2 ∧ (getNextTag xml offset).2 ≤ xml.length := by
  rw [getNextTag]
  split
  · exact ⟨Nat.le_refl _, hOffset⟩
  · split
    · exact ⟨Nat.le_refl _, hOffset⟩
    · dsimp only
      split
      · rename_i rest hRest
        have hText := tagText_length_le (60 :: rest)
        have hBlanks := (List.takeWhile_prefix (l := xml.drop offset) isspace).length_le
        rw [← hRest] at hText
        simp only [List.length_drop] at hText hBlanks
        rw [← hRest]
        omega
      · exact ⟨Nat.le_refl _, hOffset⟩

theorem findTag_bounds {tag : Bytes} {next : Nat} (h : findTag tag xml offset = some next) :
    offset ≤ next ∧ next ≤ xml.length := by
  rw [findTag] at h
  split at h
  · cases h
  · split at h
    · cases h
    · obtain ⟨i, hFind, rfl⟩ := Option.map_eq_some_iff.mp h
      have hBound := indexOf_add_le hFind
      rw [List.length_drop] at hBound
      omega

theorem findTag_getD_bounds (tag : Bytes) (hOffset : offset ≤ xml.length) :
    offset ≤ (findTag tag xml offset).getD offset ∧ (findTag tag xml offset).getD offset ≤ xml.length := by
  cases hFind : findTag tag xml offset with
  | none => exact ⟨Nat.le_refl _, hOffset⟩
  | some next => exact findTag_bounds hFind

theorem skipTag_bounds (tag : Bytes) (hOffset : offset ≤ xml.length) :
    offset ≤ skipTag tag xml offset ∧ skipTag tag xml offset ≤ xml.length := by
  rw [skipTag]
  cases hNext : nextTagIs tag xml offset with
  | none => exact ⟨Nat.le_refl _, hOffset⟩
  | some next =>
    have hBounds := nextTagIs_bounds hNext
    rw [Option.getD_some]
    omega

theorem parseTag_bounds (tag : Bytes) (hOffset : offset ≤ xml.length) :
    offset ≤ (parseTag tag xml offset).2 ∧ (parseTag tag xml offset).2 ≤ xml.length := by
  rw [parseTag]
  split
  · exact ⟨Nat.le_refl _, hOffset⟩
  · split
    · exact ⟨Nat.le_refl _, hOffset⟩
    · split
      · exact ⟨Nat.le_refl _, hOffset⟩
      · rename_i i hStart
        dsimp only
        split
        · exact ⟨Nat.le_refl _, hOffset⟩
        · rename_i n hEnd
          have hStartBound := indexOf_add_le hStart
          have hEndBound := indexOf_add_le hEnd
          rw [List.length_drop] at hStartBound hEndBound
          omega

end

/-! ## Values -/

/-- A valid value that was read from `offset` on, and where its reader stopped. -/
def StopsWithin (xml : Bytes) (offset : Nat) (result : Option (Value × Nat)) : Prop :=
  ∀ v next, result = some (v, next) → v ≠ .invalid ∧ offset ≤ next ∧ next ≤ xml.length

section

variable {xml : Bytes} {offset : Nat}

theorem stopsWithin_none : StopsWithin xml offset none := by
  intro v next h
  cases h

theorem stopsWithin_some {v : Value} {next : Nat} (hValid : v ≠ .invalid) (hLow : offset ≤ next)
    (hHigh : next ≤ xml.length) : StopsWithin xml offset (some (v, next)) := by
  intro w other h
  cases h
  exact ⟨hValid, hLow, hHigh⟩

theorem StopsWithin.mono {earlier : Nat} {result : Option (Value × Nat)} (h : StopsWithin xml offset result)
    (hLe : earlier ≤ offset) : StopsWithin xml earlier result := by
  intro v next hResult
  obtain ⟨hValid, hLow, hHigh⟩ := h v next hResult
  exact ⟨hValid, Nat.le_trans hLe hLow, hHigh⟩

theorem strtol_drop_le (hOffset : offset ≤ xml.length) : offset + (strtol (xml.drop offset)).2 ≤ xml.length := by
  have hLe := strtol_le (xml.drop offset)
  rw [List.length_drop] at hLe
  omega

theorem boolFromXml_stops (hOffset : offset ≤ xml.length) : StopsWithin xml offset (boolFromXml xml offset) := by
  rw [boolFromXml]
  split
  · exact stopsWithin_none
  · exact stopsWithin_some (by simp) (Nat.le_add_right _ _) (strtol_drop_le hOffset)

theorem intFromXml_stops (hOffset : offset ≤ xml.length) : StopsWithin xml offset (intFromXml xml offset) := by
  rw [intFromXml]
  split
  · exact stopsWithin_none
  · exact stopsWithin_some (by simp) (Nat.le_add_right _ _) (strtol_drop_le hOffset)

theorem doubleFromXml_stops [DoubleText] (hStrtod : DoubleText.Bounded) (hOffset : offset ≤ xml.length) :
    StopsWithin xml offset (doubleFromXml xml offset) := by
  have hLe := Nat.le_trans (hStrtod (cStr (xml.drop offset))) (cStr_length_le _)
  rw [List.length_drop] at hLe
  rw [doubleFromXml]
  split
  · exact stopsWithin_none
  · exact stopsWithin_some (by simp) (Nat.le_add_right _ _) (by omega)

theorem stringFromXml_stops (hOffset : offset ≤ xml.length) : StopsWithin xml offset (stringFromXml xml offset) := by
  rw [stringFromXml]
  cases hText : textFrom xml offset with
  | none => exact stopsWithin_none
  | some text =>
    have hLe := textFrom_length_le hOffset hText
    have hDecoded := xmlDecode_length_le text
    exact stopsWithin_some (by simp) (Nat.le_add_right _ _) (by omega)

theorem timeFromXml_stops (hOffset : offset ≤ xml.length) : StopsWithin xml offset (timeFromXml xml offset) := by
  rw [timeFromXml]
  cases hText : textFrom xml offset with
  | none => exact stopsWithin_none
  | some stime =>
    dsimp only
    cases scanTime (cStr stime) with
    | none => exact stopsWithin_none
    | some t => exact stopsWithin_some (by simp) (Nat.le_add_right _ _) (textFrom_length_le hOffset hText)

theorem binaryFromXml_stops (hOffset : offset ≤ xml.length) : StopsWithin xml offset (binaryFromXml xml offset) := by
  rw [binaryFromXml]
  cases hText : textFrom xml offset with
  | none => exact stopsWithin_none
  | some asString => exact stopsWithin_some (by simp) (Nat.le_add_right _ _) (textFrom_length_le hOffset hText)

end

/-- Where the readers of values, of the elements of an array and of the members of a struct stop. -/
structure ReadersStop [DoubleText] (fuel : Nat) (xml : Bytes) : Prop where
  value : ∀ offset v next, fromXmlFuel fuel xml offset = some (v, next) →
    v ≠ .invalid ∧ offset + valueTag.length ≤ next ∧ next ≤ xml.length
  elements : ∀ offset, offset ≤ xml.length →
    offset ≤ (elementsFromXml fuel xml offset).2 ∧ (elementsFromXml fuel xml offset).2 ≤ xml.length
  members : ∀ offset members all next, offset ≤ xml.length → membersFromXml fuel members xml offset = some (all, next) →
    offset ≤ next ∧ next ≤ xml.length

section

variable [DoubleText] {fuel : Nat} {xml : Bytes}

theorem readersStop_zero : ReadersStop 0 xml where
  value offset v next h := by
    rw [fromXmlFuel] at h
    cases h
  elements offset hOffset := by
    rw [elementsFromXml]
    exact ⟨Nat.le_refl _, hOffset⟩
  members offset members all next hOffset h := by
    rw [membersFromXml] at h
    cases h

theorem ReadersStop.value_succ (hStrtod : DoubleText.Bounded) (h : ReadersStop fuel xml) {offset next : Nat} {v : Value}
    (hRead : fromXmlFuel (fuel + 1) xml offset = some (v, next)) :
    v ≠ .invalid ∧ offset + valueTag.length ≤ next ∧ next ≤ xml.length := by
  rw [fromXmlFuel] at hRead
  cases hValue : nextTagIs valueTag xml offset with
  | none =>
    rw [hValue] at hRead
    cases hRead
  | some after =>
    rw [hValue] at hRead
    dsimp only at hRead
    obtain ⟨hOpen, hAfter⟩ := nextTagIs_bounds hValue
    obtain ⟨hTag, hInner⟩ := getNextTag_bounds hAfter
    split at hRead
    · cases hRead
    · rename_i w stop hResult
      have hStops : StopsWithin xml after (some (w, stop)) := by
        rw [← hResult]
        repeat' split
        · exact (boolFromXml_stops hInner).mono hTag
        · exact (intFromXml_stops hInner).mono hTag
        · exact (doubleFromXml_stops hStrtod hInner).mono hTag
        · exact (stringFromXml_stops hInner).mono hTag
        · exact (timeFromXml_stops hInner).mono hTag
        · exact (binaryFromXml_stops hInner).mono hTag
        · exact stopsWithin_none
        · rename_i data hData
          obtain ⟨hDataOpen, hDataLe⟩ := nextTagIs_bounds hData
          obtain ⟨hElements, hElementsLe⟩ := h.elements data hDataLe
          obtain ⟨hSkip, hSkipLe⟩ := skipTag_bounds dataEtag hElementsLe
          exact stopsWithin_some (by simp) (by omega) hSkipLe
        · exact stopsWithin_none
        · rename_i members stop hMembers
          obtain ⟨hLow, hHigh⟩ := h.members _ [] members stop hInner hMembers
          exact stopsWithin_some (by simp) (by omega) hHigh
        · exact stringFromXml_stops hAfter
        · exact stopsWithin_none
      obtain ⟨hValid, hLow, hHigh⟩ := hStops w stop rfl
      obtain ⟨hClose, hCloseLe⟩ := findTag_getD_bounds valueEtag hHigh
      cases hRead
      exact ⟨hValid, by omega, hCloseLe⟩

theorem ReadersStop.elements_succ (h : ReadersStop fuel xml) {offset : Nat} (hOffset : offset ≤ xml.length) :
    offset ≤ (elementsFromXml (fuel + 1) xml offset).2 ∧ (elementsFromXml (fuel + 1) xml offset).2 ≤ xml.length := by
  rw [elementsFromXml]
  cases hHead : fromXmlFuel fuel xml offset with
  | none => exact ⟨Nat.le_refl _, hOffset⟩
  | some read =>
    obtain ⟨v, next⟩ := read
    obtain ⟨_, hLow, hHigh⟩ := h.value offset v next hHead
    obtain ⟨hTail, hTailLe⟩ := h.elements next hHigh
    dsimp only
    omega

theorem ReadersStop.members_succ (h : ReadersStop fuel xml) {offset next : Nat} {members all : List (Bytes × Value)}
    (hOffset : offset ≤ xml.length) (hRead : membersFromXml (fuel + 1) members xml offset = some (all, next)) :
    offset ≤ next ∧ next ≤ xml.length := by
  rw [membersFromXml] at hRead
  cases hMember : nextTagIs memberTag xml offset with
  | none =>
    rw [hMember] at hRead
    cases hRead
    exact ⟨Nat.le_refl _, hOffset⟩
  | some inner =>
    rw [hMember] at hRead
    dsimp only at hRead
    obtain ⟨hOpen, hInner⟩ := nextTagIs_bounds hMember
    obtain ⟨hName, hNameLe⟩ := parseTag_bounds nameTag hInner
    split at hRead
    · cases hRead
    · rename_i v stop hValue
      obtain ⟨_, hLow, hHigh⟩ := h.value _ v stop hValue
      obtain ⟨hSkip, hSkipLe⟩ := skipTag_bounds memberEtag hHigh
      obtain ⟨hRest, hRestLe⟩ := h.members _ _ all next hSkipLe hRead
      exact ⟨by omega, hRestLe⟩

theorem readersStop (hStrtod : DoubleText.Bounded) (fuel : Nat) (xml : Bytes) : ReadersStop fuel xml := by
  induction fuel with
  | zero => exact readersStop_zero
  | succ fuel ih =>
    exact {
      value := fun _ _ _ => ih.value_succ hStrtod
      elements := fun _ => ih.elements_succ
      members := fun _ _ _ _ => ih.members_succ }

end

end XcRos.Rpc
