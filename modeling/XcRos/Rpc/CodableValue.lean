import XcRos.Rpc.Base64RoundTrip
import XcRos.Rpc.ValueRoundTrip

/-! # Values that the codec can represent

The round trip of `ValueRoundTrip` for all types of values: binary data, and the doubles and times whose own text is
read back. A value is also read back from behind blanks.
-/

namespace XcRos.Rpc

open XcRos.Foundation

def DoubleText.Exact [DoubleText] (bits : UInt64) : Prop :=
  DoubleText.print bits ≠ [] ∧
    ∀ rest, DoubleText.strtod (cStr (DoubleText.print bits ++ 60 :: rest)) = (bits, (DoubleText.print bits).length)

def Tm.Exact (t : Tm) : Prop := scanTime (cStr (timeText t)) = some t

/-- Valid values with plain member names, down to doubles and times that are read back. -/
inductive Value.Codable [DoubleText] : Value → Prop
  | boolean (b : Bool) : Codable (.boolean b)
  | int (i : Int32) : Codable (.int i)
  | double {bits : UInt64} (hExact : DoubleText.Exact bits) : Codable (.double bits)
  | string (s : Bytes) : Codable (.string s)
  | dateTime {t : Tm} (hExact : t.Exact) : Codable (.dateTime t)
  | base64 (data : Bytes) : Codable (.base64 data)
  | array {elements : List Value} (hElements : ∀ v ∈ elements, Codable v) : Codable (.array elements)
  | struct {members : List (Bytes × Value)} (hSorted : KeysSorted members) (hNames : ∀ m ∈ members, PlainName m.1)
      (hMembers : ∀ m ∈ members, Codable m.2) : Codable (.struct members)

/-! ## Text -/

section

variable {c : UInt8} (hDigit : isdigit c = false)

include hDigit

theorem not_mem_printNat (n : Nat) : c ∉ printNat n := by
  intro h
  exact absurd (printNat_isdigit n c h) (by simp [hDigit])

theorem not_mem_zeros (count n : Nat) : c ∉ List.replicate count 48 ++ printNat n := by
  intro h
  rcases List.mem_append.mp h with h | h
  · rw [List.eq_of_mem_replicate h] at hDigit
    exact absurd hDigit (by decide)
  · exact not_mem_printNat hDigit n h

theorem not_mem_printInt (hMinus : c ≠ 45) (n : Int) : c ∉ printInt n := by
  rw [printInt]
  split
  · exact List.not_mem_cons_of_ne_of_not_mem hMinus (not_mem_printNat hDigit n.natAbs)
  · exact not_mem_printNat hDigit n.natAbs

theorem not_mem_printBlankPadded (hMinus : c ≠ 45) (hBlank : c ≠ 32) (n : Int) : c ∉ printBlankPadded n := by
  intro h
  rcases List.mem_append.mp h with h | h
  · exact hBlank (List.eq_of_mem_replicate h)
  · exact not_mem_printInt hDigit hMinus n h

theorem not_mem_printZeroPadded (hMinus : c ≠ 45) (n : Int) : c ∉ printZeroPadded n := by
  rw [printZeroPadded]
  split
  · exact List.not_mem_cons_of_ne_of_not_mem hMinus (not_mem_zeros hDigit _ _)
  · exact not_mem_zeros hDigit _ _

theorem not_mem_timeText (hMinus : c ≠ 45) (hBlank : c ≠ 32) (hLetter : c ≠ 84) (hColon : c ≠ 58) (t : Tm) :
    c ∉ timeText t := by
  intro h
  have hWhole := List.mem_of_mem_take h
  simp [not_mem_printBlankPadded hDigit hMinus hBlank, not_mem_printZeroPadded hDigit hMinus, hLetter, hColon] at hWhole

end

theorem timeText_no_tag (t : Tm) : 60 ∉ timeText t :=
  not_mem_timeText (by decide) (by decide) (by decide) (by decide) (by decide) t

theorem cStr_timeText (t : Tm) : cStr (timeText t) = timeText t := by
  have hZero : 0 ∉ timeText t := not_mem_timeText (by decide) (by decide) (by decide) (by decide) (by decide) t
  rw [cStr, List.takeWhile_eq_self_iff]
  intro c hc
  have hNe : c ≠ 0 := fun h => hZero (h ▸ hc)
  simpa using hNe

theorem nextTagIs_behind {xml blanks rest : Bytes} {offset : Nat} (tag : Bytes) (hLength : xml.length ≤ intMax)
    (hBlanks : ∀ c ∈ blanks, isspace c = true) (hDrop : xml.drop offset = blanks ++ (60 :: tag ++ rest)) :
    nextTagIs (60 :: tag) xml offset = some (offset + blanks.length + (60 :: tag).length) := by
  have hOffset := lt_length_of_drop hDrop (by simp)
  have hTake : (xml.drop offset).takeWhile isspace = blanks := by
    rw [hDrop]
    exact takeWhile_append_stop hBlanks (by decide)
  have hRest : (xml.drop offset).drop blanks.length = 60 :: tag ++ rest := by
    rw [hDrop, List.drop_left]
  rw [nextTagIs, if_neg (by omega), if_neg (by omega)]
  simp only [hTake, hRest]
  rw [if_pos (List.prefix_append _ _)]

/-! ## Round trip -/

section

variable [DoubleText]

theorem Value.Codable.ne_invalid {v : Value} (h : v.Codable) : v ≠ .invalid := by
  rintro rfl
  cases h

theorem readsBack_double {bits : UInt64} (hExact : DoubleText.Exact bits) : ReadsBack (.double bits) := by
  intro fuel xml offset rest hLength _ hDrop
  simp only [Value.toXml, doubleToXml, List.append_assoc] at hDrop
  obtain ⟨hValue, hTag⟩ := valueOpens doubleTag (bytes "double") rfl hLength (by decide) (by decide) hDrop
  have hBody := drop_add_of_drop (drop_add_of_drop hDrop)
  have hRead : doubleFromXml xml (offset + valueTag.length + doubleTag.length) =
      some (.double bits, offset + valueTag.length + doubleTag.length + (DoubleText.print bits).length) := by
    have hText : DoubleText.strtod (cStr (DoubleText.print bits ++ (doubleEtag ++ (valueEtag ++ rest)))) =
        (bits, (DoubleText.print bits).length) := hExact.2 (bytes "/double>" ++ (valueEtag ++ rest))
    have hSome : (DoubleText.print bits).length ≠ 0 := fun h => hExact.1 (List.length_eq_zero_iff.mp h)
    simp only [doubleFromXml, hBody, hText, if_neg hSome]
  have hClose := valueCloses doubleEtag (bytes "/double>") rfl hLength (by decide)
    (by simp [valueEtag, doubleEtag, bytes, List.cons_prefix_cons]) (drop_add_of_drop hBody)
  have hDispatch : doubleTag ≠ booleanTag ∧ doubleTag ≠ i4Tag ∧ doubleTag ≠ intTag := by decide
  simp only [fromXmlFuel, hValue, hTag, hDispatch, or_self, if_false, if_true, hRead, hClose, Option.getD_some]
  simp only [Value.toXml, doubleToXml, List.length_append, Nat.add_assoc]

theorem fromXmlFuel_dateTime (fuel : Nat) (t : Tm) {xml rest : Bytes} {offset : Nat} (hLength : xml.length ≤ intMax)
    (hDrop : xml.drop offset = (Value.dateTime t).toXml ++ rest) :
    fromXmlFuel (fuel + 1) xml offset =
      (scanTime (timeText t)).map fun t' => (.dateTime t', offset + (Value.dateTime t).toXml.length) := by
  simp only [Value.toXml, timeToXml, List.append_assoc] at hDrop
  obtain ⟨hValue, hTag⟩ := valueOpens dateTimeTag (bytes "dateTime.iso8601") rfl hLength (by decide) (by decide) hDrop
  have hBody := drop_add_of_drop (drop_add_of_drop hDrop)
  have hText : textFrom xml (offset + valueTag.length + dateTimeTag.length) = some (timeText t) :=
    textFrom_here (timeText_no_tag t) hBody
  have hClose := valueCloses dateTimeEtag (bytes "/dateTime.iso8601>") rfl hLength (by decide)
    (by simp [valueEtag, dateTimeEtag, bytes, List.cons_prefix_cons]) (drop_add_of_drop hBody)
  have hDispatch : dateTimeTag ≠ booleanTag ∧ dateTimeTag ≠ i4Tag ∧ dateTimeTag ≠ intTag ∧ dateTimeTag ≠ doubleTag ∧
      dateTimeTag ≠ [] ∧ dateTimeTag ≠ stringTag := by decide
  simp only [fromXmlFuel, hValue, hTag, hDispatch, or_self, if_false, if_true, timeFromXml, hText, cStr_timeText]
  cases scanTime (timeText t) with
  | none => rfl
  | some t' =>
    simp only [Option.map_some, hClose, Option.getD_some]
    simp only [Value.toXml, timeToXml, List.length_append, Nat.add_assoc]

theorem readsBack_dateTime {t : Tm} (hExact : t.Exact) : ReadsBack (.dateTime t) := by
  intro fuel xml offset rest hLength _ hDrop
  have hScan : scanTime (timeText t) = some t := (cStr_timeText t) ▸ hExact
  rw [fromXmlFuel_dateTime fuel t hLength hDrop, hScan]
  rfl

theorem readsBack_base64 (data : Bytes) : ReadsBack (.base64 data) := by
  intro fuel xml offset rest hLength _ hDrop
  simp only [Value.toXml, binaryToXml, List.append_assoc] at hDrop
  obtain ⟨hValue, hTag⟩ := valueOpens base64Tag (bytes "base64") rfl hLength (by decide) (by decide) hDrop
  have hBody := drop_add_of_drop (drop_add_of_drop hDrop)
  have hText : textFrom xml (offset + valueTag.length + base64Tag.length) = some (Base64.put 0 data) :=
    textFrom_here (Base64.put_no_tag 0 data) hBody
  have hClose := valueCloses base64Etag (bytes "/base64>") rfl hLength (by decide)
    (by simp [valueEtag, base64Etag, bytes, List.cons_prefix_cons]) (drop_add_of_drop hBody)
  have hDispatch : base64Tag ≠ booleanTag ∧ base64Tag ≠ i4Tag ∧ base64Tag ≠ intTag ∧ base64Tag ≠ doubleTag ∧
      base64Tag ≠ [] ∧ base64Tag ≠ stringTag ∧ base64Tag ≠ dateTimeTag := by decide
  simp only [fromXmlFuel, hValue, hTag, hDispatch, or_self, if_false, if_true, binaryFromXml, hText, Option.map_some,
    Base64.get_put, hClose, Option.getD_some]
  simp only [Value.toXml, binaryToXml, List.length_append, Nat.add_assoc]

theorem readsBack_of_codable {v : Value} (h : v.Codable) : ReadsBack v := by
  induction h with
  | boolean b => exact readsBack_boolean b
  | int i => exact readsBack_int i
  | double hExact => exact readsBack_double hExact
  | string s => exact readsBack_string s
  | dateTime hExact => exact readsBack_dateTime hExact
  | base64 data => exact readsBack_base64 data
  | array hElements ih => exact readsBack_array fun v hv => ⟨(hElements v hv).ne_invalid, ih v hv⟩
  | struct hSorted hNames hMembers ih => exact readsBack_struct hSorted hNames ih

/-! ## Behind blanks -/

theorem toXml_opens {v : Value} (h : v ≠ .invalid) : ∃ rest, v.toXml = valueTag ++ rest := by
  cases v with
  | invalid => exact absurd rfl h
  | _ =>
    simp only [Value.toXml, boolToXml, intToXml, doubleToXml, stringToXml, timeToXml, binaryToXml, List.append_assoc]
    exact ⟨_, rfl⟩

theorem fromXml_behind {v : Value} (h : v.Codable) {xml blanks rest : Bytes} {offset : Nat}
    (hLength : xml.length ≤ intMax) (hBlanks : ∀ c ∈ blanks, isspace c = true)
    (hDrop : xml.drop offset = blanks ++ (v.toXml ++ rest)) :
    fromXml xml offset = some (v, offset + blanks.length + v.toXml.length) := by
  have hInner := drop_add_of_drop hDrop
  have hFuel : v.toXml.length ≤ xml.length + 1 := by
    have := congrArg List.length hInner
    rw [List.length_drop, List.length_append] at this
    omega
  obtain ⟨body, hOpens⟩ := toXml_opens h.ne_invalid
  have hTag : nextTagIs valueTag xml offset = nextTagIs valueTag xml (offset + blanks.length) := by
    rw [hOpens, List.append_assoc] at hDrop hInner
    have hBehind := nextTagIs_behind (bytes "value>") hLength hBlanks hDrop
    have hHere := nextTagIs_here (bytes "value>") hLength hInner
    exact hBehind.trans hHere.symm
  have hSame : fromXmlFuel (xml.length + 1) xml offset = fromXmlFuel (xml.length + 1) xml (offset + blanks.length) := by
    simp only [fromXmlFuel, hTag]
  rw [fromXml, hSame]
  exact readsBack_of_codable h xml.length xml _ rest hLength hFuel hInner

end

end XcRos.Rpc
