import XcRos.Foundation.Search
import XcRos.Rpc.CString

/-! # Tags and entities of the XML text

The tag readers look at the text from `offset` on only, so their lemmas speak of `xml.drop offset`.
A position that the source returns through `int* offset` is the result here; `none` and the
unchanged offset stand for a tag that is not there.
-/

namespace XcRos.Rpc

open XcRos.Foundation

def parseTag (tag xml : Bytes) (offset : Nat) : Bytes × Nat :=
  if xml.length > intMax then ([], offset)
  else if offset ≥ xml.length then ([], offset)
  else
    match indexOf tag (xml.drop offset) with
    | none => ([], offset)
    | some i =>
      let istart := offset + i + tag.length
      let etag := 60 :: 47 :: tag.drop 1
      match indexOf etag (xml.drop istart) with
      | none => ([], offset)
      | some n => ((xml.drop istart).take n, istart + n + etag.length)

def findTag (tag xml : Bytes) (offset : Nat) : Option Nat :=
  if xml.length > intMax then none
  else if offset ≥ xml.length then none
  else (indexOf tag (xml.drop offset)).map fun i => offset + i + tag.length

def nextTagIs (tag xml : Bytes) (offset : Nat) : Option Nat :=
  if xml.length > intMax then none
  else if offset ≥ xml.length then none
  else
    let cp := xml.drop offset
    let nc := (cp.takeWhile isspace).length
    if tag <+: cp.drop nc then some (offset + nc + tag.length) else none

/-- The letters from `<` up to the next `>`, or up to a zero byte or the end of the text. -/
def tagText : Bytes → Bytes
  | [] => []
  | c :: rest =>
    c :: if c = 62 then [] else
      match rest with
      | [] => []
      | d :: _ => if d = 0 then [] else tagText rest

def getNextTag (xml : Bytes) (offset : Nat) : Bytes × Nat :=
  if xml.length > intMax then ([], offset)
  else if offset ≥ xml.length then ([], offset)
  else
    let cp := xml.drop offset
    let nc := (cp.takeWhile isspace).length
    match cp.drop nc with
    | 60 :: rest => (tagText (60 :: rest), offset + nc + (tagText (60 :: rest)).length)
    | _ => ([], offset)

/-- `rawEntity` with `xmlEntity`: each raw letter and the text that follows its `&`. -/
def xmlEntities : List (UInt8 × Bytes) :=
  [(60, bytes "lt;"), (62, bytes "gt;"), (38, bytes "amp;"), (39, bytes "apos;"), (34, bytes "quot;")]

/-- The decoding loop; `skip` letters of a recognised entity are still to be passed over. -/
def decodeLoop : Nat → Bytes → Bytes
  | _, [] => []
  | skip + 1, _ :: rest => decodeLoop skip rest
  | 0, c :: rest =>
    if c = 38 ∧ rest ≠ [] then
      match xmlEntities.find? fun entity => entity.2.isPrefixOf rest with
      | some entity => entity.1 :: decodeLoop entity.2.length rest
      | none => c :: decodeLoop 0 rest
    else c :: decodeLoop 0 rest

def xmlDecode (encoded : Bytes) : Bytes :=
  match encoded.findIdx? (· == 38) with
  | none => encoded
  | some iAmp => encoded.take iAmp ++ decodeLoop 0 (encoded.drop iAmp)

def encodeByte (c : UInt8) : Bytes :=
  match xmlEntities.find? fun entity => c == entity.1 with
  | some entity => 38 :: entity.2
  | none => [c]

def xmlEncode (raw : Bytes) : Bytes :=
  match raw.findIdx? fun c => xmlEntities.any fun entity => c == entity.1 with
  | none => raw
  | some iRep => raw.take iRep ++ (raw.drop iRep).flatMap encodeByte

/-! ## Entities -/

theorem encodeByte_plain {c : UInt8} (h : (xmlEntities.any fun entity => c == entity.1) = false) :
    encodeByte c = [c] := by
  have hNone : (xmlEntities.find? fun entity => c == entity.1) = none := by
    rw [List.find?_eq_none]
    simpa [List.any_eq_false] using h
  rw [encodeByte, hNone]

theorem flatMap_plain {front : Bytes}
    (h : ∀ c ∈ front, (xmlEntities.any fun entity => c == entity.1) = false) :
    front.flatMap encodeByte = front := by
  induction front with
  | nil => rfl
  | cons c front ih =>
    rw [List.flatMap_cons, encodeByte_plain (h c List.mem_cons_self),
      ih (fun d hd => h d (List.mem_cons_of_mem c hd)), List.singleton_append]

theorem not_of_mem_take_findIdx {p : UInt8 → Bool} {s : Bytes} {i : Nat} (h : s.findIdx? p = some i) :
    ∀ c ∈ s.take i, p c = false := by
  intro c hc
  obtain ⟨j, hj, rfl⟩ := List.getElem_of_mem hc
  obtain ⟨hBound, _, hBefore⟩ := List.findIdx?_eq_some_iff_getElem.mp h
  have hji : j < i := by
    rw [List.length_take] at hj
    omega
  rw [List.getElem_take]
  simpa using hBefore j hji

theorem xmlEncode_eq (raw : Bytes) : xmlEncode raw = raw.flatMap encodeByte := by
  rw [xmlEncode]
  split
  · rename_i h
    rw [flatMap_plain]
    intro c hc
    simpa using (List.findIdx?_eq_none_iff.mp h) c hc
  · rename_i i h
    calc
      raw.take i ++ (raw.drop i).flatMap encodeByte
          = (raw.take i).flatMap encodeByte ++ (raw.drop i).flatMap encodeByte := by
            rw [flatMap_plain (not_of_mem_take_findIdx h)]
      _ = raw.flatMap encodeByte := by
            rw [← List.flatMap_append, List.take_append_drop]

theorem decodeLoop_plain {front : Bytes} (h : ∀ c ∈ front, (c == 38) = false) (rest : Bytes) :
    decodeLoop 0 (front ++ rest) = front ++ decodeLoop 0 rest := by
  induction front with
  | nil => rfl
  | cons c front ih =>
    have hc : c ≠ 38 := by simpa using h c List.mem_cons_self
    rw [List.cons_append, decodeLoop, if_neg (fun hAmp => hc hAmp.1),
      ih (fun d hd => h d (List.mem_cons_of_mem c hd)), List.cons_append]

theorem xmlDecode_eq (encoded : Bytes) : xmlDecode encoded = decodeLoop 0 encoded := by
  rw [xmlDecode]
  split
  · rename_i h
    have hPlain : decodeLoop 0 (encoded ++ []) = encoded ++ decodeLoop 0 [] :=
      decodeLoop_plain (fun c hc => by simpa using (List.findIdx?_eq_none_iff.mp h) c hc) []
    simpa [decodeLoop] using hPlain.symm
  · rename_i i h
    rw [← decodeLoop_plain (not_of_mem_take_findIdx h), List.take_append_drop]

theorem decodeLoop_skip (passed rest : Bytes) :
    decodeLoop passed.length (passed ++ rest) = decodeLoop 0 rest := by
  induction passed with
  | nil => rfl
  | cons c passed ih => exact ih

theorem decodeLoop_entity {entity : UInt8 × Bytes} (h : entity ∈ xmlEntities) (rest : Bytes) :
    decodeLoop 0 (38 :: (entity.2 ++ rest)) = entity.1 :: decodeLoop 0 rest := by
  have hFind : (xmlEntities.find? fun e => e.2.isPrefixOf (entity.2 ++ rest)) = some entity := by
    simp only [xmlEntities, List.mem_cons, List.not_mem_nil, or_false] at h
    rcases h with rfl | rfl | rfl | rfl | rfl <;> rfl
  have hNonempty : entity.2 ++ rest ≠ [] := by
    simp only [xmlEntities, List.mem_cons, List.not_mem_nil, or_false] at h
    rcases h with rfl | rfl | rfl | rfl | rfl <;> simp [bytes]
  rw [decodeLoop, if_pos ⟨rfl, hNonempty⟩, hFind]
  exact congrArg (entity.1 :: ·) (decodeLoop_skip entity.2 rest)

theorem decodeLoop_encodeByte (c : UInt8) (rest : Bytes) :
    decodeLoop 0 (encodeByte c ++ rest) = c :: decodeLoop 0 rest := by
  rw [encodeByte]
  split
  · rename_i entity h
    have hEq : c = entity.1 := by simpa using List.find?_some h
    rw [List.cons_append, decodeLoop_entity (List.mem_of_find?_eq_some h), hEq]
  · rename_i h
    have hc : c ≠ 38 := by
      rintro rfl
      exact absurd h (by decide)
    rw [List.singleton_append, decodeLoop, if_neg (fun hAmp => hc hAmp.1)]

@[simp] theorem xmlDecode_xmlEncode (raw : Bytes) : xmlDecode (xmlEncode raw) = raw := by
  rw [xmlDecode_eq, xmlEncode_eq]
  induction raw with
  | nil => rfl
  | cons c raw ih => rw [List.flatMap_cons, decodeLoop_encodeByte, ih]

theorem encodeByte_no_tag (c : UInt8) : 60 ∉ encodeByte c := by
  rw [encodeByte]
  split
  · rename_i entity h
    have hMem := List.mem_of_find?_eq_some h
    have hAll : ∀ e ∈ xmlEntities, (60 : UInt8) ∉ 38 :: e.2 := by decide
    exact hAll entity hMem
  · rename_i h
    have hc : c ≠ 60 := by
      rintro rfl
      exact absurd h (by decide)
    simpa using hc.symm

theorem xmlEncode_no_tag (raw : Bytes) : 60 ∉ xmlEncode raw := by
  rw [xmlEncode_eq]
  intro h
  obtain ⟨c, _, hc⟩ := List.mem_flatMap.mp h
  exact encodeByte_no_tag c hc

theorem xmlEncode_length_le (raw : Bytes) : raw.length ≤ (xmlEncode raw).length := by
  rw [xmlEncode_eq]
  induction raw with
  | nil => exact Nat.le_refl _
  | cons c raw ih =>
    have hPos : 0 < (encodeByte c).length := by
      rw [encodeByte]
      split <;> simp
    rw [List.flatMap_cons, List.length_append, List.length_cons]
    omega

/-! ## Tags -/

section Tags

variable {xml : Bytes} {offset : Nat}

theorem lt_length_of_drop {s : Bytes} (hDrop : xml.drop offset = s) (hNonempty : s ≠ []) :
    offset < xml.length := by
  rcases Nat.lt_or_ge offset xml.length with h | h
  · exact h
  · exact absurd (hDrop ▸ List.drop_eq_nil_of_le h) hNonempty

theorem drop_add_of_drop {front rest : Bytes} (hDrop : xml.drop offset = front ++ rest) :
    xml.drop (offset + front.length) = rest := by
  rw [← List.drop_drop, hDrop, List.drop_left]

theorem nextTagIs_here (tag : Bytes) {rest : Bytes} (hLength : xml.length ≤ intMax)
    (hDrop : xml.drop offset = 60 :: tag ++ rest) :
    nextTagIs (60 :: tag) xml offset = some (offset + (60 :: tag).length) := by
  have hOffset := lt_length_of_drop hDrop (by simp)
  have hBlanks : (xml.drop offset).takeWhile isspace = [] := by
    rw [hDrop, List.cons_append, List.takeWhile_cons_of_neg (by decide)]
  rw [nextTagIs, if_neg (by omega), if_neg (by omega)]
  simp only [hBlanks, List.length_nil, List.drop_zero, Nat.add_zero]
  rw [if_pos ⟨rest, hDrop.symm⟩]

theorem nextTagIs_other (tag other : Bytes) {rest : Bytes} (hDrop : xml.drop offset = 60 :: other ++ rest)
    (hOther : ¬ 60 :: tag <+: 60 :: other ++ rest) : nextTagIs (60 :: tag) xml offset = none := by
  have hBlanks : (xml.drop offset).takeWhile isspace = [] := by
    rw [hDrop, List.cons_append, List.takeWhile_cons_of_neg (by decide)]
  rw [nextTagIs]
  split
  · rfl
  · split
    · rfl
    · simp only [hBlanks, List.length_nil, List.drop_zero]
      rw [if_neg (by rw [hDrop]; exact hOther)]

theorem findTag_behind (tag : Bytes) {front rest : Bytes} (hLength : xml.length ≤ intMax) (hFront : 60 ∉ front)
    (hDrop : xml.drop offset = front ++ (60 :: tag ++ rest)) :
    findTag (60 :: tag) xml offset = some (offset + front.length + (60 :: tag).length) := by
  have hOffset := lt_length_of_drop hDrop (by simp)
  rw [findTag, if_neg (by omega), if_neg (by omega), hDrop, indexOf_first hFront, Option.map_some]

theorem findTag_behind_tag (tag : Bytes) {other rest : Bytes} (hLength : xml.length ≤ intMax) (hOther : 60 ∉ other)
    (hDifferent : ¬ 60 :: tag <+: 60 :: (other ++ (60 :: tag ++ rest)))
    (hDrop : xml.drop offset = 60 :: other ++ (60 :: tag ++ rest)) :
    findTag (60 :: tag) xml offset = some (offset + (60 :: other).length + (60 :: tag).length) := by
  have hOffset := lt_length_of_drop hDrop (by simp)
  have hFind : indexOf (60 :: tag) (xml.drop offset) = some (60 :: other).length := by
    rw [hDrop, List.cons_append, indexOf, if_neg hDifferent, indexOf_first hOther]
    rfl
  rw [findTag, if_neg (by omega), if_neg (by omega), hFind, Option.map_some]

theorem parseTag_here (tag : Bytes) {contents rest : Bytes} (hLength : xml.length ≤ intMax)
    (hContents : 60 ∉ contents)
    (hDrop : xml.drop offset = 60 :: tag ++ (contents ++ (60 :: 47 :: tag ++ rest))) :
    parseTag (60 :: tag) xml offset =
      (contents, offset + (60 :: tag).length + contents.length + (60 :: 47 :: tag).length) := by
  have hOffset := lt_length_of_drop hDrop (by simp)
  have hInner := drop_add_of_drop hDrop
  have hStart : indexOf (60 :: tag) (xml.drop offset) = some 0 := by
    rw [hDrop, indexOf_prefix]
  rw [parseTag, if_neg (by omega), if_neg (by omega), hStart]
  simp only [Nat.add_zero, List.drop_succ_cons, List.drop_zero, hInner]
  rw [indexOf_first hContents]
  simp only [List.take_left]

theorem findTag_passed (tag : Bytes) {passed rest : Bytes} (hLength : xml.length ≤ intMax) (hTag : tag ≠ [])
    (hPassed : ∀ i < passed.length, ¬ (passed.drop i).take tag.length <+: tag)
    (hDrop : xml.drop offset = passed ++ (tag ++ rest)) :
    findTag tag xml offset = some (offset + passed.length + tag.length) := by
  have hOffset := lt_length_of_drop hDrop (by simp [hTag])
  rw [findTag, if_neg (by omega), if_neg (by omega), hDrop, indexOf_passed hPassed, indexOf_prefix, Option.map_some,
    Option.map_some, Nat.zero_add]

theorem parseTag_passed (tag : Bytes) {passed contents rest : Bytes} (hLength : xml.length ≤ intMax)
    (hPassed : ∀ i < passed.length, ¬ (passed.drop i).take (60 :: tag).length <+: 60 :: tag) (hContents : 60 ∉ contents)
    (hDrop : xml.drop offset = passed ++ (60 :: tag ++ (contents ++ (60 :: 47 :: tag ++ rest)))) :
    parseTag (60 :: tag) xml offset =
      (contents, offset + passed.length + (60 :: tag).length + contents.length + (60 :: 47 :: tag).length) := by
  have hOffset := lt_length_of_drop hDrop (by simp)
  have hStart : indexOf (60 :: tag) (xml.drop offset) = some passed.length := by
    rw [hDrop, indexOf_passed hPassed, indexOf_prefix, Option.map_some, Nat.zero_add]
  have hInner := drop_add_of_drop (drop_add_of_drop hDrop)
  rw [parseTag, if_neg (by omega), if_neg (by omega), hStart]
  simp only [List.drop_succ_cons, List.drop_zero, hInner]
  rw [indexOf_first hContents]
  simp only [List.take_left]

theorem tagText_tag {name : Bytes} (rest : Bytes) (hClose : 62 ∉ name) (hZero : 0 ∉ name) :
    tagText (name ++ 62 :: rest) = name ++ [62] := by
  induction name with
  | nil => simp [tagText]
  | cons c name ih =>
    have hc : c ≠ 62 := fun h => hClose (h ▸ List.mem_cons_self)
    have hRest := ih (fun h => hClose (List.mem_cons_of_mem c h)) (fun h => hZero (List.mem_cons_of_mem c h))
    cases name with
    | nil => simp [tagText, hc]
    | cons d name =>
      have hd : d ≠ 0 := fun h => hZero (h ▸ List.mem_cons_of_mem c List.mem_cons_self)
      rw [List.cons_append] at hRest
      rw [List.cons_append, List.cons_append, tagText, if_neg hc, if_neg hd, hRest]
      rfl

theorem getNextTag_behind {blanks name rest : Bytes} (hLength : xml.length ≤ intMax)
    (hBlanks : ∀ c ∈ blanks, isspace c = true) (hClose : 62 ∉ name) (hZero : 0 ∉ name)
    (hDrop : xml.drop offset = blanks ++ (60 :: name ++ 62 :: rest)) :
    getNextTag xml offset =
      (60 :: name ++ [62], offset + blanks.length + (60 :: name ++ [62]).length) := by
  have hOffset := lt_length_of_drop hDrop (by simp)
  have hTake : (xml.drop offset).takeWhile isspace = blanks := by
    rw [hDrop]
    exact takeWhile_append_stop hBlanks (by decide)
  have hRest : (xml.drop offset).drop blanks.length = 60 :: (name ++ 62 :: rest) := by
    rw [hDrop, List.drop_left, List.cons_append]
  have hText : tagText (60 :: (name ++ 62 :: rest)) = 60 :: name ++ [62] := by
    rw [← List.cons_append]
    exact tagText_tag rest (by simpa using hClose) (by simpa using hZero)
  rw [getNextTag, if_neg (by omega), if_neg (by omega)]
  simp only [hTake, hRest, hText]

theorem getNextTag_text {blanks rest : Bytes} {c : UInt8} (hBlanks : ∀ d ∈ blanks, isspace d = true)
    (hLetter : isspace c = false) (hText : c ≠ 60) (hDrop : xml.drop offset = blanks ++ c :: rest) :
    getNextTag xml offset = ([], offset) := by
  have hTake : (xml.drop offset).takeWhile isspace = blanks := by
    rw [hDrop]
    exact takeWhile_append_stop hBlanks hLetter
  have hRest : (xml.drop offset).drop blanks.length = c :: rest := by
    rw [hDrop, List.drop_left]
  rw [getNextTag]
  split
  · rfl
  · split
    · rfl
    · simp only [hTake, hRest]
      split
      · rename_i h
        exact absurd (List.cons.inj h).1 hText
      · rfl

end Tags

end XcRos.Rpc
