import XcRos.CppCommon.Header

/-! # Header parsing inside its buffer

`Header::parse` looks at the end of the buffer only in front of a line. It stays inside if the buffer holds whole
lines up to its end, or up to the first line that is refused.
-/

namespace XcRos.CppCommon.Header

open XcRos.Foundation

/-- Whole lines up to the end, or up to the first one that is refused: for its length, of which four bytes are there,
or because it has no equals sign. -/
inductive WholeLines : Bytes → Prop
  | done : WholeLines []
  | tooLong {word rest : Bytes} (hWord : word.length = 4) (hLen : 1000000 < ofLe word) : WholeLines (word ++ rest)
  | noEquals {line rest : Bytes} (hLen : line.length ≤ 1000000) (hEquals : equals ∉ line) :
      WholeLines (le 4 line.length ++ (line ++ rest))
  | line {line rest : Bytes} (hLen : line.length ≤ 1000000) (hEquals : equals ∈ line) (hRest : WholeLines rest) :
      WholeLines (le 4 line.length ++ (line ++ rest))

/-- No byte behind the buffer is read, and what was read ends with it if the call succeeds. -/
structure Parsed.Inside (parsed : Parsed) (size : Nat) : Prop where
  reads : parsed ≠ .outOfBounds
  sum : ∀ readMap buf, parsed = .success readMap buf → buf = size

/-! ## Whole lines -/

theorem WholeLines.length {bs : Bytes} (h : WholeLines bs) : bs = [] ∨ 4 ≤ bs.length := by
  cases h with
  | done => exact .inl rfl
  | tooLong hWord _ => exact .inr (by rw [List.length_append]; omega)
  | noEquals _ _ => exact .inr (by rw [List.length_append, length_le]; omega)
  | line _ _ _ => exact .inr (by rw [List.length_append, length_le]; omega)

theorem ofLe_le_line {line : Bytes} (h : line.length ≤ 1000000) : ofLe (le 4 line.length) = line.length :=
  ofLe_le (by omega)

theorem wholeLines_append_iff {word back : Bytes} (hWord : word.length = 4) :
    WholeLines (word ++ back) ↔
      1000000 < ofLe word ∨ ofLe word ≤ 1000000 ∧ ofLe word ≤ back.length ∧
        (equals ∉ back.take (ofLe word) ∨ WholeLines (back.drop (ofLe word))) := by
  constructor
  · intro h
    generalize hText : word ++ back = text at h
    cases h with
    | done =>
      rw [(List.append_eq_nil_iff.mp hText).1] at hWord
      cases hWord
    | tooLong hWord' hLen =>
      rw [(List.append_inj hText (hWord.trans hWord'.symm)).1]
      exact .inl hLen
    | noEquals hLen hEquals =>
      obtain ⟨rfl, rfl⟩ := List.append_inj hText (hWord.trans (length_le 4 _).symm)
      rw [ofLe_le_line hLen, List.take_left]
      exact .inr ⟨hLen, by rw [List.length_append]; omega, .inl hEquals⟩
    | line hLen _ hRest =>
      obtain ⟨rfl, rfl⟩ := List.append_inj hText (hWord.trans (length_le 4 _).symm)
      rw [ofLe_le_line hLen, List.drop_left]
      exact .inr ⟨hLen, by rw [List.length_append]; omega, .inr hRest⟩
  · rintro (hLong | ⟨hLen, hBack, hLine⟩)
    · exact .tooLong hWord hLong
    · have hTake : (back.take (ofLe word)).length = ofLe word := List.length_take_of_le hBack
      have hSame : word = le 4 (back.take (ofLe word)).length := by
        rw [hTake, ← hWord, le_ofLe]
      have hText : word ++ back =
          le 4 (back.take (ofLe word)).length ++ (back.take (ofLe word) ++ back.drop (ofLe word)) := by
        rw [← hSame, List.take_append_drop]
      rw [hText]
      by_cases hEquals : equals ∈ back.take (ofLe word)
      · exact .line (hTake.trans_le hLen) hEquals (hLine.resolve_left fun hNone => hNone hEquals)
      · exact .noEquals (hTake.trans_le hLen) hEquals

/-! ## The loop -/

theorem indexOf_equals_eq_none_iff {line : Bytes} : indexOf [equals] line = none ↔ equals ∉ line := by
  rw [← List.singleton_infix_iff, ← indexOf_isSome_iff, ← Option.not_isSome_iff_eq_none]

theorem not_inside_outOfBounds {size : Nat} : ¬ Parsed.outOfBounds.Inside size := fun h => h.reads rfl

theorem inside_failure {errorMsg : String} {readMap : MString} {size : Nat} :
    (Parsed.failure errorMsg readMap).Inside size :=
  ⟨by simp, by simp⟩

theorem parseFrom_inside_iff {buffer : Bytes} {buf : Nat} (hBuf : buf ≤ buffer.length) (readMap : MString) :
    (parseFrom buffer buffer.length buf readMap).Inside buffer.length ↔ WholeLines (buffer.drop buf) := by
  induction hSize : buffer.length - buf using Nat.strongRecOn generalizing buf readMap with
  | ind n ih =>
    have hLength : (buffer.drop buf).length = n := by rw [List.length_drop, hSize]
    rw [parseFrom]
    split
    · rename_i hMore
      split
      · rename_i hShort
        refine iff_of_false not_inside_outOfBounds fun h => ?_
        obtain hNil | hFour := h.length
        · rw [hNil, List.length_nil] at hLength
          omega
        · omega
      · rename_i hFour
        have hWord : ((buffer.drop buf).take 4).length = 4 := by
          rw [List.length_take]
          omega
        have hBack : (buffer.drop buf).drop 4 = buffer.drop (buf + 4) := List.drop_drop
        have hSplit := @wholeLines_append_iff _ (buffer.drop (buf + 4)) hWord
        rw [← hBack, List.take_append_drop, hBack] at hSplit
        rw [hSplit]
        dsimp only
        generalize ofLe ((buffer.drop buf).take 4) = len
        split
        · rename_i hLong
          exact iff_of_true inside_failure (.inl hLong)
        · rename_i hLen
          rw [List.length_drop]
          split
          · exact iff_of_false not_inside_outOfBounds (by omega)
          · rename_i hLine
            split
            · rename_i hNone
              exact iff_of_true inside_failure
                (.inr ⟨by omega, by omega, .inl (indexOf_equals_eq_none_iff.mp hNone)⟩)
            · rename_i eqpos hSome
              have hEquals : ¬ equals ∉ (buffer.drop (buf + 4)).take len := fun hNot => by
                rw [indexOf_equals_eq_none_iff.mpr hNot] at hSome
                cases hSome
              rw [ih (buffer.length - (buf + 4 + len)) (by omega) (by omega) _ rfl, List.drop_drop]
              constructor
              · exact fun h => .inr ⟨by omega, by omega, .inr h⟩
              · rintro (h | ⟨_, _, h⟩)
                · omega
                · exact h.resolve_left hEquals
    · rename_i hEnd
      have hNil : buffer.drop buf = [] := List.drop_eq_nil_of_le (by omega)
      rw [hNil]
      refine iff_of_true ⟨by simp, fun readMap buf' h => ?_⟩ .done
      cases h
      omega

/-- `parse` stays inside its buffer just if the buffer holds whole lines. -/
theorem parse_inside_iff {buffer : Bytes} {size : UInt32} (hSize : buffer.length = size.toNat) :
    (parse buffer size).Inside size.toNat ↔ WholeLines buffer := by
  rw [parse, ← hSize]
  exact parseFrom_inside_iff (Nat.zero_le _) _

def cutBuffer : Bytes := [1, 0, 0, 0, equals, 7]

theorem parse_inside_iff_sample : (parse [1, 0, 0, 0, equals] 5).Inside 5 ↔ WholeLines [1, 0, 0, 0, equals] :=
  @parse_inside_iff _ 5 rfl

theorem not_wholeLines_cutBuffer : ¬ WholeLines cutBuffer := by
  have hFirst : cutBuffer = [1, 0, 0, 0] ++ [equals, 7] := rfl
  rw [hFirst, wholeLines_append_iff rfl]
  rintro (h | ⟨-, -, h | h⟩)
  · exact absurd h (by decide)
  · exact absurd h (by decide)
  · have hShort := h.length
    revert hShort
    decide

/-- The second length is read from one byte of the buffer and three behind it. -/
theorem not_inside_cutBuffer :
    cutBuffer.length = (6 : UInt32).toNat ∧ ¬ (parse cutBuffer 6).Inside (6 : UInt32).toNat := by
  refine ⟨rfl, ?_⟩
  have hIff := @parseFrom_inside_iff cutBuffer 0 (Nat.zero_le _) MString.empty
  exact fun h => not_wholeLines_cutBuffer (hIff.mp h)

end XcRos.CppCommon.Header
