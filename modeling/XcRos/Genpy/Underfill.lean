import XcRos.Genpy.AttributePaths
import XcRos.Genpy.DeserializeFn

/-! # Buffer underfill

Whether `deserialize` raises a `DeserializationError` for the first bytes of a message. `struct` notices where a number
is not whole, and a length is such a number. Slices do not notice: a string ends where the bytes do, unless that is
within a character, and so does an array of bytes.
-/

namespace XcRos.Genpy

open XcRos.Foundation XcRos.Msg

def Piece.total (pieces : List Piece) : Nat := Span.total (pieces.map Piece.span)

def NumberMissing (pieces : List Piece) (k : Nat) : Prop :=
  ∃ front code back, pieces = front ++ .number code :: back ∧ ∃ i < code.size, k ≤ Piece.total front + i

def EndsInCharacter (pieces : List Piece) (k : Nat) : Prop :=
  ∃ front bs back, pieces = front ++ .text bs :: back ∧ Piece.total front ≤ k ∧ k < Piece.total front + bs.length ∧
    decodeUtf8 (bs.take (k - Piece.total front)) = none

/-! ## Pieces one behind the other -/

theorem Piece.total_cons (piece : Piece) (pieces : List Piece) :
    Piece.total (piece :: pieces) = piece.span.size + Piece.total pieces := List.sum_cons

section

variable {pieces : List Piece} {k : Nat}

theorem numberMissing_cons {piece : Piece} :
    NumberMissing (piece :: pieces) k ↔
      (∃ code, piece = .number code ∧ k < code.size) ∨ NumberMissing pieces (k - piece.span.size) := by
  constructor
  · rintro ⟨front, code, back, hPieces, i, hByte, hLe⟩
    rcases List.cons_eq_append_iff.mp hPieces with ⟨rfl, hEq⟩ | ⟨front, rfl, rfl⟩
    · obtain ⟨rfl, rfl⟩ := List.cons.inj hEq
      have hNone : Piece.total [] = 0 := rfl
      exact .inl ⟨code, rfl, by omega⟩
    · rw [Piece.total_cons] at hLe
      exact .inr ⟨front, code, back, rfl, i, hByte, by omega⟩
  · rintro (⟨code, rfl, hLess⟩ | ⟨front, code, back, rfl, i, hByte, hLe⟩)
    · exact ⟨[], code, pieces, rfl, k, hLess, Nat.le_add_left _ _⟩
    · exact ⟨piece :: front, code, back, rfl, i, hByte, by rw [Piece.total_cons]; omega⟩

theorem not_endsInCharacter_zero : ¬ EndsInCharacter pieces 0 := by
  rintro ⟨front, bs, back, _, _, _, hDecode⟩
  rw [Nat.zero_sub, List.take_zero, decodeUtf8_nil] at hDecode
  cases hDecode

theorem endsInCharacter_cons {piece : Piece} :
    EndsInCharacter (piece :: pieces) k ↔
      (∃ bs, piece = .text bs ∧ k < bs.length ∧ decodeUtf8 (bs.take k) = none) ∨
        EndsInCharacter pieces (k - piece.span.size) := by
  constructor
  · rintro ⟨front, bs, back, hPieces, hLe, hLess, hDecode⟩
    rcases List.cons_eq_append_iff.mp hPieces with ⟨rfl, hEq⟩ | ⟨front, rfl, rfl⟩
    · obtain ⟨rfl, rfl⟩ := List.cons.inj hEq
      have hNone : Piece.total [] = 0 := rfl
      rw [hNone, Nat.zero_add] at hLess
      exact .inl ⟨bs, rfl, hLess, hDecode⟩
    · rw [Piece.total_cons] at hLe hLess hDecode
      exact .inr ⟨front, bs, back, rfl, by omega, by omega, by rwa [Nat.sub_sub]⟩
  · rintro (⟨bs, rfl, hLess, hDecode⟩ | hBehind)
    · exact ⟨[], bs, pieces, rfl, Nat.zero_le k, Nat.lt_of_lt_of_le hLess (Nat.le_add_left _ _), hDecode⟩
    · rcases Nat.lt_or_ge k piece.span.size with hInside | hGe
      · rw [Nat.sub_eq_zero_of_le hInside.le] at hBehind
        exact absurd hBehind not_endsInCharacter_zero
      · obtain ⟨front, bs, back, rfl, hLe, hLess, hDecode⟩ := hBehind
        refine ⟨piece :: front, bs, back, rfl, ?_, ?_, ?_⟩
        · rw [Piece.total_cons]
          omega
        · rw [Piece.total_cons]
          omega
        · rwa [Piece.total_cons, ← Nat.sub_sub]

theorem firstFault_struct_iff (pieces : List Piece) (k : Nat) :
    Span.firstFault (pieces.map Piece.span) k = some .struct ↔ NumberMissing pieces k ∧ ¬ EndsInCharacter pieces k := by
  induction pieces generalizing k with
  | nil =>
    refine iff_of_false (by rintro ⟨⟩) fun h => ?_
    obtain ⟨front, code, back, hPieces, _⟩ := h.1
    exact List.append_ne_nil_of_right_ne_nil front (List.cons_ne_nil _ _) hPieces.symm
  | cons piece pieces ih =>
    have hZero : k < piece.span.size → ¬ EndsInCharacter pieces (k - piece.span.size) := fun hLess =>
      Nat.sub_eq_zero_of_le hLess.le ▸ not_endsInCharacter_zero
    have hTail := ih (k - piece.span.size)
    rw [List.map_cons, Span.firstFault, numberMissing_cons, endsInCharacter_cons]
    cases piece with
    | number code =>
      by_cases hLess : k < code.size
      · have hInside : k < (Piece.number code).span.size := hLess
        rw [if_pos hInside]
        refine iff_of_true rfl ⟨.inl ⟨code, rfl, hLess⟩, ?_⟩
        rintro (⟨bs, hText, _⟩ | hBehind)
        · cases hText
        · exact hZero hInside hBehind
      · have hOutside : ¬ k < (Piece.number code).span.size := hLess
        rw [if_neg hOutside, Option.none_or, hTail]
        simp [hLess]
    | text bs =>
      by_cases hCut : k < bs.length ∧ decodeUtf8 (bs.take k) = none
      · obtain ⟨hLess, hDecode⟩ := hCut
        have hInside : k < (Piece.text bs).span.size := hLess
        have hFault : (Piece.text bs).span.fault k = some .other := by
          show (if (decodeUtf8 (bs.take k)).isSome then none else some Fault.other) = _
          rw [hDecode]
          rfl
        rw [if_pos hInside, hFault]
        exact iff_of_false (by rintro ⟨⟩) fun h => h.2 (.inl ⟨bs, rfl, hLess, hDecode⟩)
      · have hPass : (if k < (Piece.text bs).span.size then (Piece.text bs).span.fault k else none) = none := by
          split
          · rename_i hLess
            show (if (decodeUtf8 (bs.take k)).isSome then none else some Fault.other) = _
            rw [if_pos (Option.ne_none_iff_isSome.mp fun hNone => hCut ⟨hLess, hNone⟩)]
          · rfl
        rw [hPass, Option.none_or, hTail]
        have hNot : ¬ ∃ bs', Piece.text bs = .text bs' ∧ k < bs'.length ∧ decodeUtf8 (bs'.take k) = none := by
          rintro ⟨bs', hEq, hBoth⟩
          cases hEq
          exact hCut hBoth
        have hNumber : ¬ ∃ code, Piece.text bs = .number code ∧ k < code.size := by
          rintro ⟨code, hEq, _⟩
          cases hEq
        rw [or_iff_right hNumber, or_iff_right hNot]
    | blob n =>
      have hPass : (if k < (Piece.blob n).span.size then (Piece.blob n).span.fault k else none) = none := ite_self _
      have hNumber : ¬ ∃ code, Piece.blob n = .number code ∧ k < code.size := by
        rintro ⟨code, hEq, _⟩
        cases hEq
      have hText : ¬ ∃ bs, Piece.blob n = .text bs ∧ k < bs.length ∧ decodeUtf8 (bs.take k) = none := by
        rintro ⟨bs, hEq, _⟩
        cases hEq
      rw [hPass, Option.none_or, hTail, or_iff_right hNumber, or_iff_right hText]

end

/-! ## Messages cut off -/

section

variable {ctx : MsgContext} {fuel : Nat} {spec : MsgSpec} {members : Members}

theorem read_take_iff {attrs : List (Str × PyVal)} (hCanonical : members.Canonical attrs) (hWritten : members.Written attrs)
    (k : Nat) :
    members.read ((members.encoding attrs).take k) = .error .struct ↔
      NumberMissing (members.pieces attrs) k ∧ ¬ EndsInCharacter (members.pieces attrs) k := by
  have hCovers := members.covers attrs hCanonical hWritten
  rw [← firstFault_struct_iff]
  cases hCut : Span.firstFault ((members.pieces attrs).map Piece.span) k with
  | none =>
    obtain ⟨read, hRead⟩ := hCovers.of_ok hCut
    rw [hRead]
    exact iff_of_false (by rintro ⟨⟩) (by rintro ⟨⟩)
  | some fault =>
    rw [hCovers.of_fault hCut]
    exact ⟨fun h => congrArg some (Except.error.inj h), fun h => congrArg Except.error (Option.some.inj h)⟩

end

/-! ## A string cut off -/

/-- With `std_msgs/String`. -/
def stringContext : MsgContext :=
  loadInto asciiPython (createDefault asciiPython) (str "string data") (str "std_msgs/String")

def stringMembers : Members := .cons (str "data") .string .nil

def stringAttrs (text : List CodePoint) : List (Str × PyVal) := [(str "data", .str text)]

theorem acceptedContext_string : AcceptedContext asciiPython stringContext :=
  (acceptedContext_createDefault asciiPython).loadInto ⟨⟨by decide, by decide, fun base hBase => by cases hBase⟩, by decide⟩ _

theorem exists_stringSpec :
    ∃ spec, stringContext.getRegistered (str "std_msgs/String") = some spec ∧
      resolve stringContext 1 spec = some stringMembers ∧ postDeserialize (makePythonSafe (specFields spec)) = [] := by
  have hFields : (stringContext.getRegistered (str "std_msgs/String")).map MsgSpec.fields =
      some [(str "string", str "data")] := by
    decide +kernel
  obtain ⟨spec, hSpec, hFields⟩ := Option.map_eq_some_iff.mp hFields
  refine ⟨spec, hSpec, ?_, ?_⟩
  · show resolveMembers _ stringContext spec.fields = _
    rw [hFields]
    rfl
  · rw [specFields, hFields]
    rfl

theorem canonical_string (text : List CodePoint) : stringMembers.Canonical (stringAttrs text) :=
  ⟨.str text, [], rfl, ⟨text, rfl⟩, rfl⟩

theorem instance_string (text : List CodePoint) : stringMembers.Instance (stringAttrs text) :=
  ⟨.str text, [], rfl, by rintro ⟨⟩, rfl⟩

theorem namedAlike_string : stringMembers.NamedAlike := by
  intro member hMember leaf hLeaf name hName
  obtain rfl := List.mem_singleton.mp hMember
  obtain rfl := List.mem_singleton.mp hLeaf
  exact absurd hName List.not_mem_nil

theorem read_cut_string : stringMembers.read [2, 0, 0, 0, 97] = .ok (stringAttrs [97], 6) := by
  have hText : decodeUtf8 [97] = some [97] := decodeUtf8_encodeUtf8 rfl
  have hString : Ty.string.read [2, 0, 0, 0, 97] = .ok (.str [97], 6) := by
    show (readText 2 [97]).map (fun r => (r.1, 4 + r.2)) = _
    rw [readText]
    show ((raising .other (decodeUtf8 [97])).map _).map _ = _
    rw [hText]
    rfl
  rw [stringMembers, Members.read, Scan.map₂, Scan.bind_of_ok hString]
  rfl

end XcRos.Genpy
