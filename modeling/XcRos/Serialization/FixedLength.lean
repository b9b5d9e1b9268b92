import XcRos.Serialization.RoundTrip

/-! # Types of fixed length

What `serializationLength` gives for the values of a type of fixed length. It is taken of one element of an array or
a vector and multiplied; a `boost::array` without elements has none to take it of.
-/

namespace XcRos.Serialization

open XcRos.Foundation

mutual

def Ty.fixedSize : Ty → Nat
  | .simple p => p.size
  | .bool => 1
  | .string | .vector _ => 0
  | .array t n => n * t.fixedSize
  | .message fields => fields.fixedSize

def Fields.fixedSize : Fields → Nat
  | .nil => 0
  | .cons t fields => t.fixedSize + fields.fixedSize

end

mutual

def Ty.hasFronts : Ty → Bool
  | .simple _ | .bool | .string | .vector _ => true
  | .array t n =>
    if t.isSimple then true
    else if t.isFixedSize then decide (0 < n) && t.hasFronts
    else decide (n = 0) || t.hasFronts
  | .message fields => fields.hasFronts

def Fields.hasFronts : Fields → Bool
  | .nil => true
  | .cons t fields => t.hasFronts && fields.hasFronts

end

mutual

def Ty.initial : (t : Ty) → t.Val
  | .simple (.prim _) => 0
  | .simple .time => ⟨0, 0⟩
  | .simple .duration => ⟨0, 0⟩
  | .bool => false
  | .string => []
  | .array t n => List.Vector.replicate n t.initial
  | .vector _ => []
  | .message fields => fields.initial

def Fields.initial : (fields : Fields) → fields.Val
  | .nil => ()
  | .cons t fields => (t.initial, fields.initial)

end

/-! ## Bytes -/

mutual

theorem Ty.encoding_fixed : (t : Ty) → t.isFixedLength = true → (v : t.Val) → (t.encoding v).length = t.fixedSize
  | .simple p, _, v => p.memory_length v
  | .bool, _, _ => rfl
  | .array t n, hFixed, v => by
    have hLength : (v.toList.flatMap t.encoding).length = v.toList.length * t.fixedSize :=
      flatMap_length_of_forall fun a _ => t.encoding_fixed hFixed a
    rwa [v.toList_length] at hLength
  | .message fields, hFixed, v => fields.encoding_fixed hFixed v

theorem Fields.encoding_fixed : (fields : Fields) → fields.isFixedLength = true → (v : fields.Val) →
    (fields.encoding v).length = fields.fixedSize
  | .nil, _, _ => rfl
  | .cons t fields, hFixed, v => by
    obtain ⟨hHead, hRest⟩ := Bool.and_eq_true_iff.mp hFixed
    rw [Fields.encoding, List.length_append, t.encoding_fixed hHead v.1, fields.encoding_fixed hRest v.2,
      Fields.fixedSize]

end

/-! ## Lengths -/

section

variable {α : Type} {length : α → Option UInt32} {each : Option UInt32}

theorem addLengths_const (h : ∀ a, length a = each) (as : List α) (size : UInt32) :
    addLengths length as size =
      if as = [] then some size else each.map fun l => size + l * .ofNat as.length := by
  induction as generalizing size with
  | nil => rfl
  | cons a as ih =>
    rw [addLengths, h a, if_neg (List.cons_ne_nil a as)]
    cases each with
    | none => rfl
    | some l =>
      rw [Option.bind_some, ih, Option.map_some, Option.map_some]
      split
      · rename_i hNil
        rw [hNil]
        simp
      · rw [List.length_cons, UInt32.ofNat_add, UInt32.mul_add, UInt32.add_assoc, UInt32.add_comm l]
        simp

end

def Ty.fixedLength (t : Ty) : Option UInt32 := if t.hasFronts then some (.ofNat t.fixedSize) else none

theorem ArraySerializer.serializedLength_fixed {t : Ty} {n : Nat}
    (h : ∀ a, t.serializationLength a = t.fixedLength) (v : List.Vector t.Val n) :
    ArraySerializer.serializedLength t n t.serializationLength v = (Ty.array t n).fixedLength := by
  have hGeneral (hNot : t.isSimple = false) :
      (if t.isFixedSize then ArraySerializer.fixedLength t.serializationLength v.toList
        else addLengths t.serializationLength v.toList 0) = (Ty.array t n).fixedLength := by
    have hCount := v.toList_length
    have hFronts : (Ty.array t n).hasFronts =
        if t.isFixedSize then decide (0 < n) && t.hasFronts else decide (n = 0) || t.hasFronts := by
      rw [Ty.hasFronts, if_neg (by rw [hNot]; decide)]
    rw [Ty.fixedLength, hFronts, Ty.fixedSize]
    cases t.isFixedSize with
    | true =>
      rw [if_pos rfl, if_pos rfl]
      cases hList : v.toList with
      | nil =>
        rw [hList] at hCount
        rw [← hCount]
        rfl
      | cons front rest =>
        rw [hList, List.length_cons] at hCount
        rw [ArraySerializer.fixedLength, h front, Ty.fixedLength, decide_eq_true (by omega : 0 < n), Bool.true_and]
        split
        · rw [Option.map_some, hCount, UInt32.toNat_ofNat', Option.some.injEq, ← UInt32.toNat_inj,
            UInt32.toNat_ofNat', UInt32.toNat_ofNat', Nat.mod_mul_mod, Nat.mul_comm]
        · rfl
    | false =>
      rw [if_neg Bool.false_ne_true, if_neg Bool.false_ne_true, addLengths_const h, Ty.fixedLength]
      by_cases hNone : n = 0
      · have hNil : v.toList = [] := List.eq_nil_of_length_eq_zero (hCount.trans hNone)
        rw [if_pos hNil, hNone, decide_eq_true rfl, Bool.true_or, if_pos rfl, Nat.zero_mul]
        rfl
      · have hSome : v.toList ≠ [] := by
          intro hNil
          rw [hNil] at hCount
          exact hNone hCount.symm
        rw [if_neg hSome, decide_eq_false hNone, Bool.false_or]
        split
        · rw [Option.map_some, hCount, UInt32.zero_add, ← UInt32.ofNat_mul, Nat.mul_comm]
        · rfl
  cases t with
  | simple p => rfl
  | bool | string | array t m | vector t | message fields => exact hGeneral rfl

mutual

theorem Ty.serializationLength_fixed : (t : Ty) → t.isFixedLength = true → (v : t.Val) →
    t.serializationLength v = t.fixedLength
  | .simple _, _, _ => rfl
  | .bool, _, _ => rfl
  | .array t _, hFixed, v => ArraySerializer.serializedLength_fixed (t.serializationLength_fixed hFixed) v
  | .message fields, hFixed, v => by
    have hCount := fields.count_fixed hFixed v 0
    rw [UInt32.zero_add] at hCount
    exact hCount

theorem Fields.count_fixed : (fields : Fields) → fields.isFixedLength = true → (v : fields.Val) → (count : UInt32) →
    fields.count v count = if fields.hasFronts then some (count + .ofNat fields.fixedSize) else none
  | .nil, _, _, count => by
    rw [Fields.count, Fields.hasFronts, if_pos rfl, Fields.fixedSize]
    exact congrArg some (UInt32.add_zero count).symm
  | .cons t fields, hFixed, v, count => by
    obtain ⟨hHead, hRest⟩ := Bool.and_eq_true_iff.mp hFixed
    show ((t.serializationLength v.1).bind fun l => fields.count v.2 (count + l)) = _
    rw [t.serializationLength_fixed hHead v.1, Ty.fixedLength, Fields.hasFronts, Fields.fixedSize]
    cases t.hasFronts with
    | false => rfl
    | true =>
      rw [if_pos rfl, Option.bind_some, fields.count_fixed hRest v.2, Bool.true_and, UInt32.ofNat_add, UInt32.add_assoc]

end

/-! ## Messages of fixed length -/

/-- All values of the message have one length, and that of the vector is how many bytes it is written as. -/
structure Sound (fields : Fields) (vs : List fields.Val) : Prop where
  same : ∃ l, ∀ v, (Ty.message fields).serializationLength v = some l
  exact : ∃ l, (Ty.vector (.message fields)).serializationLength vs = some l ∧
    l.toNat = ((Ty.vector (.message fields)).encoding vs).length

theorem vector_encoding_fixed {fields : Fields} (hFixed : fields.isFixedLength = true) (vs : List fields.Val) :
    ((Ty.vector (.message fields)).encoding vs).length = 4 + vs.length * fields.fixedSize := by
  have hLength : (vs.flatMap (Ty.message fields).encoding).length = vs.length * fields.fixedSize :=
    flatMap_length_of_forall fun v _ => fields.encoding_fixed hFixed v
  rw [Ty.encoding, List.length_append, length_le, hLength]

theorem vector_serializationLength_fixed {fields : Fields} (hFixed : fields.isFixedLength = true)
    (hFronts : fields.hasFronts = true) (vs : List fields.Val) :
    (Ty.vector (.message fields)).serializationLength vs = some (.ofNat (4 + vs.length * fields.fixedSize)) := by
  have hEach (v : fields.Val) : (Ty.message fields).serializationLength v = some (.ofNat fields.fixedSize) := by
    rw [(Ty.message fields).serializationLength_fixed hFixed v, Ty.fixedLength, Ty.hasFronts, if_pos hFronts,
      Ty.fixedSize]
  have hSize : (Ty.message fields).isFixedSize = true := hFixed
  have hVector : (Ty.vector (.message fields)).serializationLength vs =
      if (Ty.message fields).isFixedSize then
        VectorSerializer.fixedLength (Ty.message fields).serializationLength vs
      else addLengths (Ty.message fields).serializationLength vs 4 := rfl
  rw [hVector, if_pos hSize]
  cases vs with
  | nil =>
    rw [List.length_nil, Nat.zero_mul]
    rfl
  | cons front vs =>
    rw [VectorSerializer.fixedLength, hEach front, Option.map_some, ← UInt32.ofNat_mul, UInt32.ofNat_add,
      List.length_cons, Nat.mul_comm]
    rfl

theorem sound_iff {fields : Fields} (hFixed : fields.isFixedLength = true) (vs : List fields.Val) :
    Sound fields vs ↔ fields.hasFronts = true ∧ 4 + vs.length * fields.fixedSize < 4294967296 := by
  have hEach (v : fields.Val) : (Ty.message fields).serializationLength v = (Ty.message fields).fixedLength :=
    (Ty.message fields).serializationLength_fixed hFixed v
  constructor
  · rintro ⟨⟨l, hSame⟩, l', hVector, hExact⟩
    have hFronts : fields.hasFronts = true := by
      by_contra hNot
      have hOne := (hEach fields.initial).symm.trans (hSame fields.initial)
      rw [Ty.fixedLength, Ty.hasFronts, if_neg hNot] at hOne
      cases hOne
    refine ⟨hFronts, ?_⟩
    rw [← vector_encoding_fixed hFixed vs, ← hExact]
    exact l'.toNat_lt
  · rintro ⟨hFronts, hShort⟩
    refine ⟨⟨.ofNat fields.fixedSize, fun v => ?_⟩, _, vector_serializationLength_fixed hFixed hFronts vs, ?_⟩
    · rw [hEach v, Ty.fixedLength, Ty.hasFronts, if_pos hFronts, Ty.fixedSize]
    · rw [vector_encoding_fixed hFixed vs, UInt32.toNat_ofNat', Nat.mod_eq_of_lt hShort]

end XcRos.Serialization
