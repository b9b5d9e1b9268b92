import XcRos.Serialization.RoundTrip

/-! # Serialized messages

Exactly which values shorter than `2 ^ 32` bytes `serializeMessage` fills its buffer with, and gets back from it.
-/

namespace XcRos.Serialization

open XcRos.Foundation

/-! ## What success shows -/

theorem writeEach_some {α : Type} {next : α → OStream → Option OStream} {as : List α} {s s' : OStream}
    (h : writeEach next as s = some s') : ∀ a ∈ as, ∃ t t', next a t = some t' := by
  induction as generalizing s with
  | nil => simp
  | cons a as ih =>
    obtain ⟨t, hHead, hRest⟩ := Option.bind_eq_some_iff.mp h
    intro b hb
    obtain rfl | hb := List.mem_cons.mp hb
    · exact ⟨s, t, hHead⟩
    · exact ih hRest b hb

theorem addLengths_some {α : Type} {length : α → Option UInt32} {as : List α} {size l : UInt32}
    (h : addLengths length as size = some l) : ∀ a ∈ as, ∃ l, length a = some l := by
  induction as generalizing size with
  | nil => simp
  | cons a as ih =>
    obtain ⟨each, hHead, hRest⟩ := Option.bind_eq_some_iff.mp h
    intro b hb
    obtain rfl | hb := List.mem_cons.mp hb
    · exact ⟨each, hHead⟩
    · exact ih hRest b hb

mutual

theorem Ty.fronted_of_isFixedLength : (t : Ty) → t.isFixedLength = true → (v w : t.Val) → t.Fronted v → t.Fronted w
  | .simple _, _, _, _, _ => trivial
  | .bool, _, _, _, _ => trivial
  | .array t n, hFixed, v, w, h => by
    refine ⟨h.1, fun b hb => ?_⟩
    cases hList : v.toList with
    | nil =>
      have hNone : w.toList.length = 0 := by rw [w.toList_length, ← v.toList_length, hList]; rfl
      rw [List.eq_nil_of_length_eq_zero hNone] at hb
      cases hb
    | cons a as =>
      have hMem : a ∈ v.toList := by rw [hList]; exact List.mem_cons_self
      exact t.fronted_of_isFixedLength hFixed a b (h.2 a hMem)
  | .message fields, hFixed, v, w, h => fields.fronted_of_isFixedLength hFixed v w h

theorem Fields.fronted_of_isFixedLength : (fields : Fields) → fields.isFixedLength = true → (v w : fields.Val) →
    fields.Fronted v → fields.Fronted w
  | .nil, _, _, _, _ => trivial
  | .cons t fields, hFixed, v, w, h => by
    obtain ⟨hHead, hRest⟩ := Bool.and_eq_true_iff.mp hFixed
    exact ⟨t.fronted_of_isFixedLength hHead v.1 w.1 h.1, fields.fronted_of_isFixedLength hRest v.2 w.2 h.2⟩

end

theorem VectorSerializer.fronted {t : Ty} {v : List t.Val} {s s' : OStream} {l : UInt32}
    (hWrite : VectorSerializer.write t t.write v s = some s')
    (hLength : VectorSerializer.serializedLength t t.serializationLength v = some l)
    (h : ∀ a, (∃ s s', t.write a s = some s') → (∃ l, t.serializationLength a = some l) → t.Fronted a) :
    ∀ a ∈ v, t.Fronted a := by
  have hGeneral (hWrite : ((s.putUInt32 (.ofNat v.length)).bind (writeEach t.write v)) = some s')
      (hLength : (if t.isFixedSize then VectorSerializer.fixedLength t.serializationLength v
        else addLengths t.serializationLength v 4) = some l) : ∀ a ∈ v, t.Fronted a := by
    obtain ⟨s'', _, hEach⟩ := Option.bind_eq_some_iff.mp hWrite
    have hWritten := writeEach_some hEach
    split at hLength
    · cases v with
      | nil => simp
      | cons front v =>
        obtain ⟨each, hFront, _⟩ := Option.map_eq_some_iff.mp hLength
        have hFronted := h front (hWritten front List.mem_cons_self) ⟨each, hFront⟩
        intro a _
        exact t.fronted_of_isFixedLength (Ty.isFixedLength_of_isFixedSize ‹_›) front a hFronted
    · intro a ha
      exact h a (hWritten a ha) (addLengths_some hLength a ha)
  cases t with
  | simple p => exact fun _ _ => trivial
  | bool | string | array t n | vector t | message fields => exact hGeneral hWrite hLength

theorem ArraySerializer.fronted {t : Ty} {n : Nat} {v : List.Vector t.Val n} {s s' : OStream} {l : UInt32}
    (hWrite : ArraySerializer.write t n t.write v s = some s')
    (hLength : ArraySerializer.serializedLength t n t.serializationLength v = some l)
    (h : ∀ a, (∃ s s', t.write a s = some s') → (∃ l, t.serializationLength a = some l) → t.Fronted a) :
    (t.isFixedSize = true → 0 < n) ∧ ∀ a ∈ v.toList, t.Fronted a := by
  have hGeneral (hWrite : writeEach t.write v.toList s = some s')
      (hLength : (if t.isFixedSize then ArraySerializer.fixedLength t.serializationLength v.toList
        else addLengths t.serializationLength v.toList 0) = some l) :
      (t.isFixedSize = true → 0 < n) ∧ ∀ a ∈ v.toList, t.Fronted a := by
    have hWritten := writeEach_some hWrite
    have hCount := v.toList_length
    split at hLength
    · cases hList : v.toList with
      | nil =>
        rw [hList] at hLength
        cases hLength
      | cons front rest =>
        rw [hList] at hLength hWritten hCount
        obtain ⟨each, hFront, _⟩ := Option.map_eq_some_iff.mp hLength
        have hFronted := h front (hWritten front List.mem_cons_self) ⟨each, hFront⟩
        refine ⟨fun _ => ?_, fun a _ => ?_⟩
        · rw [← hCount]
          exact Nat.succ_pos _
        · exact t.fronted_of_isFixedLength (Ty.isFixedLength_of_isFixedSize ‹_›) front a hFronted
    · exact ⟨fun hFixed => absurd hFixed ‹_›, fun a ha => h a (hWritten a ha) (addLengths_some hLength a ha)⟩
  cases t with
  | simple p =>
    refine ⟨fun _ => Nat.pos_of_ne_zero fun hNone => ?_, fun _ _ => trivial⟩
    rw [ArraySerializer.write, if_pos hNone] at hWrite
    cases hWrite
  | bool | string | array t n | vector t | message fields => exact hGeneral hWrite hLength

mutual

theorem Ty.fronted_of_write : (t : Ty) → (v : t.Val) → (∃ s s', t.write v s = some s') →
    (∃ l, t.serializationLength v = some l) → t.Fronted v
  | .simple _, _, _, _ => trivial
  | .bool, _, _, _ => trivial
  | .string, _, _, _ => trivial
  | .array t _, _, ⟨_, _, hWrite⟩, ⟨_, hLength⟩ => ArraySerializer.fronted hWrite hLength t.fronted_of_write
  | .vector t, _, ⟨_, _, hWrite⟩, ⟨_, hLength⟩ => VectorSerializer.fronted hWrite hLength t.fronted_of_write
  | .message fields, v, hWrite, ⟨_, hLength⟩ => fields.fronted_of_write v hWrite ⟨_, _, hLength⟩

theorem Fields.fronted_of_write : (fields : Fields) → (v : fields.Val) → (∃ s s', fields.write v s = some s') →
    (∃ count l, fields.count v count = some l) → fields.Fronted v
  | .nil, _, _, _ => trivial
  | .cons t fields, v, ⟨s, s', hWrite⟩, ⟨count, l, hCount⟩ => by
    obtain ⟨s'', hHead, hRest⟩ := Option.bind_eq_some_iff.mp hWrite
    obtain ⟨each, hLength, hCounts⟩ := Option.bind_eq_some_iff.mp hCount
    exact ⟨t.fronted_of_write v.1 ⟨s, s'', hHead⟩ ⟨each, hLength⟩,
      fields.fronted_of_write v.2 ⟨s'', s', hRest⟩ ⟨_, l, hCounts⟩⟩

end

theorem VectorSerializer.counted {t : Ty} {v : List t.Val} {s s' : Bytes}
    (hRead : VectorSerializer.read t t.read s = some (v, s')) (h : ∀ s a s', t.read s = some (a, s') → t.Counted a) :
    v.length < 4294967296 ∧ ∀ a ∈ v, t.Counted a := by
  have hGeneral (hRead : ((readUInt32 s).bind fun r => readList t.read r.1.toNat r.2) = some (v, s')) :
      v.length < 4294967296 ∧ ∀ a ∈ v, t.Counted a := by
    obtain ⟨⟨len, s''⟩, _, hList⟩ := Option.bind_eq_some_iff.mp hRead
    obtain ⟨hLength, hCounted⟩ := readList_forall h hList
    exact ⟨hLength ▸ len.toNat_lt, hCounted⟩
  cases t with
  | simple p =>
    refine ⟨?_, fun _ _ => trivial⟩
    obtain ⟨⟨len, rest⟩, _, hBlock⟩ := Option.bind_eq_some_iff.mp hRead
    simp only at hBlock
    split at hBlock
    · obtain ⟨⟨bs, rest⟩, _, hEq⟩ := Option.map_eq_some_iff.mp hBlock
      cases hEq
      rw [List.Vector.toList_length]
      exact len.toNat_lt
    · cases hBlock
      exact Nat.succ_pos _
  | bool | string | array t n | vector t | message fields => exact hGeneral hRead

theorem ArraySerializer.counted {t : Ty} {n : Nat} {v : List.Vector t.Val n} {s s' : Bytes}
    (hRead : ArraySerializer.read t n t.read s = some (v, s')) (h : ∀ s a s', t.read s = some (a, s') → t.Counted a) :
    ∀ a ∈ v.toList, t.Counted a := by
  cases t with
  | simple p => exact fun _ _ => trivial
  | bool | string | array t m | vector t | message fields => exact readEach_forall h hRead

mutual

theorem Ty.counted_of_read : (t : Ty) → ∀ s v s', t.read s = some (v, s') → t.Counted v
  | .simple _, _, _, _, _ => trivial
  | .bool, _, _, _, _ => trivial
  | .string, _, _, _, _ => trivial
  | .array t _, _, _, _, hRead => ArraySerializer.counted hRead t.counted_of_read
  | .vector t, _, _, _, hRead => VectorSerializer.counted hRead t.counted_of_read
  | .message fields, s, v, s', hRead => fields.counted_of_read s v s' hRead

theorem Fields.counted_of_read : (fields : Fields) → ∀ s v s', fields.read s = some (v, s') → fields.Counted v
  | .nil, _, _, _, _ => trivial
  | .cons t fields, s, v, s', hRead => by
    obtain ⟨⟨a, s''⟩, hHead, hRest⟩ := Option.bind_eq_some_iff.mp hRead
    obtain ⟨⟨as, rest⟩, hFields, hEq⟩ := Option.map_eq_some_iff.mp hRest
    cases hEq
    exact ⟨t.counted_of_read s a s'' hHead, fields.counted_of_read s'' as _ hFields⟩

end

/-! ## Whole messages -/

/-- `serializeMessage` fills its buffer with as many bytes as `serializationLength` says, and `deserializeMessage`
takes the value out of it and leaves nothing. -/
structure Delivered (t : Ty) (v : t.Val) (m : SerializedMessage) : Prop where
  serialized : serializeMessage t v = some m
  full : m.unwritten = 0
  length : (t.serializationLength v).map (·.toNat) = some (m.buf.length - m.messageStart)
  deserialized : deserializeMessage t m = some (v, [])

theorem put_of_le {s : OStream} {bs : Bytes} (h : bs.length ≤ s.room) :
    s.put bs = some ⟨s.data ++ bs, s.room - bs.length⟩ := if_pos h

theorem serializeMessage_eq {t : Ty} {v : t.Val} (hFronted : t.Fronted v)
    (hShort : (t.encoding v).length + 4 < 4294967296) :
    serializeMessage t v = some ⟨le 4 (t.encoding v).length ++ t.encoding v, 0, 4⟩ := by
  have hLength := t.serializationLength_eq v hFronted (by omega)
  have hWrite := t.write_eq v (t.stored_of_fronted v hFronted) (by omega)
  have hNumBytes : (UInt32.ofNat (t.encoding v).length + 4).toNat = (t.encoding v).length + 4 := by
    rw [UInt32.toNat_add, UInt32.toNat_ofNat', Nat.mod_eq_of_lt (a := (t.encoding v).length) (by omega)]
    exact Nat.mod_eq_of_lt hShort
  have hPrefix : UInt32.ofNat (t.encoding v).length + 4 - 4 = .ofNat (t.encoding v).length :=
    UInt32.add_sub_cancel _ _
  have hRoom : (t.encoding v).length ≤ (t.encoding v).length + 4 - (le 4 (t.encoding v).length).length := by
    rw [length_le]
    omega
  rw [serializeMessage, hLength]
  simp only [Option.bind_eq_bind, Option.bind_some, hPrefix, hNumBytes]
  rw [putUInt32_eq, put_of_le (by rw [length_le]; exact Nat.le_add_left 4 _), Option.bind_some, hWrite, put_of_le hRoom, Option.bind_some,
    List.nil_append, length_le, Nat.add_sub_cancel, Nat.sub_self]

theorem serializeMessage_long {t : Ty} {v : t.Val} (hFronted : t.Fronted v)
    (hShort : (t.encoding v).length < 4294967296) (hLong : 4294967296 ≤ (t.encoding v).length + 4) :
    serializeMessage t v = none := by
  have hLength := t.serializationLength_eq v hFronted hShort
  have hNumBytes : (UInt32.ofNat (t.encoding v).length + 4).toNat < 4 := by
    rw [UInt32.toNat_add, UInt32.toNat_ofNat', Nat.mod_eq_of_lt hShort]
    show ((t.encoding v).length + 4) % 4294967296 < 4
    omega
  have hPut (n : UInt32) :
      OStream.putUInt32 ⟨[], (UInt32.ofNat (t.encoding v).length + 4).toNat⟩ n = none := by
    rw [OStream.putUInt32, OStream.put, if_neg (by rw [length_le]; exact Nat.not_le.mpr hNumBytes)]
  rw [serializeMessage, hLength]
  simp only [Option.bind_eq_bind, Option.bind_some, hPut, Option.bind_none]

theorem Delivered.fronted {t : Ty} {v : t.Val} {m : SerializedMessage} (h : Delivered t v m) : t.Fronted v := by
  obtain ⟨len, hLength, hRest⟩ := Option.bind_eq_some_iff.mp h.serialized
  obtain ⟨s, _, hRest⟩ := Option.bind_eq_some_iff.mp hRest
  obtain ⟨s', hWrite, _⟩ := Option.bind_eq_some_iff.mp hRest
  exact t.fronted_of_write v ⟨s, s', hWrite⟩ ⟨len, hLength⟩

/-- A value is delivered exactly if the arrays of fixed-size elements in it have elements, the counts of its
vectors fit, and there is room for the length in front of the message. -/
theorem delivered_iff (t : Ty) (v : t.Val) (hShort : (t.encoding v).length < 4294967296) :
    (∃ m, Delivered t v m) ↔ t.Fronted v ∧ t.Counted v ∧ (t.encoding v).length + 4 < 4294967296 := by
  constructor
  · rintro ⟨m, h⟩
    have hFronted := h.fronted
    refine ⟨hFronted, t.counted_of_read _ v [] h.deserialized, Nat.lt_of_not_le fun hLong => ?_⟩
    have hNone := serializeMessage_long hFronted hShort hLong
    rw [h.serialized] at hNone
    cases hNone
  · rintro ⟨hFronted, hCounted, hRoom⟩
    have hRead := t.read_encoding v hFronted hCounted hShort []
    rw [List.append_nil] at hRead
    refine ⟨_, serializeMessage_eq hFronted hRoom, rfl, ?_, hRead⟩
    rw [t.serializationLength_eq v hFronted hShort, Option.map_some, UInt32.toNat_ofNat', Nat.mod_eq_of_lt hShort,
      List.length_append, length_le, Nat.add_sub_cancel_left]

def stamped : Ty := .message (.cons (.array .string 2) (.cons (.vector (.message (.cons (.simple .time) .nil))) .nil))

def stamps : stamped.Val := (⟨[[104, 105], []], rfl⟩, [(⟨1, 2⟩, ()), (⟨3, 4⟩, ())], ())

theorem delivered_iff_stamps : ∃ m, Delivered stamped stamps m := by
  have hFronted : stamped.Fronted stamps :=
    ⟨⟨fun h => absurd h (by decide), fun _ _ => trivial⟩, fun _ _ => ⟨trivial, trivial⟩, trivial⟩
  have hCounted : stamped.Counted stamps :=
    ⟨fun _ _ => trivial, ⟨by decide, fun _ _ => ⟨trivial, trivial⟩⟩, trivial⟩
  exact (delivered_iff stamped stamps (by decide)).mpr ⟨hFronted, hCounted, by decide⟩

/-- The length in front of a string of `2 ^ 32 - 8` bytes does not fit into the buffer of 0 bytes that is made for
both. -/
theorem long_overrun :
    (Ty.encoding .string (List.replicate 4294967288 0)).length < 4294967296 ∧
      serializeMessage .string (List.replicate 4294967288 0) = none := by
  have hLength : (Ty.encoding .string (List.replicate 4294967288 0)).length = 4294967292 := by
    simp only [Ty.encoding, List.length_append, length_le, List.length_replicate]
  have hFronted : Ty.Fronted .string (List.replicate 4294967288 0) := trivial
  rw [hLength]
  refine ⟨by decide, serializeMessage_long hFronted ?_ ?_⟩
  · rw [hLength]
    decide
  · rw [hLength]

/-- There is no first element of an empty array. -/
example : serializeMessage (.array (.simple (.prim .int32)) 0) .nil = none := rfl

end XcRos.Serialization
