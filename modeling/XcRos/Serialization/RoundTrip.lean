import XcRos.Serialization.Serializer

/-! # Round trips

The wire format of a value, and that `write`, `read` and `serializationLength` all keep to it as long as it is
shorter than `2 ^ 32` bytes.
-/

namespace XcRos.Serialization

open XcRos.Foundation

/-! ## The format -/

mutual

def Ty.encoding : (t : Ty) → t.Val → Bytes
  | .simple p => p.memory
  | .bool => fun v => [if v then 1 else 0]
  | .string => fun str => le 4 str.length ++ str
  | .array t _ => fun v => v.toList.flatMap t.encoding
  | .vector t => fun v => le 4 v.length ++ v.flatMap t.encoding
  | .message fields => fields.encoding

def Fields.encoding : (fields : Fields) → fields.Val → Bytes
  | .nil => fun _ => []
  | .cons t fields => fun v => t.encoding v.1 ++ fields.encoding v.2

end

mutual

def Ty.Fronted : (t : Ty) → t.Val → Prop
  | .simple _ | .bool | .string => fun _ => True
  | .array t n => fun v => (t.isFixedSize = true → 0 < n) ∧ ∀ a ∈ v.toList, t.Fronted a
  | .vector t => fun v => ∀ a ∈ v, t.Fronted a
  | .message fields => fields.Fronted

def Fields.Fronted : (fields : Fields) → fields.Val → Prop
  | .nil => fun _ => True
  | .cons t fields => fun v => t.Fronted v.1 ∧ fields.Fronted v.2

end

def Ty.isSimple : Ty → Bool
  | .simple _ => true
  | _ => false

mutual

def Ty.Stored : (t : Ty) → t.Val → Prop
  | .simple _ | .bool | .string => fun _ => True
  | .array t n => fun v => (t.isSimple = true → 0 < n) ∧ ∀ a ∈ v.toList, t.Stored a
  | .vector t => fun v => ∀ a ∈ v, t.Stored a
  | .message fields => fields.Stored

def Fields.Stored : (fields : Fields) → fields.Val → Prop
  | .nil => fun _ => True
  | .cons t fields => fun v => t.Stored v.1 ∧ fields.Stored v.2

end

mutual

theorem Ty.stored_of_fronted : (t : Ty) → (v : t.Val) → t.Fronted v → t.Stored v
  | .simple _, _, _ | .bool, _, _ | .string, _, _ => trivial
  | .array t _, _, h => by
    refine ⟨fun hSimple => h.1 ?_, fun a ha => t.stored_of_fronted a (h.2 a ha)⟩
    cases t with
    | simple p => rfl
    | bool | string | array t n | vector t | message fields => cases hSimple
  | .vector t, _, h => fun a ha => t.stored_of_fronted a (h a ha)
  | .message fields, v, h => fields.stored_of_fronted v h

theorem Fields.stored_of_fronted : (fields : Fields) → (v : fields.Val) → fields.Fronted v → fields.Stored v
  | .nil, _, _ => trivial
  | .cons t fields, v, h => ⟨t.stored_of_fronted v.1 h.1, fields.stored_of_fronted v.2 h.2⟩

end

mutual

/-- The vectors have fewer elements than a count of 32 bits can tell apart. -/
def Ty.Counted : (t : Ty) → t.Val → Prop
  | .simple _ | .bool | .string => fun _ => True
  | .array t _ => fun v => ∀ a ∈ v.toList, t.Counted a
  | .vector t => fun v => v.length < 4294967296 ∧ ∀ a ∈ v, t.Counted a
  | .message fields => fields.Counted

def Fields.Counted : (fields : Fields) → fields.Val → Prop
  | .nil => fun _ => True
  | .cons t fields => fun v => t.Counted v.1 ∧ fields.Counted v.2

end

/-! ## Streams -/

theorem put_nil (s : OStream) : s.put [] = some s := by
  simp [OStream.put]

theorem put_append (s : OStream) (bs cs : Bytes) : s.put (bs ++ cs) = (s.put bs).bind (·.put cs) := by
  simp only [OStream.put, List.length_append]
  split
  · rw [if_pos (by omega), Option.bind_some]
    simp only
    rw [if_pos (by omega), List.append_assoc, Nat.sub_sub]
  · split
    · rw [Option.bind_some]
      simp only
      rw [if_neg (by omega)]
    · rfl

theorem putUInt32_eq (s : OStream) (n : Nat) : s.putUInt32 (.ofNat n) = s.put (le 4 n) := by
  rw [OStream.putUInt32, UInt32.toNat_ofNat']
  exact congrArg s.put (le_mod 4 n)

theorem readUInt32_le {n : Nat} (h : n < 4294967296) (rest : Bytes) :
    readUInt32 (le 4 n ++ rest) = some (.ofNat n, rest) := by
  have hAdvance : advance 4 (le 4 n ++ rest) = some (le 4 n, rest) := by
    have := advance_append (le 4 n) rest
    rwa [length_le] at this
  have hValue : ofLe (le 4 n) = n := ofLe_le h
  simp only [readUInt32, hAdvance, Option.map_some, hValue]

theorem flatMap_length_of_forall {α : Type} {enc : α → Bytes} {size : Nat} {as : List α}
    (h : ∀ a ∈ as, (enc a).length = size) : (as.flatMap enc).length = as.length * size := by
  induction as with
  | nil => simp
  | cons a as ih =>
    rw [List.flatMap_cons, List.length_append, h a List.mem_cons_self, ih fun b hb => h b (List.mem_cons_of_mem a hb),
      List.length_cons, Nat.succ_mul, Nat.add_comm]

/-! ## Simple types -/

theorem Simple.memory_length (p : Simple) (v : p.Val) : (p.memory v).length = p.size := by
  cases p <;> simp [Simple.memory, Simple.size]

theorem Simple.ofMemory_memory (p : Simple) (v : p.Val) : p.ofMemory (p.memory v) = v := by
  cases p with
  | prim p =>
    have hBound : v.toNat < 256 ^ p.size := by
      have := v.isLt
      rwa [Nat.pow_mul] at this
    rw [Simple.memory, Simple.ofMemory, ofLe_le hBound, BitVec.ofNat_toNat, BitVec.setWidth_eq]
  | time =>
    have hSec := v.sec.toNat_lt
    have hNsec := v.nsec.toNat_lt
    have hFront : (le 4 v.sec.toNat ++ le 4 v.nsec.toNat).take 4 = le 4 v.sec.toNat := rfl
    have hRest : (le 4 v.sec.toNat ++ le 4 v.nsec.toNat).drop 4 = le 4 v.nsec.toNat := rfl
    rw [Simple.memory, Simple.ofMemory, hFront, hRest, ofLe_le hSec, ofLe_le hNsec, UInt32.ofNat_toNat,
      UInt32.ofNat_toNat]
  | duration =>
    have hSec := v.sec.toUInt32.toNat_lt
    have hNsec := v.nsec.toUInt32.toNat_lt
    have hFront : (le 4 v.sec.toUInt32.toNat ++ le 4 v.nsec.toUInt32.toNat).take 4 = le 4 v.sec.toUInt32.toNat := rfl
    have hRest : (le 4 v.sec.toUInt32.toNat ++ le 4 v.nsec.toUInt32.toNat).drop 4 = le 4 v.nsec.toUInt32.toNat := rfl
    rw [Simple.memory, Simple.ofMemory, hFront, hRest, ofLe_le hSec, ofLe_le hNsec, UInt32.ofNat_toNat,
      UInt32.ofNat_toNat, Int32.toInt32_toUInt32, Int32.toInt32_toUInt32]

theorem Simple.write_eq (p : Simple) (v : p.Val) (s : OStream) : p.write v s = s.put (p.memory v) := by
  cases p with
  | prim p => rfl
  | time => rw [Simple.memory, put_append]; rfl
  | duration => rw [Simple.memory, put_append]; rfl

theorem Simple.read_memory (p : Simple) (v : p.Val) (rest : Bytes) : p.read (p.memory v ++ rest) = some (v, rest) := by
  have hValue := p.ofMemory_memory v
  cases p with
  | prim p =>
    have hAdvance := advance_append (le p.size v.toNat) rest
    rw [length_le] at hAdvance
    simp only [Simple.memory, Simple.read, hAdvance, Option.map_some]
    exact congrArg (fun v => some (v, rest)) hValue
  | time =>
    simp only [Simple.memory, Simple.read, List.append_assoc, readUInt32_le v.sec.toNat_lt,
      readUInt32_le v.nsec.toNat_lt, Option.bind_some, Option.map_some, UInt32.ofNat_toNat]
  | duration =>
    simp only [Simple.memory, Simple.read, List.append_assoc, readUInt32_le v.sec.toUInt32.toNat_lt,
      readUInt32_le v.nsec.toUInt32.toNat_lt, Option.bind_some, Option.map_some, UInt32.ofNat_toNat,
      Int32.toInt32_toUInt32]

theorem Simple.ofBlock_flatMap (p : Simple) {n : Nat} (v : List.Vector p.Val n) :
    p.ofBlock n (v.toList.flatMap p.memory) = v := by
  induction n with
  | zero => rw [v.eq_nil]; rfl
  | succ n ih =>
    obtain ⟨a, as, rfl⟩ := v.exists_eq_cons
    rw [List.Vector.toList_cons, List.flatMap_cons, Simple.ofBlock]
    have hLength := p.memory_length a
    rw [List.take_append_of_le_length hLength.ge, List.take_of_length_le hLength.le, p.ofMemory_memory,
      List.drop_append_of_le_length hLength.ge, List.drop_of_length_le hLength.le, List.nil_append, ih]

/-! ## Writing -/

theorem writeEach_eq {α : Type} {next : α → OStream → Option OStream} {enc : α → Bytes} {as : List α}
    (h : ∀ a ∈ as, ∀ s, next a s = s.put (enc a)) (s : OStream) : writeEach next as s = s.put (as.flatMap enc) := by
  induction as generalizing s with
  | nil => exact (put_nil s).symm
  | cons a as ih =>
    rw [writeEach, h a List.mem_cons_self, List.flatMap_cons, put_append]
    exact congrArg _ (funext fun s => ih (fun b hb => h b (List.mem_cons_of_mem a hb)) s)

theorem length_le_flatMap {α : Type} {enc : α → Bytes} {as : List α} {a : α} (h : a ∈ as) :
    (enc a).length ≤ (as.flatMap enc).length := by
  obtain ⟨front, rest, rfl⟩ := List.append_of_mem h
  simp only [List.flatMap_append, List.flatMap_cons, List.length_append]
  omega

theorem Simple.flatMap_length (p : Simple) (v : List p.Val) : (v.flatMap p.memory).length = v.length * p.size :=
  flatMap_length_of_forall fun a _ => p.memory_length a

theorem VectorSerializer.write_eq {t : Ty} {v : List t.Val} (hShort : (v.flatMap t.encoding).length < 4294967296)
    (h : ∀ a ∈ v, ∀ s, t.write a s = s.put (t.encoding a)) (s : OStream) :
    VectorSerializer.write t t.write v s = s.put (le 4 v.length ++ v.flatMap t.encoding) := by
  have hLoop : (s.putUInt32 (.ofNat v.length)).bind (writeEach t.write v) =
      s.put (le 4 v.length ++ v.flatMap t.encoding) := by
    rw [putUInt32_eq, put_append]
    exact congrArg _ (funext fun s => writeEach_eq h s)
  cases t with
  | simple p =>
    have hLength := p.flatMap_length v
    have hTake : (v.flatMap p.memory).take (UInt32.ofNat v.length * .ofNat p.size).toNat = v.flatMap p.memory := by
      apply List.take_of_length_le
      have hProduct : (UInt32.ofNat v.length * .ofNat p.size).toNat = v.length * p.size := by
        rw [← UInt32.ofNat_mul, UInt32.toNat_ofNat', Nat.mod_eq_of_lt (hLength ▸ hShort)]
      rw [hProduct, hLength]
    rw [VectorSerializer.write, putUInt32_eq, put_append]
    refine congrArg _ (funext fun s => ?_)
    rw [hTake]
    cases v with
    | nil => exact (put_nil s).symm
    | cons a v => rfl
  | bool | string | array t n | vector t | message fields => exact hLoop

theorem ArraySerializer.write_eq {t : Ty} {n : Nat} {v : List.Vector t.Val n}
    (hShort : (v.toList.flatMap t.encoding).length < 4294967296) (hFront : t.isSimple = true → 0 < n)
    (h : ∀ a ∈ v.toList, ∀ s, t.write a s = s.put (t.encoding a)) (s : OStream) :
    ArraySerializer.write t n t.write v s = s.put (v.toList.flatMap t.encoding) := by
  cases t with
  | simple p =>
    have hLength := p.flatMap_length v.toList
    rw [List.Vector.toList_length] at hLength
    have hTake : (v.toList.flatMap p.memory).take (UInt32.ofNat (n * p.size)).toNat = v.toList.flatMap p.memory := by
      apply List.take_of_length_le
      rw [UInt32.toNat_ofNat', Nat.mod_eq_of_lt (hLength ▸ hShort), hLength]
    rw [ArraySerializer.write, if_neg (Nat.ne_of_gt (hFront rfl)), hTake]
    rfl
  | bool | string | array t n | vector t | message fields => exact writeEach_eq h s

theorem writeString_eq {str : Bytes} (h : str.length < 4294967296) (s : OStream) :
    writeString str s = s.put (le 4 str.length ++ str) := by
  rw [writeString, putUInt32_eq, put_append]
  refine congrArg _ (funext fun s => ?_)
  have hTake : str.take (UInt32.ofNat str.length).toNat = str := by
    apply List.take_of_length_le
    rw [UInt32.toNat_ofNat', Nat.mod_eq_of_lt h]
  rw [hTake]
  cases str with
  | nil => exact (put_nil s).symm
  | cons c str => rfl

mutual

theorem Ty.write_eq : (t : Ty) → (v : t.Val) → t.Stored v → (t.encoding v).length < 4294967296 →
    ∀ s, t.write v s = s.put (t.encoding v)
  | .simple p, v, _, _, s => p.write_eq v s
  | .bool, _, _, _, _ => rfl
  | .string, str, _, hShort, s => writeString_eq (by
      simp only [Ty.encoding, List.length_append] at hShort
      omega) s
  | .array t _, _, hStored, hShort, s =>
    ArraySerializer.write_eq hShort hStored.1 (fun a ha =>
      t.write_eq a (hStored.2 a ha) (Nat.lt_of_le_of_lt (length_le_flatMap ha) hShort)) s
  | .vector t, v, hStored, hShort, s => by
    have hElements : (v.flatMap t.encoding).length < 4294967296 := by
      simp only [Ty.encoding, List.length_append] at hShort
      omega
    exact VectorSerializer.write_eq hElements (fun a ha =>
      t.write_eq a (hStored a ha) (Nat.lt_of_le_of_lt (length_le_flatMap ha) hElements)) s
  | .message fields, v, hStored, hShort, s => fields.write_eq v hStored hShort s

theorem Fields.write_eq : (fields : Fields) → (v : fields.Val) → fields.Stored v →
    (fields.encoding v).length < 4294967296 → ∀ s, fields.write v s = s.put (fields.encoding v)
  | .nil, _, _, _, s => (put_nil s).symm
  | .cons t fields, v, hStored, hShort, s => by
    simp only [Fields.encoding, List.length_append] at hShort
    show (t.write v.1 s).bind (fields.write v.2) = s.put (t.encoding v.1 ++ fields.encoding v.2)
    rw [t.write_eq v.1 hStored.1 (by omega), put_append]
    exact congrArg _ (funext fun s => fields.write_eq v.2 hStored.2 (by omega) s)

end

/-! ## Lengths -/

theorem addLengths_eq {α : Type} {length : α → Option UInt32} {enc : α → Bytes} {as : List α}
    (h : ∀ a ∈ as, length a = some (.ofNat (enc a).length)) (size : Nat) :
    addLengths length as (.ofNat size) = some (.ofNat (size + (as.flatMap enc).length)) := by
  induction as generalizing size with
  | nil => rfl
  | cons a as ih =>
    rw [addLengths, h a List.mem_cons_self, Option.bind_some, ← UInt32.ofNat_add,
      ih fun b hb => h b (List.mem_cons_of_mem a hb), List.flatMap_cons, List.length_append, Nat.add_assoc]

mutual

theorem Ty.encoding_length : (t : Ty) → t.isFixedLength = true → (v w : t.Val) →
    (t.encoding v).length = (t.encoding w).length
  | .simple p, _, v, w => (p.memory_length v).trans (p.memory_length w).symm
  | .bool, _, _, _ => rfl
  | .array t n, hFixed, v, w => by
    show (v.toList.flatMap t.encoding).length = (w.toList.flatMap t.encoding).length
    cases hList : v.toList with
    | nil =>
      have hNone : n = 0 := by rw [← v.toList_length, hList]; rfl
      have hOther : w.toList = [] := List.eq_nil_of_length_eq_zero (w.toList_length.trans hNone)
      rw [hOther]
    | cons a as =>
      rw [← hList, flatMap_length_of_forall fun b _ => t.encoding_length hFixed b a,
        flatMap_length_of_forall fun b _ => t.encoding_length hFixed b a, v.toList_length, w.toList_length]
  | .message fields, hFixed, v, w => fields.encoding_length hFixed v w

theorem Fields.encoding_length : (fields : Fields) → fields.isFixedLength = true → (v w : fields.Val) →
    (fields.encoding v).length = (fields.encoding w).length
  | .nil, _, _, _ => rfl
  | .cons t fields, hFixed, v, w => by
    obtain ⟨hHead, hRest⟩ := Bool.and_eq_true_iff.mp hFixed
    simp only [Fields.encoding, List.length_append]
    rw [t.encoding_length hHead v.1 w.1, fields.encoding_length hRest v.2 w.2]

end

theorem Ty.isFixedLength_of_isFixedSize {t : Ty} (h : t.isFixedSize = true) : t.isFixedLength = true := by
  cases t with
  | array t n => cases h
  | simple p | bool | string | vector t | message fields => exact h

theorem VectorSerializer.serializedLength_eq {t : Ty} {v : List t.Val}
    (h : ∀ a ∈ v, t.serializationLength a = some (.ofNat (t.encoding a).length)) :
    VectorSerializer.serializedLength t t.serializationLength v =
      some (.ofNat (4 + (v.flatMap t.encoding).length)) := by
  have hFixed (hSize : t.isFixedSize = true) : VectorSerializer.fixedLength t.serializationLength v =
      some (.ofNat (4 + (v.flatMap t.encoding).length)) := by
    cases v with
    | nil => rfl
    | cons a v =>
      have hSame := flatMap_length_of_forall fun b (_ : b ∈ a :: v) =>
        t.encoding_length (Ty.isFixedLength_of_isFixedSize hSize) b a
      rw [VectorSerializer.fixedLength, h a List.mem_cons_self, Option.map_some, ← UInt32.ofNat_mul, hSame,
        Nat.mul_comm]
      exact congrArg some (UInt32.ofNat_add 4 _).symm
  have hGeneral : (if t.isFixedSize then VectorSerializer.fixedLength t.serializationLength v
      else addLengths t.serializationLength v 4) = some (.ofNat (4 + (v.flatMap t.encoding).length)) := by
    split
    · exact hFixed ‹_›
    · exact addLengths_eq h 4
  cases t with
  | simple p =>
    show some (UInt32.ofNat (4 + v.length * p.size)) = some (UInt32.ofNat (4 + (v.flatMap p.memory).length))
    rw [p.flatMap_length v]
  | bool | string | array t n | vector t | message fields => exact hGeneral

theorem ArraySerializer.serializedLength_eq {t : Ty} {n : Nat} {v : List.Vector t.Val n}
    (hFront : t.isFixedSize = true → 0 < n) (hShort : (v.toList.flatMap t.encoding).length < 4294967296)
    (h : ∀ a ∈ v.toList, t.serializationLength a = some (.ofNat (t.encoding a).length)) :
    ArraySerializer.serializedLength t n t.serializationLength v =
      some (.ofNat (v.toList.flatMap t.encoding).length) := by
  have hFixed (hSize : t.isFixedSize = true) : ArraySerializer.fixedLength t.serializationLength v.toList =
      some (.ofNat (v.toList.flatMap t.encoding).length) := by
    have hLength := v.toList_length
    have hSome := hFront hSize
    cases hList : v.toList with
    | nil =>
      rw [hList, List.length_nil] at hLength
      omega
    | cons a as =>
      rw [hList] at h hShort
      have hEach : (t.encoding a).length < 4294967296 :=
        Nat.lt_of_le_of_lt (length_le_flatMap List.mem_cons_self) hShort
      have hSame := flatMap_length_of_forall fun b (_ : b ∈ a :: as) =>
        t.encoding_length (Ty.isFixedLength_of_isFixedSize hSize) b a
      rw [ArraySerializer.fixedLength, h a List.mem_cons_self, Option.map_some, UInt32.toNat_ofNat',
        Nat.mod_eq_of_lt hEach, hSame, Nat.mul_comm, List.length_cons]
  have hGeneral : (if t.isFixedSize then ArraySerializer.fixedLength t.serializationLength v.toList
      else addLengths t.serializationLength v.toList 0) = some (.ofNat (v.toList.flatMap t.encoding).length) := by
    split
    · exact hFixed ‹_›
    · have hEach := addLengths_eq h 0
      rwa [Nat.zero_add] at hEach
  cases t with
  | simple p =>
    show some (UInt32.ofNat (n * p.size)) = some (UInt32.ofNat (v.toList.flatMap p.memory).length)
    rw [p.flatMap_length, v.toList_length]
  | bool | string | array t n | vector t | message fields => exact hGeneral

mutual

theorem Ty.serializationLength_eq : (t : Ty) → (v : t.Val) → t.Fronted v → (t.encoding v).length < 4294967296 →
    t.serializationLength v = some (.ofNat (t.encoding v).length)
  | .simple p, v, _, _ => congrArg (fun n => some (UInt32.ofNat n)) (p.memory_length v).symm
  | .bool, _, _, _ => rfl
  | .string, str, _, _ => by
    simp only [Ty.serializationLength, Ty.encoding, List.length_append, length_le, UInt32.ofNat_add]
    rfl
  | .array t _, _, hFronted, hShort =>
    ArraySerializer.serializedLength_eq hFronted.1 hShort fun a ha =>
      t.serializationLength_eq a (hFronted.2 a ha) (Nat.lt_of_le_of_lt (length_le_flatMap ha) hShort)
  | .vector t, v, hFronted, hShort => by
    simp only [Ty.encoding, List.length_append, length_le] at hShort ⊢
    exact VectorSerializer.serializedLength_eq fun a ha =>
      t.serializationLength_eq a (hFronted a ha) (Nat.lt_of_le_of_lt (length_le_flatMap ha) (by omega))
  | .message fields, v, hFronted, hShort => by
    have := fields.count_eq v hFronted hShort 0
    rwa [Nat.zero_add] at this

theorem Fields.count_eq : (fields : Fields) → (v : fields.Val) → fields.Fronted v →
    (fields.encoding v).length < 4294967296 → ∀ count : Nat,
      fields.count v (.ofNat count) = some (.ofNat (count + (fields.encoding v).length))
  | .nil, _, _, _, _ => rfl
  | .cons t fields, v, hFronted, hShort, count => by
    simp only [Fields.encoding, List.length_append] at hShort ⊢
    show (t.serializationLength v.1).bind (fun l => fields.count v.2 (.ofNat count + l)) = _
    rw [t.serializationLength_eq v.1 hFronted.1 (by omega), Option.bind_some, ← UInt32.ofNat_add,
      fields.count_eq v.2 hFronted.2 (by omega), Nat.add_assoc]

end

/-! ## Reading -/

theorem Simple.toList_ofBlock (p : Simple) {n : Nat} {v : List p.Val} (hn : n = v.length) :
    (p.ofBlock n (v.flatMap p.memory)).toList = v := by
  subst hn
  exact congrArg List.Vector.toList (p.ofBlock_flatMap ⟨v, rfl⟩)

theorem VectorSerializer.read_encoding {t : Ty} {v : List t.Val} (hCount : v.length < 4294967296)
    (hShort : (v.flatMap t.encoding).length < 4294967296)
    (h : ∀ a ∈ v, ∀ rest, t.read (t.encoding a ++ rest) = some (a, rest)) (rest : Bytes) :
    VectorSerializer.read t t.read (le 4 v.length ++ (v.flatMap t.encoding ++ rest)) = some (v, rest) := by
  have hLen : (UInt32.ofNat v.length).toNat = v.length := by rw [UInt32.toNat_ofNat', Nat.mod_eq_of_lt hCount]
  have hLoop : ((readUInt32 (le 4 v.length ++ (v.flatMap t.encoding ++ rest))).bind fun r =>
      readList t.read r.1.toNat r.2) = some (v, rest) := by
    rw [readUInt32_le hCount, Option.bind_some]
    exact readList_flatMap hLen h rest
  cases t with
  | simple p =>
    have hLength := p.flatMap_length v
    rw [VectorSerializer.read, readUInt32_le hCount, Option.bind_some]
    cases v with
    | nil => rfl
    | cons a v =>
      have hPositive : 0 < UInt32.ofNat (a :: v).length := by
        rw [UInt32.lt_iff_toNat_lt, hLen]
        exact Nat.succ_pos _
      have hBlock : (UInt32.ofNat p.size * .ofNat (a :: v).length).toNat = ((a :: v).flatMap p.memory).length := by
        rw [← UInt32.ofNat_mul, UInt32.toNat_ofNat', hLength, Nat.mul_comm, Nat.mod_eq_of_lt (hLength ▸ hShort)]
      have hAdvance := advance_append ((a :: v).flatMap p.memory) rest
      refine (if_pos hPositive).trans ?_
      rw [hBlock]
      show (advance ((a :: v).flatMap p.memory).length ((a :: v).flatMap p.memory ++ rest)).map _ = _
      rw [hAdvance]
      exact congrArg (fun v => some (v, rest)) (p.toList_ofBlock hLen)
  | bool | string | array t n | vector t | message fields => exact hLoop

theorem ArraySerializer.read_encoding {t : Ty} {n : Nat} {v : List.Vector t.Val n}
    (hFront : t.isFixedSize = true → 0 < n) (hShort : (v.toList.flatMap t.encoding).length < 4294967296)
    (h : ∀ a ∈ v.toList, ∀ rest, t.read (t.encoding a ++ rest) = some (a, rest)) (rest : Bytes) :
    ArraySerializer.read t n t.read (v.toList.flatMap t.encoding ++ rest) = some (v, rest) := by
  cases t with
  | simple p =>
    have hLength := p.flatMap_length v.toList
    have hBlock : (UInt32.ofNat (n * p.size)).toNat = (v.toList.flatMap p.memory).length := by
      rw [v.toList_length] at hLength
      rw [UInt32.toNat_ofNat', hLength, Nat.mod_eq_of_lt (hLength ▸ hShort)]
    have hAdvance := advance_append (v.toList.flatMap p.memory) rest
    rw [ArraySerializer.read, if_neg (Nat.ne_of_gt (hFront rfl)), hBlock]
    show (advance (v.toList.flatMap p.memory).length (v.toList.flatMap p.memory ++ rest)).map _ = _
    rw [hAdvance]
    exact congrArg (fun v => some (v, rest)) (p.ofBlock_flatMap v)
  | bool | string | array t n | vector t | message fields => exact readEach_flatMap h rest

theorem readString_encoding {str : Bytes} (h : str.length < 4294967296) (rest : Bytes) :
    readString (le 4 str.length ++ (str ++ rest)) = some (str, rest) := by
  have hLen : (UInt32.ofNat str.length).toNat = str.length := by rw [UInt32.toNat_ofNat', Nat.mod_eq_of_lt h]
  rw [readString, readUInt32_le h, Option.bind_some]
  cases str with
  | nil => rfl
  | cons c str =>
    have hPositive : 0 < UInt32.ofNat (c :: str).length := by
      rw [UInt32.lt_iff_toNat_lt, hLen]
      exact Nat.succ_pos _
    refine (if_pos hPositive).trans ?_
    rw [hLen, advance_append]

mutual

theorem Ty.read_encoding : (t : Ty) → (v : t.Val) → t.Fronted v → t.Counted v →
    (t.encoding v).length < 4294967296 → ∀ rest, t.read (t.encoding v ++ rest) = some (v, rest)
  | .simple p, v, _, _, _, rest => p.read_memory v rest
  | .bool, v, _, _, _, rest => by cases v <;> rfl
  | .string, str, _, _, hShort, rest => by
    simp only [Ty.encoding, List.length_append, List.append_assoc] at hShort ⊢
    exact readString_encoding (by omega) rest
  | .array t _, _, hFronted, hCounted, hShort, rest =>
    ArraySerializer.read_encoding hFronted.1 hShort (fun a ha =>
      t.read_encoding a (hFronted.2 a ha) (hCounted a ha) (Nat.lt_of_le_of_lt (length_le_flatMap ha) hShort)) rest
  | .vector t, v, hFronted, hCounted, hShort, rest => by
    simp only [Ty.encoding, List.length_append, List.append_assoc] at hShort ⊢
    exact VectorSerializer.read_encoding hCounted.1 (by omega) (fun a ha =>
      t.read_encoding a (hFronted a ha) (hCounted.2 a ha) (Nat.lt_of_le_of_lt (length_le_flatMap ha) (by omega))) rest
  | .message fields, v, hFronted, hCounted, hShort, rest => fields.read_encoding v hFronted hCounted hShort rest

theorem Fields.read_encoding : (fields : Fields) → (v : fields.Val) → fields.Fronted v → fields.Counted v →
    (fields.encoding v).length < 4294967296 → ∀ rest, fields.read (fields.encoding v ++ rest) = some (v, rest)
  | .nil, _, _, _, _, _ => rfl
  | .cons t fields, v, hFronted, hCounted, hShort, rest => by
    simp only [Fields.encoding, List.length_append, List.append_assoc] at hShort ⊢
    show (t.read (t.encoding v.1 ++ (fields.encoding v.2 ++ rest))).bind _ = _
    rw [t.read_encoding v.1 hFronted.1 hCounted.1 (by omega), Option.bind_some]
    show (fields.read (fields.encoding v.2 ++ rest)).map _ = _
    rw [fields.read_encoding v.2 hFronted.2 hCounted.2 (by omega)]
    rfl

end

end XcRos.Serialization
