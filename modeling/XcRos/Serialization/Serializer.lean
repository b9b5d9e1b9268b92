import XcRos.Foundation.Codec
import XcRos.Foundation.LittleEndian

/-! # The serializers of C++ messages

The template families of `ros/serialization.h` as functions on a universe of types. A message type is
the list of the types of its fields, as the generated `allInOne` goes through them. Values are typed, so that an array
has its length by construction; floating-point numbers are their bits, and memory is little-endian.
-/

namespace XcRos.Serialization

open XcRos.Foundation

abbrev Bytes := List UInt8

inductive Prim where
  | uint8 | int8 | uint16 | int16 | uint32 | int32 | uint64 | int64 | float | double
deriving DecidableEq, Repr

def Prim.size : Prim → Nat
  | .uint8 | .int8 => 1
  | .uint16 | .int16 => 2
  | .uint32 | .int32 | .float => 4
  | .uint64 | .int64 | .double => 8

/-- The types that `IsSimple` is true of. -/
inductive Simple where
  | prim (p : Prim)
  | time
  | duration
deriving DecidableEq, Repr

/-- `sizeof` -/
def Simple.size : Simple → Nat
  | .prim p => p.size
  | .time | .duration => 8

structure Time where
  sec : UInt32
  nsec : UInt32
deriving DecidableEq, Repr

structure Duration where
  sec : Int32
  nsec : Int32
deriving DecidableEq, Repr

mutual

inductive Ty where
  | simple (p : Simple)
  | bool
  | string
  | array (t : Ty) (n : Nat)
  | vector (t : Ty)
  | message (fields : Fields)

inductive Fields where
  | nil
  | cons (t : Ty) (fields : Fields)

end

@[reducible] def Simple.Val : Simple → Type
  | .prim p => BitVec (8 * p.size)
  | .time => Time
  | .duration => Duration

mutual

@[reducible] def Ty.Val : Ty → Type
  | .simple p => p.Val
  | .bool => Bool
  | .string => Bytes
  | .array t n => List.Vector t.Val n
  | .vector t => List t.Val
  | .message fields => fields.Val

@[reducible] def Fields.Val : Fields → Type
  | .nil => Unit
  | .cons t fields => t.Val × fields.Val

end

/-! ## Traits -/

mutual

/-- `gencpp.is_fixed_length`, which looks through the arrays among the fields. -/
def Ty.isFixedLength : Ty → Bool
  | .simple _ | .bool => true
  | .string | .vector _ => false
  | .array t _ => t.isFixedLength
  | .message fields => fields.isFixedLength

def Fields.isFixedLength : Fields → Bool
  | .nil => true
  | .cons t fields => t.isFixedLength && fields.isFixedLength

end

/-- `IsFixedSize`, which is declared for no container. -/
def Ty.isFixedSize : Ty → Bool
  | .array _ _ => false
  | t => t.isFixedLength

/-! ## Streams -/

/-- An `OStream`: what was written, and the space that is left. -/
structure OStream where
  data : Bytes
  room : Nat
deriving DecidableEq, Repr

/-- `memcpy(stream.advance(n), p, n)`, or an exception. -/
def OStream.put (s : OStream) (bs : Bytes) : Option OStream :=
  if bs.length ≤ s.room then some ⟨s.data ++ bs, s.room - bs.length⟩ else none

def OStream.putUInt32 (s : OStream) (n : UInt32) : Option OStream := s.put (le 4 n.toNat)

def readUInt32 : Reader UInt8 UInt32 := fun s => (advance 4 s).map fun (bs, s) => (UInt32.ofNat (ofLe bs), s)

/-! ## Simple types -/

def Simple.memory : (p : Simple) → p.Val → Bytes
  | .prim p, v => le p.size v.toNat
  | .time, v => le 4 v.sec.toNat ++ le 4 v.nsec.toNat
  | .duration, v => le 4 v.sec.toUInt32.toNat ++ le 4 v.nsec.toUInt32.toNat

def Simple.ofMemory : (p : Simple) → Bytes → p.Val
  | .prim _, bs => BitVec.ofNat _ (ofLe bs)
  | .time, bs => ⟨UInt32.ofNat (ofLe (bs.take 4)), UInt32.ofNat (ofLe (bs.drop 4))⟩
  | .duration, bs => ⟨(UInt32.ofNat (ofLe (bs.take 4))).toInt32, (UInt32.ofNat (ofLe (bs.drop 4))).toInt32⟩

def Simple.ofBlock (p : Simple) : (n : Nat) → Bytes → List.Vector p.Val n
  | 0, _ => .nil
  | n + 1, bs => p.ofMemory (bs.take p.size) ::ᵥ p.ofBlock n (bs.drop p.size)

def Simple.write : (p : Simple) → p.Val → OStream → Option OStream
  | .prim p, v, s => s.put (le p.size v.toNat)
  | .time, v, s => (s.putUInt32 v.sec).bind (·.putUInt32 v.nsec)
  | .duration, v, s => (s.putUInt32 v.sec.toUInt32).bind (·.putUInt32 v.nsec.toUInt32)

def Simple.read : (p : Simple) → Reader UInt8 p.Val
  | .prim p, s => (advance p.size s).map fun (bs, s) => (BitVec.ofNat _ (ofLe bs), s)
  | .time, s => (readUInt32 s).bind fun (sec, s) => (readUInt32 s).map fun (nsec, s) => (⟨sec, nsec⟩, s)
  | .duration, s =>
    (readUInt32 s).bind fun (sec, s) => (readUInt32 s).map fun (nsec, s) => (⟨sec.toInt32, nsec.toInt32⟩, s)

/-! ## Strings and containers -/

def writeString (str : Bytes) (s : OStream) : Option OStream :=
  (s.putUInt32 (.ofNat str.length)).bind fun s =>
    if 0 < str.length then s.put (str.take (UInt32.ofNat str.length).toNat) else some s

def readString : Reader UInt8 Bytes := fun s =>
  (readUInt32 s).bind fun (len, s) => if 0 < len then advance len.toNat s else some ([], s)

section Elements

variable {α : Type}

def writeEach (next : α → OStream → Option OStream) : List α → OStream → Option OStream
  | [], s => some s
  | a :: as, s => (next a s).bind (writeEach next as)

/-- `size += serializationLength(*it)` over the elements. -/
def addLengths (length : α → Option UInt32) : List α → UInt32 → Option UInt32
  | [], size => some size
  | a :: as, size => (length a).bind fun l => addLengths length as (size + l)

end Elements

namespace VectorSerializer

def write : (t : Ty) → (t.Val → OStream → Option OStream) → List t.Val → OStream → Option OStream
  | .simple p, _, v, s =>
    (s.putUInt32 (.ofNat v.length)).bind fun s =>
      if v.isEmpty then some s
      else s.put ((v.flatMap p.memory).take (UInt32.ofNat v.length * .ofNat p.size).toNat)
  | _, next, v, s => (s.putUInt32 (.ofNat v.length)).bind (writeEach next v)

def read : (t : Ty) → Reader UInt8 t.Val → Reader UInt8 (List t.Val)
  | .simple p, _, s =>
    (readUInt32 s).bind fun (len, s) =>
      if 0 < len then
        (advance (UInt32.ofNat p.size * len).toNat s).map fun (bs, s) => ((p.ofBlock len.toNat bs).toList, s)
      else some ([], s)
  | _, next, s =>
    (readUInt32 s).bind fun (len, s) => readList next len.toNat s

/-- `serializedLength` of fixed-size elements. -/
def fixedLength {α : Type} (length : α → Option UInt32) : List α → Option UInt32
  | [] => some 4
  | front :: v => (length front).map fun lenEach => 4 + lenEach * .ofNat (v.length + 1)

def serializedLength : (t : Ty) → (t.Val → Option UInt32) → List t.Val → Option UInt32
  | .simple p, _, v => some (.ofNat (4 + v.length * p.size))
  | t, length, v => if t.isFixedSize then fixedLength length v else addLengths length v 4

end VectorSerializer

namespace ArraySerializer

/-- `front` of a `boost::array` fails when there is no element. -/
def write : (t : Ty) → (n : Nat) → (t.Val → OStream → Option OStream) → List.Vector t.Val n → OStream → Option OStream
  | .simple p, n, _, v, s =>
    if n = 0 then none else s.put ((v.toList.flatMap p.memory).take (UInt32.ofNat (n * p.size)).toNat)
  | _, _, next, v, s => writeEach next v.toList s

def read : (t : Ty) → (n : Nat) → Reader UInt8 t.Val → Reader UInt8 (List.Vector t.Val n)
  | .simple p, n, _, s =>
    if n = 0 then none
    else (advance (UInt32.ofNat (n * p.size)).toNat s).map fun (bs, s) => (p.ofBlock n bs, s)
  | _, n, next, s => readEach next n s

/-- `serializedLength` of fixed-size elements. -/
def fixedLength {α : Type} (length : α → Option UInt32) : List α → Option UInt32
  | [] => none
  | front :: v => (length front).map fun lenEach => .ofNat (lenEach.toNat * (v.length + 1))

def serializedLength : (t : Ty) → (n : Nat) → (t.Val → Option UInt32) → List.Vector t.Val n → Option UInt32
  | .simple p, n, _, _ => some (.ofNat (n * p.size))
  | t, _, length, v => if t.isFixedSize then fixedLength length v.toList else addLengths length v.toList 0

end ArraySerializer

/-! ## Messages -/

mutual

/-- `serialize` -/
def Ty.write : (t : Ty) → t.Val → OStream → Option OStream
  | .simple p => p.write
  | .bool => fun v s => s.put [if v then 1 else 0]
  | .string => writeString
  | .array t n => ArraySerializer.write t n t.write
  | .vector t => VectorSerializer.write t t.write
  | .message fields => fields.write

def Fields.write : (fields : Fields) → fields.Val → OStream → Option OStream
  | .nil => fun _ s => some s
  | .cons t fields => fun v s => (t.write v.1 s).bind (fields.write v.2)

end

mutual

/-- `deserialize` -/
def Ty.read : (t : Ty) → Reader UInt8 t.Val
  | .simple p => p.read
  | .bool => fun s => (advance 1 s).map fun (bs, s) => (ofLe bs ≠ 0, s)
  | .string => readString
  | .array t n => ArraySerializer.read t n t.read
  | .vector t => VectorSerializer.read t t.read
  | .message fields => fields.read

def Fields.read : (fields : Fields) → Reader UInt8 fields.Val
  | .nil => fun s => some ((), s)
  | .cons t fields => fun s => (t.read s).bind fun (v, s) => (fields.read s).map fun (vs, s) => ((v, vs), s)

end

mutual

/-- `serializationLength`. That of a message is what an `LStream` counts. -/
def Ty.serializationLength : (t : Ty) → t.Val → Option UInt32
  | .simple p => fun _ => some (.ofNat p.size)
  | .bool => fun _ => some 1
  | .string => fun str => some (4 + .ofNat str.length)
  | .array t n => ArraySerializer.serializedLength t n t.serializationLength
  | .vector t => VectorSerializer.serializedLength t t.serializationLength
  | .message fields => fun v => fields.count v 0

def Fields.count : (fields : Fields) → fields.Val → UInt32 → Option UInt32
  | .nil => fun _ count => some count
  | .cons t fields => fun v count => (t.serializationLength v.1).bind fun l => fields.count v.2 (count + l)

end

/-- What was written to the buffer, how many of its bytes were not, and where the message starts. -/
structure SerializedMessage where
  buf : Bytes
  unwritten : Nat
  messageStart : Nat
deriving DecidableEq, Repr

def serializeMessage (t : Ty) (message : t.Val) : Option SerializedMessage := do
  let len ← t.serializationLength message
  let numBytes := len + 4
  let s ← OStream.putUInt32 ⟨[], numBytes.toNat⟩ (numBytes - 4)
  let messageStart := s.data.length
  let s ← t.write message s
  some ⟨s.data, s.room, messageStart⟩

/-- `deserializeMessage`, with what it leaves of the buffer. -/
def deserializeMessage (t : Ty) (m : SerializedMessage) : Option (t.Val × Bytes) := t.read (m.buf.drop m.messageStart)

end XcRos.Serialization
