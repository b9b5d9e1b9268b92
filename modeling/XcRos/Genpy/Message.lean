import XcRos.Genpy.Generator

/-! # Messages and their encoding

The type of a field as a tree, which a specification has when the types it embeds are registered
down to the simple ones. A value of a type has its encoding field by field, in little-endian order.
-/

namespace XcRos.Genpy

open XcRos.Foundation XcRos.Msg

mutual

inductive Ty where
  | simple (s : Simple)
  | string
  | array (length : Option Nat) (t : Ty)
  | message (cls : Str) (members : Members)

inductive Members where
  | nil
  | cons (name : Str) (t : Ty) (rest : Members)

end

def Ty.isByte : Ty → Bool
  | .simple .uint8 | .simple .char => true
  | _ => false

def Members.toList : Members → List (Str × Ty)
  | .nil => []
  | .cons name t rest => (name, t) :: rest.toList

@[elab_as_elim]
theorem Members.listInduction {motive : Members → Prop} (nil : motive .nil)
    (cons : ∀ name t rest, motive rest → motive (.cons name t rest)) : ∀ members, motive members
  | .nil => nil
  | .cons name t rest => cons name t rest (Members.listInduction nil cons rest)

/-- The names in `__slots__`. -/
def Members.slots (members : Members) : List Str := members.toList.map fun member => remapReserved member.1

/-! ## The tree of a specification -/

section

variable (sub : MsgSpec → Option Members) (ctx : MsgContext)

/-- Fields that differ in their slots make a class; for others `make_python_safe` raises. -/
def resolveBase (baseType : Str) : Option Ty :=
  match simpleOf baseType with
  | some s => some (.simple s)
  | none =>
    if baseType = str "string" then some .string
    else if baseType = str "time" ∨ baseType = str "duration" ∨ '/' ∈ baseType then
      (ctx.getRegistered baseType).bind fun spec => (sub spec).bind fun members =>
        if members.slots.Nodup then some (.message baseType members) else none
    else none

def resolveType (type : Str) : Option Ty :=
  (parseType type).bind fun (baseType, arity) => (resolveBase sub ctx baseType).bind fun t =>
    match arity with
    | .scalar => some t
    | .variable => some (.array none t)
    | .fixed n => if 0 ≤ n then some (.array (some n.toNat) t) else none

def resolveMembers : List (Str × Str) → Option Members
  | [] => some .nil
  | (type, name) :: fields =>
    (resolveType sub ctx type).bind fun t => (resolveMembers fields).map fun rest => .cons name t rest

end

def resolve (ctx : MsgContext) : Nat → MsgSpec → Option Members :=
  fuelled fun sub spec => resolveMembers sub ctx spec.fields

/-! ## Values -/

def Simple.Canonical (s : Simple) (v : PyVal) : Prop :=
  match s, s.code with
  | .bool, _ => ∃ b, v = .bool b
  | _, .int signed width => ∃ n, v = .int n ∧ Code.Fits signed width n
  | _, .single => ∃ bits, v = .single bits
  | _, .double => ∃ bits, v = .double bits

def HasLength {α : Type} (length : Option Nat) (as : List α) : Prop := ∀ n, length = some n → as.length = n

mutual

def Ty.Canonical : Ty → PyVal → Prop
  | .simple s, v => s.Canonical v
  | .string, v => ∃ s, v = .str s
  | .array length t, v =>
    if t.isByte then ∃ bs, v = .bytes bs ∧ HasLength length bs
    else ∃ vs, v = .list vs ∧ HasLength length vs ∧ ∀ w ∈ vs, t.Canonical w
  | .message cls members, v =>
    ∃ attrs, v = .obj cls attrs ∧ members.Canonical attrs ∧
      (cls = str "time" ∨ cls = str "duration" → v.canon = some v)

def Members.Canonical : Members → List (Str × PyVal) → Prop
  | .nil, attrs => attrs = []
  | .cons name t rest, attrs =>
    ∃ v more, attrs = (remapReserved name, v) :: more ∧ t.Canonical v ∧ rest.Canonical more

end

def lengthFront (length : Option Nat) (n : Nat) : Bytes :=
  match length with
  | none => le 4 n
  | some _ => []

mutual

def Ty.encoding : Ty → PyVal → Bytes
  | .simple s, v => (s.code.pack v).getD []
  | .string, .str s => lengthFront none ((encodeUtf8 s).getD []).length ++ (encodeUtf8 s).getD []
  | .array length _, .bytes bs => lengthFront length bs.length ++ bs
  | .array length t, .list vs => lengthFront length vs.length ++ vs.flatMap t.encoding
  | .message _ members, .obj _ attrs => members.encoding attrs
  | _, _ => []

def Members.encoding : Members → List (Str × PyVal) → Bytes
  | .cons _ t rest, (_, v) :: attrs => t.encoding v ++ rest.encoding attrs
  | _, _ => []

end

/-- A length that `pack` reduces to itself, since it has no two nines in a row. -/
def PlainLength (length : Option Nat) : Prop := ∀ n, length = some n → ¬ ['9', '9'] <:+: decimal n

def ShortLength (length : Option Nat) (n : Nat) : Prop := length = none → n < 4294967296

def Ty.isSimple : Ty → Bool
  | .simple _ => true
  | _ => false

mutual

def Ty.Written : Ty → PyVal → Prop
  | .simple _, _ => True
  | .string, v => ∃ s bs, v = .str s ∧ encodeUtf8 s = some bs ∧ bs.length < 4294967296
  | .array length _, .bytes bs => ShortLength length bs.length ∧ PlainLength length
  | .array length t, .list vs =>
    ShortLength length vs.length ∧ (t.isSimple → PlainLength length) ∧ ∀ w ∈ vs, t.Written w
  | .message _ members, .obj _ attrs => members.Written attrs
  | _, _ => True

def Members.Written : Members → List (Str × PyVal) → Prop
  | .cons _ t rest, (_, v) :: attrs => t.Written v ∧ rest.Written attrs
  | _, _ => True

end

def isNaN : PyVal → Bool
  | .single bits => PyVal.singleNaN bits
  | .double bits => PyVal.doubleNaN bits
  | _ => false

mutual

/-- A value that equals what is read: no float in it is NaN, and no array is one of `bool`. -/
def Ty.Comparable : Ty → PyVal → Prop
  | .simple _, v => isNaN v = false
  | .array _ (.simple .bool), _ => False
  | .array _ t, .list vs => ∀ w ∈ vs, t.Comparable w
  | .message _ members, .obj _ attrs => members.Comparable attrs
  | _, _ => True

def Members.Comparable : Members → List (Str × PyVal) → Prop
  | .cons _ t rest, (_, v) :: attrs => t.Comparable v ∧ rest.Comparable attrs
  | _, _ => True

end

end XcRos.Genpy
