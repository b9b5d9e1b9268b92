import XcRos.Genpy.RoundTrip
import XcRos.Genpy.SharedTypes
import XcRos.Serialization.Message

/-! # One wire format for both languages

An object of a Python class and a value of the C++ struct that hold the same are written as the same bytes, so that each
language reads what the other has written.
-/

namespace XcRos.Genpy

open XcRos.Foundation XcRos.Msg XcRos.Gencpp

/-! ## Values that hold the same -/

def primValue : (p : Serialization.Prim) → BitVec (8 * p.size) → PyVal
  | .uint8, v | .uint16, v | .uint32, v | .uint64, v => .int v.toNat
  | .int8, v | .int16, v | .int32, v | .int64, v => .int v.toInt
  | .float, v => .single (.ofNat v.toNat)
  | .double, v => .double (.ofNat v.toNat)

mutual

/-- A value of C++ and one of Python that hold the same; `True` is the number 1. -/
def Shows : (u : Serialization.Ty) → u.Val → PyVal → Prop
  | .simple (.prim p), v, w => w.number = primValue p v
  | .simple .time, v, w => ∃ cls, w = stampVal cls v.sec.toNat v.nsec.toNat
  | .simple .duration, v, w => ∃ cls, w = stampVal cls v.sec.toInt v.nsec.toInt
  | .bool, v, w => w = .bool v
  | .string, v, w => ∃ s, w = .str s ∧ encodeUtf8 s = some v
  | .array t _, v, w => ∃ ws, w.elements = some ws ∧ List.Forall₂ (Shows t) v.toList ws
  | .vector t, v, w => ∃ ws, w.elements = some ws ∧ List.Forall₂ (Shows t) v ws
  | .message fields, v, w => ∃ cls attrs, w = .obj cls attrs ∧ ShowsEach fields v attrs

def ShowsEach : (fields : Serialization.Fields) → fields.Val → List (Str × PyVal) → Prop
  | .nil, _, attrs => attrs = []
  | .cons t fields, v, attrs => ∃ name w more, attrs = (name, w) :: more ∧ Shows t v.1 w ∧ ShowsEach fields v.2 more

end

/-! ## Numbers -/

theorem pack_unsigned {width n : Nat} (h : n < 256 ^ width) : (Code.int false width).pack (.int n) = some (le width n) := by
  have hCast : ((256 ^ width : Nat) : Int) = 256 ^ width := by norm_cast
  have hFits : Code.Fits false width n := by
    show (0 : Int) ≤ n ∧ (n : Int) < 256 ^ width
    omega
  have hSame : ((n : Int) % 256 ^ width).toNat = n := by
    rw [Int.emod_eq_of_lt (by omega) (by omega), Int.toNat_natCast]
  rw [Code.pack, Code.index, Option.bind_some, if_pos hFits, hSame]

theorem pack_signed {width : Nat} (v : BitVec (8 * width)) :
    (Code.int true width).pack (.int v.toInt) = some (le width v.toNat) := by
  have hPow : (256 : Int) ^ width = 2 ^ (8 * width) := by
    rw [pow_mul]
    rfl
  have hFits : Code.Fits true width v.toInt := by
    show -(256 ^ width : Int) ≤ 2 * v.toInt ∧ 2 * v.toInt < 256 ^ width
    rw [hPow]
    exact ⟨BitVec.le_two_mul_toInt, BitVec.two_mul_toInt_lt⟩
  have hSame : (v.toInt % 256 ^ width).toNat = v.toNat := by
    have hLt : (v.toNat : Int) < 2 ^ (8 * width) := by exact_mod_cast v.isLt
    rw [hPow, BitVec.toInt_eq_toNat_bmod]
    have hMod : Int.bmod v.toNat (2 ^ (8 * width)) % 2 ^ (8 * width) = (v.toNat : Int) % 2 ^ (8 * width) := by
      exact_mod_cast @Int.bmod_emod v.toNat (2 ^ (8 * width))
    rw [hMod, Int.emod_eq_of_lt (by omega) hLt, Int.toNat_natCast]
  rw [Code.pack, Code.index, Option.bind_some, if_pos hFits, hSame]

theorem pack_number (code : Code) (w : PyVal) : code.pack w.number = code.pack w := by
  cases code <;> cases w <;> rfl

theorem pack_primValue (p : Serialization.Prim) (v : BitVec (8 * p.size)) :
    (primCode p).pack (primValue p v) = some (le p.size v.toNat) := by
  cases p with
  | uint8 | uint16 | uint32 | uint64 => exact pack_unsigned v.isLt
  | int8 | int16 | int32 | int64 => exact pack_signed v
  | float =>
    have hBits : (UInt32.ofNat v.toNat).toNat = v.toNat := UInt32.toNat_ofNat_of_lt' v.isLt
    exact congrArg (fun n => some (le 4 n)) hBits
  | double =>
    have hBits : (UInt64.ofNat v.toNat).toNat = v.toNat := UInt64.toNat_ofNat_of_lt' v.isLt
    exact congrArg (fun n => some (le 8 n)) hBits

/-! ## Both write the same bytes -/

/-- A list with its elements: what is written of it, and what is checked when it is. -/
structure Listed (length : Option Nat) (t : Ty) (w : PyVal) (ws : List PyVal) : Prop where
  elements : w.elements = some ws
  canonical : ∀ a ∈ ws, t.Canonical a
  encoding : (Ty.array length t).encoding w = lengthFront length ws.length ++ ws.flatMap t.encoding
  written : (Ty.array length t).Written w → ShortLength length ws.length ∧ ∀ a ∈ ws, t.Written a

theorem byte_element {t : Ty} (h : t.isByte = true) (b : UInt8) :
    t.Canonical (.int b.toNat) ∧ t.encoding (.int b.toNat) = [b] ∧ t.Written (.int b.toNat) := by
  have hFits : Code.Fits false 1 b.toNat := by
    show (0 : Int) ≤ b.toNat ∧ (b.toNat : Int) < 256 ^ 1
    have := b.toNat_lt
    omega
  have hPack : (Code.int false 1).pack (.int b.toNat) = some [b] := by
    rw [@pack_unsigned 1 _ b.toNat_lt, le, le, UInt8.ofNat_toNat]
  have hBytes : ((Code.int false 1).pack (.int b.toNat)).getD [] = [b] := by rw [hPack, Option.getD_some]
  cases t with
  | simple s =>
    cases s with
    | uint8 | char => exact ⟨⟨b.toNat, rfl, hFits⟩, hBytes, trivial⟩
    | _ => cases h
  | string | array | message => cases h

theorem listed_of_canonical {length : Option Nat} {t : Ty} {w : PyVal} (h : (Ty.array length t).Canonical w) :
    ∃ ws, Listed length t w ws := by
  rw [Ty.Canonical] at h
  split at h
  · rename_i hByte
    obtain ⟨bs, rfl, -⟩ := h
    have hElement := byte_element hByte
    refine ⟨bs.map fun b => .int b.toNat, rfl, fun a ha => ?_, ?_, fun hWritten => ⟨?_, fun a ha => ?_⟩⟩
    · obtain ⟨b, -, rfl⟩ := List.mem_map.mp ha
      exact (hElement b).1
    · have hBytes : bs.flatMap (fun b => t.encoding (.int b.toNat)) = bs := by
        rw [funext fun b => (hElement b).2.1, List.flatMap_singleton']
      rw [Ty.encoding, List.length_map, List.flatMap_map, hBytes]
    · rw [List.length_map]
      exact hWritten.1
    · obtain ⟨b, -, rfl⟩ := List.mem_map.mp ha
      exact (hElement b).2.2
  · obtain ⟨vs, rfl, -, hEach⟩ := h
    exact ⟨vs, rfl, hEach, rfl, fun hWritten => ⟨hWritten.1, hWritten.2.2⟩⟩

structure SameBytes (t : Ty) (u : Serialization.Ty) (v : u.Val) (w : PyVal) : Prop where
  encoding : t.encoding w = u.encoding v
  counted : t.Written w → u.Counted v

theorem sameBytes_each {t : Ty} {u : Serialization.Ty}
    (h : ∀ v w, t.Canonical w → Shows u v w → SameBytes t u v w) {vs : List u.Val} {ws : List PyVal}
    (hCanonical : ∀ w ∈ ws, t.Canonical w) (hEach : List.Forall₂ (Shows u) vs ws) :
    ws.length = vs.length ∧ ws.flatMap t.encoding = vs.flatMap u.encoding ∧
      ((∀ w ∈ ws, t.Written w) → ∀ v ∈ vs, u.Counted v) := by
  induction hEach with
  | nil => exact ⟨rfl, rfl, fun _ v hv => absurd hv List.not_mem_nil⟩
  | cons hHead _ ih =>
    obtain ⟨hOwn, hRest⟩ := List.forall_mem_cons.mp hCanonical
    obtain ⟨hEncoding, hCounted⟩ := h _ _ hOwn hHead
    obtain ⟨hLength, hBytes, hTail⟩ := ih hRest
    refine ⟨congrArg (· + 1) hLength, ?_, fun hWritten => ?_⟩
    · rw [List.flatMap_cons, List.flatMap_cons, hEncoding, hBytes]
    · obtain ⟨hFirst, hMore⟩ := List.forall_mem_cons.mp hWritten
      exact List.forall_mem_cons.mpr ⟨hCounted hFirst, hTail hMore⟩

theorem stamp_encoding (s : Simple) (cls cls' : Str) (secs nsecs : Int) :
    (Ty.message cls (stampMembers s)).encoding (.obj cls' [(str "secs", .int secs), (str "nsecs", .int nsecs)]) =
      (s.code.pack (.int secs)).getD [] ++ (s.code.pack (.int nsecs)).getD [] := by
  show (s.code.pack (.int secs)).getD [] ++ ((s.code.pack (.int nsecs)).getD [] ++ []) = _
  rw [List.append_nil]

mutual

theorem Corresponds.sameBytes : {t : Ty} → {u : Serialization.Ty} → Corresponds t u → (v : u.Val) → (w : PyVal) →
    t.Canonical w → Shows u v w → SameBytes t u v w
  | _, _, .simple (s := s) (p := p) hCode, v, w, _, h => by
    refine ⟨?_, fun _ => trivial⟩
    have hShown : w.number = primValue p v := h
    rw [Ty.encoding, ← hCode, ← pack_number, hShown, pack_primValue]
    rfl
  | _, _, .string, v, w, _, h => by
    obtain ⟨text, rfl, hText⟩ := h
    refine ⟨?_, fun _ => trivial⟩
    rw [Ty.encoding, hText]
    rfl
  | _, _, .vector h, v, w, hCanonical, hShown => by
    obtain ⟨ws, hListed⟩ := listed_of_canonical hCanonical
    obtain ⟨ws', hElements, hEach⟩ := hShown
    cases hListed.elements.symm.trans hElements
    obtain ⟨hLength, hBytes, hCounted⟩ := sameBytes_each (fun v w => h.sameBytes v w) hListed.canonical hEach
    refine ⟨?_, fun hWritten => ?_⟩
    · rw [hListed.encoding, hBytes, hLength]
      rfl
    · obtain ⟨hShort, hAll⟩ := hListed.written hWritten
      exact ⟨hLength ▸ hShort rfl, hCounted hAll⟩
  | _, _, .array n h, v, w, hCanonical, hShown => by
    obtain ⟨ws, hListed⟩ := listed_of_canonical hCanonical
    obtain ⟨ws', hElements, hEach⟩ := hShown
    cases hListed.elements.symm.trans hElements
    obtain ⟨-, hBytes, hCounted⟩ := sameBytes_each (fun v w => h.sameBytes v w) hListed.canonical hEach
    refine ⟨?_, fun hWritten => hCounted (hListed.written hWritten).2⟩
    rw [hListed.encoding, hBytes]
    rfl
  | _, _, .time, v, w, _, h => by
    obtain ⟨cls, rfl⟩ := h
    refine ⟨?_, fun _ => trivial⟩
    rw [stampVal, stamp_encoding]
    show ((Code.int false 4).pack (.int v.sec.toNat)).getD [] ++ ((Code.int false 4).pack (.int v.nsec.toNat)).getD [] = _
    rw [@pack_unsigned 4 _ v.sec.toNat_lt, @pack_unsigned 4 _ v.nsec.toNat_lt]
    rfl
  | _, _, .duration, v, w, _, h => by
    obtain ⟨cls, rfl⟩ := h
    refine ⟨?_, fun _ => trivial⟩
    have hSec := @pack_signed 4 v.sec.toBitVec
    have hNsec := @pack_signed 4 v.nsec.toBitVec
    rw [stampVal, stamp_encoding]
    show ((Code.int true 4).pack (.int v.sec.toBitVec.toInt)).getD [] ++
      ((Code.int true 4).pack (.int v.nsec.toBitVec.toInt)).getD [] = _
    rw [hSec, hNsec]
    rfl
  | _, _, .message h, v, w, hCanonical, hShown => by
    obtain ⟨attrs, rfl, hMembers, -⟩ := hCanonical
    obtain ⟨cls, attrs', hSame, hEach⟩ := hShown
    cases hSame
    exact ⟨(h.sameBytes v attrs hMembers hEach).encoding, (h.sameBytes v attrs hMembers hEach).counted⟩

theorem CorrespondsEach.sameBytes : {members : Members} → {fields : Serialization.Fields} →
    CorrespondsEach members fields → (v : fields.Val) → (attrs : List (Str × PyVal)) → members.Canonical attrs →
    ShowsEach fields v attrs → SameBytes (.message [] members) (.message fields) v (.obj [] attrs)
  | _, _, .nil, _, _, _, _ => ⟨rfl, fun _ => trivial⟩
  | _, _, .cons h hRest, v, attrs, hCanonical, hShown => by
    obtain ⟨w, more, rfl, hOwn, hMore⟩ := hCanonical
    obtain ⟨name, w', more', hSame, hHead, hTail⟩ := hShown
    cases hSame
    obtain ⟨hEncoding, hCounted⟩ := h.sameBytes v.1 w hOwn hHead
    obtain ⟨hBytes, hCountedRest⟩ := hRest.sameBytes v.2 more hMore hTail
    refine ⟨?_, fun hWritten => ⟨hCounted hWritten.1, hCountedRest hWritten.2⟩⟩
    exact congrArg₂ (· ++ ·) hEncoding hBytes

end

/-! ## Each reads what the other writes -/

/-- The bytes that both languages write, and read back. -/
structure Exchanged (ctx : MsgContext) (fuel : Nat) (writer reader : List Stmt) (members : Members)
    (fields : Serialization.Fields) (cls : Str) (attrs olds : List (Str × PyVal)) (v : fields.Val) (bs : Bytes) : Prop where
  serialized : serialize ⟨[], newInstance ctx fuel⟩ writer (.obj cls attrs) = some bs
  sent : Serialization.serializeMessage (.message fields) v = some ⟨le 4 bs.length ++ bs, 0, 4⟩
  received : Serialization.deserializeMessage (.message fields) ⟨le 4 bs.length ++ bs, 0, 4⟩ = some (v, [])
  deserialized : members.Comparable attrs →
    ∃ m, deserialize ⟨bs, newInstance ctx fuel⟩ reader (.obj cls olds) = .ok m ∧ PyVal.eqv false (.obj cls attrs) m = true

theorem accepted_load {F : Type} {py : Python F} {path : SearchPath} {ctx ctx' : DependContext}
    (hCtx : AcceptedContext py ctx.messages) {name : Str} (hName : MessageName py name) {spec : MsgSpec}
    (h : loadMsgByType py path ctx name = .ok (spec, ctx')) : AcceptedContext py ctx'.messages := by
  rw [loadMsgByType] at h
  simp only [if_neg hName.typeName.ne_header] at h
  split at h
  · cases h
  · split at h
    · cases h
    · rename_i file _
      split at h
      · cases h
      · rename_i loaded messages hLoad
        cases h
        have hAccepted := hCtx.loadInto hName ((path.files.lookup file).getD [])
        rw [loadInto, hLoad] at hAccepted
        exact hAccepted

def textPath : SearchPath where
  packages := [(str "pkg", [str "msg"])]
  files := [(str "msg/A.msg", str "string data")]

end XcRos.Genpy
