import XcRos.Foundation.Scan
import XcRos.Genpy.Deserialize
import XcRos.Genpy.Faults

/-! # Reading values

What an emitted deserializer makes of any bytes, type by type. `struct` raises when bytes are missing, and a slice
is just short, so that the code goes on behind bytes that are not there.
-/

namespace XcRos.Genpy

open XcRos.Foundation XcRos.Msg

def readLength : Scan Fault UInt8 Nat := .checked .struct 4 4 ofLe

/-- `length` for a variable array, and the number in the code for a fixed one. -/
def readCount : Option Nat → Scan Fault UInt8 Nat
  | none => readLength
  | some n => .pure n

def readText (n : Nat) : Scan Fault UInt8 PyVal := fun bs =>
  (raising .other (decodeUtf8 (bs.take n))).map fun s => (.str s, n)

/-- A number as it is assigned, which becomes a `bool` for such a field. -/
def Simple.ofNumber (s : Simple) (v : PyVal) : PyVal := if s = .bool then .bool v.truth else v

def Simple.read (s : Simple) : Scan Fault UInt8 PyVal :=
  .checked .struct s.code.size s.code.size fun bs => s.ofNumber (s.code.unpack bs)

/-- `struct.unpack` of an array, whose pattern is reduced when its length is in the code. -/
def readTuple (length : Option Nat) (s : Simple) (n : Nat) : Scan Fault UInt8 PyVal :=
  let items := List.replicate (length.elim n reducedCount) (Item.value s.code)
  .checked .struct (n * s.code.size) (itemsSize items) fun bs =>
    if s = .bool then .iterator else .tuple (unpackItems items bs)

def Ty.simple? : Ty → Option Simple
  | .simple s => some s
  | _ => none

mutual

def Ty.read : Ty → Scan Fault UInt8 PyVal
  | .simple s => s.read
  | .string => readLength.bind readText
  | .array length t =>
    (readCount length).bind fun n =>
      if t.isByte then (Scan.slice n).map .bytes
      else
        match t.simple? with
        | some s => readTuple length s n
        | none => (Scan.each t.read n).map .list
  | .message cls members => members.read.map (.obj cls)

def Members.read : Members → Scan Fault UInt8 (List (Str × PyVal))
  | .nil => .pure []
  | .cons name t rest => .map₂ (fun v attrs => (remapReserved name, v) :: attrs) t.read rest.read

end

/-! ## Pieces -/

inductive Piece where
  | number (code : Code)
  | text (bs : Bytes)
  | blob (n : Nat)

namespace Piece

/-- A missing part of a number makes `struct` raise, and text is to be decoded as far as it is there. -/
def span : Piece → Span Fault
  | .number code => ⟨code.size, fun _ => some .struct⟩
  | .text bs => ⟨bs.length, fun k => if (decodeUtf8 (bs.take k)).isSome then none else some .other⟩
  | .blob n => ⟨n, fun _ => none⟩

def front : Option Nat → List Piece
  | none => [.number (.int false 4)]
  | some _ => []

end Piece

mutual

def Ty.pieces : Ty → PyVal → List Piece
  | .simple s, _ => [.number s.code]
  | .string, .str s => Piece.front none ++ [.text ((encodeUtf8 s).getD [])]
  | .array length _, .bytes bs => Piece.front length ++ [.blob bs.length]
  | .array length t, .list vs => Piece.front length ++ vs.flatMap t.pieces
  | .message _ members, .obj _ attrs => members.pieces attrs
  | _, _ => []

def Members.pieces : Members → List (Str × PyVal) → List Piece
  | .cons _ t rest, (_, v) :: attrs => t.pieces v ++ rest.pieces attrs
  | _, _ => []

end

/-! ## What is read of a value -/

theorem covers_length {n : Nat} (h : n < 4294967296) :
    Covers readLength ((Piece.front none).map Piece.span) (le 4 n) n := by
  have hCovers : Covers readLength ((Piece.front none).map Piece.span) (le 4 n) (ofLe (le 4 n)) := by
    refine Covers.checked (length_le 4 n) (fun span hSpan k => ?_) rfl ofLe
    rw [List.mem_singleton.mp hSpan]
    rfl
  rwa [ofLe_le (show n < 256 ^ 4 from h)] at hCovers

theorem strict_length : ∀ k < 4, (Span.firstFault ((Piece.front none).map Piece.span) k).isSome := by decide

theorem covers_count {length : Option Nat} {n : Nat} (hShort : ShortLength length n) (hLength : ∀ m, length = some m → n = m)
    {α : Type} {f : Nat → Scan Fault UInt8 α} {pieces : List Piece} {bs : Bytes} {a : α}
    (h : Covers (f n) (pieces.map Piece.span) bs a) :
    Covers ((readCount length).bind f) ((Piece.front length ++ pieces).map Piece.span) (lengthFront length n ++ bs) a := by
  rw [List.map_append]
  cases length with
  | none =>
    refine (covers_length (hShort rfl)).bind_strict (fun k hk => strict_length k ?_) h
    rwa [length_le] at hk
  | some m =>
    obtain rfl := hLength m rfl
    refine (Covers.pure n).bind_strict (fun k hk => ?_) h
    exact absurd hk (Nat.not_lt_zero k)

theorem covers_slice (bs : Bytes) : Covers (Scan.slice bs.length) ([Piece.blob bs.length].map Piece.span) bs bs where
  whole := fun rest => by rw [Scan.slice, List.take_left]
  total := rfl
  cut := fun k => by
    have hFault : Span.firstFault ([Piece.blob bs.length].map Piece.span) k = none := by
      show (if k < bs.length then none else none).or none = (none : Option Fault)
      rw [ite_self]
      rfl
    rw [hFault]
    rfl

theorem decodeUtf8_nil : decodeUtf8 [] = some [] := decodeUtf8_encodeUtf8 (s := []) rfl

theorem covers_text {s : List CodePoint} {bs : Bytes} (h : encodeUtf8 s = some bs) :
    Covers (readText bs.length) ([Piece.text bs].map Piece.span) bs (.str s) where
  whole := fun rest => by
    rw [readText, List.take_left, decodeUtf8_encodeUtf8 h]
    rfl
  total := rfl
  cut := fun k => by
    have hFault : Span.firstFault ([Piece.text bs].map Piece.span) k =
        if (decodeUtf8 (bs.take k)).isSome then none else some .other := by
      show (if k < bs.length then if (decodeUtf8 (bs.take k)).isSome then none else some Fault.other else none).or none = _
      rcases Nat.lt_or_ge k bs.length with hLess | hGe
      · rw [if_pos hLess, Option.or_none]
      · rw [if_neg (Nat.not_lt.mpr hGe), List.take_of_length_le hGe, decodeUtf8_encodeUtf8 h]
        rfl
    have hTake : (bs.take k).take bs.length = bs.take k := List.take_of_length_le (List.length_take_le' k bs)
    rw [hFault, readText, hTake]
    cases decodeUtf8 (bs.take k) <;> rfl

theorem ofNumber_number {s : Simple} {v : PyVal} (h : s.Canonical v) : s.ofNumber v.number = v := by
  rw [Simple.ofNumber]
  split
  · rename_i hBool
    subst hBool
    obtain ⟨b, rfl⟩ := h
    cases b <;> rfl
  · rename_i hBool
    exact number_of_canonical h hBool

theorem strict_numbers {pieces : List Piece} (h : ∀ piece ∈ pieces, ∃ code, piece = .number code) :
    ∀ span ∈ pieces.map Piece.span, ∀ k, span.fault k = some .struct := by
  intro span hSpan k
  obtain ⟨piece, hPiece, rfl⟩ := List.mem_map.mp hSpan
  obtain ⟨code, rfl⟩ := h piece hPiece
  rfl

theorem covers_simple {s : Simple} {v : PyVal} (h : s.Canonical v) :
    Covers s.read ([Piece.number s.code].map Piece.span) ((Ty.simple s).encoding v) v := by
  obtain ⟨bs, hPack⟩ := Simple.pack_canonical h
  have hStrict := @strict_numbers [.number s.code] fun piece hPiece => ⟨_, List.mem_singleton.mp hPiece⟩
  have hCovers := Covers.checked (Code.pack_length hPack) hStrict rfl fun bs => s.ofNumber (s.code.unpack bs)
  rw [Ty.encoding, hPack, Option.getD_some]
  rwa [Code.unpack_pack hPack, ofNumber_number h] at hCovers

theorem itemsSize_replicate (n : Nat) (item : Item) : itemsSize (List.replicate n item) = n * item.size := by
  rw [itemsSize, List.map_replicate, List.sum_replicate_nat]

theorem unpackItems_array {s : Simple} {vs : List PyVal} (h : ∀ v ∈ vs, s.Canonical v) :
    (vs.flatMap (Ty.simple s).encoding).length = vs.length * s.code.size ∧
      unpackItems (List.replicate vs.length (.value s.code)) (vs.flatMap (Ty.simple s).encoding) = vs.map PyVal.number := by
  have hPacked : encodeEach (Ty.simple s).serial vs = some (vs.flatMap (Ty.simple s).encoding) :=
    (WholeIff.each fun v hv => (Ty.simple s).wholeIff v (h v hv)).eq_some_iff.mpr fun v _ => trivial
  have hItems := packItems_replicate s.code vs.length vs
  rw [if_pos rfl] at hItems
  have hCodes : List.replicate vs.length (Item.value s.code) = (List.replicate vs.length s.code).map .value :=
    List.map_replicate.symm
  have hAll : packItems ((List.replicate vs.length s.code).map .value) vs = some (vs.flatMap (Ty.simple s).encoding) := by
    rw [← hCodes, hItems]
    exact hPacked
  obtain ⟨hLength, hUnpack⟩ := unpackItems_packItems hAll
  rw [← hCodes] at hLength hUnpack
  exact ⟨by rw [hLength, itemsSize_replicate]; rfl, hUnpack⟩

theorem total_numbers (s : Simple) (vs : List PyVal) :
    Span.total ((vs.flatMap (Ty.simple s).pieces).map Piece.span) = vs.length * s.code.size := by
  induction vs with
  | nil => exact (Nat.zero_mul _).symm
  | cons v vs ih =>
    rw [List.flatMap_cons, List.map_append, Span.total_append, ih, List.length_cons, Nat.succ_mul, Nat.add_comm]
    rfl

theorem covers_tuple {length : Option Nat} {s : Simple} {vs : List PyVal} (hLength : HasLength length vs)
    (hPlain : PlainLength length) (h : ∀ v ∈ vs, s.Canonical v) :
    Covers (readTuple length s vs.length) ((vs.flatMap (Ty.simple s).pieces).map Piece.span)
      (vs.flatMap (Ty.simple s).encoding) ((Ty.array length (.simple s)).readBack (.list vs)) := by
  have hCount : length.elim vs.length reducedCount = vs.length := by
    cases length with
    | none => rfl
    | some n => exact ((plainLength_some n).mp hPlain).trans (hLength n rfl).symm
  obtain ⟨hSize, hUnpack⟩ := unpackItems_array h
  have hNumbers : ∀ piece ∈ vs.flatMap (Ty.simple s).pieces, ∃ code, piece = .number code := by
    intro piece hPiece
    obtain ⟨v, _, hOne⟩ := List.mem_flatMap.mp hPiece
    exact ⟨s.code, List.mem_singleton.mp hOne⟩
  have hCovers := Covers.checked hSize (strict_numbers hNumbers) (total_numbers s vs) fun bs =>
    if s = .bool then PyVal.iterator else .tuple (unpackItems (List.replicate vs.length (.value s.code)) bs)
  rw [readTuple, hCount, itemsSize_replicate]
  dsimp only [Item.size] at hCovers ⊢
  rw [hUnpack] at hCovers
  rcases eq_or_ne s .bool with rfl | hBool
  · exact hCovers
  · have hNumber : vs.map PyVal.number = vs := by
      conv_rhs => rw [← List.map_id vs]
      exact List.map_congr_left fun v hv => number_of_canonical (h v hv) hBool
    have hBack : (Ty.array length (.simple s)).readBack (.list vs) = .tuple vs := by
      cases s with
      | bool => exact absurd rfl hBool
      | _ => rfl
    simp only [if_neg hBool] at hCovers ⊢
    rw [hNumber] at hCovers
    rwa [hBack]

theorem covers_bytes {length : Option Nat} {t : Ty} {bs : Bytes} (hByte : t.isByte = true) (hLength : HasLength length bs)
    (hWritten : (Ty.array length t).Written (.bytes bs)) :
    Covers (Ty.array length t).read (((Ty.array length t).pieces (.bytes bs)).map Piece.span)
      ((Ty.array length t).encoding (.bytes bs)) ((Ty.array length t).readBack (.bytes bs)) := by
  have hBack : (Ty.array length t).readBack (.bytes bs) = .bytes bs := by
    cases t with
    | simple s => cases s <;> rfl
    | _ => rfl
  rw [Ty.Written] at hWritten
  rw [Ty.read, Ty.pieces, Ty.encoding, hBack]
  refine covers_count hWritten.1 hLength ?_
  rw [if_pos hByte]
  exact (covers_slice bs).map PyVal.bytes

theorem covers_list {length : Option Nat} {t : Ty} {vs : List PyVal} (hByte : ¬ t.isByte = true) (hLength : HasLength length vs)
    (hCanonical : ∀ v ∈ vs, t.Canonical v) (hWritten : (Ty.array length t).Written (.list vs))
    (h : ∀ v ∈ vs, Covers t.read ((t.pieces v).map Piece.span) (t.encoding v) (t.readBack v)) :
    Covers (Ty.array length t).read (((Ty.array length t).pieces (.list vs)).map Piece.span)
      ((Ty.array length t).encoding (.list vs)) ((Ty.array length t).readBack (.list vs)) := by
  rw [Ty.Written] at hWritten
  obtain ⟨hShort, hPlain, _⟩ := hWritten
  rw [Ty.read, Ty.pieces, Ty.encoding]
  refine covers_count hShort hLength ?_
  rw [if_neg hByte]
  have hEach := Covers.each h
  rw [← List.map_flatMap] at hEach
  cases t with
  | simple s => exact covers_tuple hLength (hPlain rfl) hCanonical
  | string | array | message => exact hEach.map PyVal.list

mutual

theorem Ty.covers : (t : Ty) → (v : PyVal) → t.Canonical v → t.Written v →
    Covers t.read ((t.pieces v).map Piece.span) (t.encoding v) (t.readBack v)
  | .simple s, v, h, _ => covers_simple h
  | .string, v, h, hWritten => by
    obtain ⟨s, rfl⟩ := h
    obtain ⟨s', bs, hSame, hText, hShort⟩ := hWritten
    cases hSame
    have hCovers := @covers_count none bs.length (fun _ => hShort) (by rintro _ ⟨⟩) _ _ _ _ _ (covers_text hText)
    rw [Ty.read, Ty.pieces, Ty.encoding, hText]
    exact hCovers
  | .array length t, v, h, hWritten => by
    rw [Ty.Canonical] at h
    split at h
    · rename_i hByte
      obtain ⟨bs, rfl, hLength⟩ := h
      exact covers_bytes hByte hLength hWritten
    · rename_i hByte
      obtain ⟨vs, rfl, hLength, hEach⟩ := h
      have hParts := hWritten
      rw [Ty.Written] at hParts
      exact covers_list hByte hLength hEach hWritten fun w hw => t.covers w (hEach w hw) (hParts.2.2 w hw)
  | .message cls members, v, h, hWritten => by
    obtain ⟨attrs, rfl, hMembers, _⟩ := h
    exact (members.covers attrs hMembers hWritten).map (PyVal.obj cls)

theorem Members.covers : (members : Members) → (attrs : List (Str × PyVal)) → members.Canonical attrs →
    members.Written attrs →
    Covers members.read ((members.pieces attrs).map Piece.span) (members.encoding attrs) (members.readBack attrs)
  | .nil, attrs, h, _ => by
    obtain rfl := h
    exact Covers.pure []
  | .cons name t rest, attrs, h, hWritten => by
    obtain ⟨v, more, rfl, hHead, hRest⟩ := h
    have hCovers := (t.covers v hHead hWritten.1).map₂ (rest.covers more hRest hWritten.2)
      fun v attrs => (remapReserved name, v) :: attrs
    rw [Members.pieces, List.map_append]
    exact hCovers

end

end XcRos.Genpy
