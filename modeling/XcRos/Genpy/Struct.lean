import XcRos.Foundation.Codec
import XcRos.Genpy.PyVal

/-! # The struct module

Formats of the Python module `struct` in little-endian order, with the letters that messages use.
A repeat count in front of a letter means as many of the letter; in front of `s` it is a length.
-/

namespace XcRos.Genpy

open XcRos.Foundation XcRos.Msg

/-- `str(n)` -/
def decimal (n : Nat) : Str := Nat.toDigits 10 n

inductive Code where
  | int (signed : Bool) (width : Nat)
  | single
  | double
deriving DecidableEq, Repr

def Code.ofLetter : Char → Option Code
  | 'b' => some (.int true 1)
  | 'B' => some (.int false 1)
  | 'h' => some (.int true 2)
  | 'H' => some (.int false 2)
  | 'i' => some (.int true 4)
  | 'I' => some (.int false 4)
  | 'q' => some (.int true 8)
  | 'Q' => some (.int false 8)
  | 'f' => some .single
  | 'd' => some .double
  | _ => none

namespace Code

def size : Code → Nat
  | .int _ width => width
  | .single => 4
  | .double => 8

def Fits (signed : Bool) (width : Nat) (n : Int) : Prop :=
  if signed then -(256 ^ width : Int) ≤ 2 * n ∧ 2 * n < 256 ^ width else 0 ≤ n ∧ n < 256 ^ width

instance (signed : Bool) (width : Nat) (n : Int) : Decidable (Fits signed width n) :=
  inferInstanceAs (Decidable (if signed then _ else _))

/-- `__index__` -/
def index : PyVal → Option Int
  | .int n => some n
  | .bool b => some b.toInt
  | _ => none

def pack : Code → PyVal → Option Bytes
  | .int signed width, v =>
    (index v).bind fun n => if Fits signed width n then some (le width (n % 256 ^ width).toNat) else none
  | .single, .single bits => some (le 4 bits.toNat)
  | .double, .double bits => some (le 8 bits.toNat)
  | _, _ => none

def unpack : Code → Bytes → PyVal
  | .int signed width, bs =>
    let n : Int := ofLe bs
    .int (if signed ∧ 256 ^ width ≤ 2 * n then n - 256 ^ width else n)
  | .single, bs => .single (UInt32.ofNat (ofLe bs))
  | .double, bs => .double (UInt64.ofNat (ofLe bs))

end Code

inductive Item where
  | value (code : Code)
  | blob (length : Nat)
deriving DecidableEq, Repr

namespace Item

def size : Item → Nat
  | .value code => code.size
  | .blob length => length

/-- A byte string is cut off or filled up with zeros to the length in the format. -/
def pack : Item → PyVal → Option Bytes
  | .value code, v => code.pack v
  | .blob length, .bytes bs => some (bs.take length ++ List.replicate (length - bs.length) 0)
  | .blob _, _ => none

def unpack : Item → Bytes → PyVal
  | .value code, bs => code.unpack bs
  | .blob _, bs => .bytes bs

end Item

/-! ## Formats -/

def countedItems (count : Nat) (letter : Char) : Option (List Item) :=
  if letter = 's' then some [.blob count]
  else (Code.ofLetter letter).map fun code => List.replicate count (.value code)

/-- The items of a format behind a repeat count that has been read so far. -/
def itemsFrom : Option Nat → Str → Option (List Item)
  | none, [] => some []
  | some _, [] => none
  | count, c :: rest =>
    if c.isDigit then itemsFrom (some (10 * count.getD 0 + (c.toNat - '0'.toNat))) rest
    else (countedItems (count.getD 1) c).bind fun front => (itemsFrom none rest).map (front ++ ·)

/-- What a format describes; `none` is the `struct.error` for a bad format. -/
def formatItems (format : Str) : Option (List Item) := itemsFrom none format

def itemsSize (items : List Item) : Nat := (items.map Item.size).sum

def calcsize (format : Str) : Option Nat := (formatItems format).map itemsSize

def packItems : List Item → List PyVal → Option Bytes
  | [], [] => some []
  | item :: items, v :: vs => (item.pack v).bind fun front => (packItems items vs).map (front ++ ·)
  | _, _ => none

def unpackItems : List Item → Bytes → List PyVal
  | [], _ => []
  | item :: items, bs => item.unpack (bs.take item.size) :: unpackItems items (bs.drop item.size)

/-- `struct.pack('<' + format, *vs)` -/
def structPack (format : Str) (vs : List PyVal) : Option Bytes := (formatItems format).bind fun items => packItems items vs

/-- `struct.unpack('<' + format, bs)` -/
def structUnpack (format : Str) (bs : Bytes) : Option (List PyVal) :=
  (formatItems format).bind fun items => if bs.length = itemsSize items then some (unpackItems items bs) else none

/-! ## What was packed is unpacked -/

/-- A number as `unpack` returns it: a `bool` comes back as an `int`. -/
def PyVal.number : PyVal → PyVal
  | .bool b => .int b.toInt
  | v => v

namespace Code

theorem pack_length {code : Code} {v : PyVal} {bs : Bytes} (h : code.pack v = some bs) : bs.length = code.size := by
  cases code with
  | int signed width =>
    obtain ⟨n, _, hFits⟩ := Option.bind_eq_some_iff.mp h
    split at hFits
    · cases hFits
      exact length_le width _
    · cases hFits
  | single =>
    cases v with
    | single bits => cases h; rfl
    | _ => cases h
  | double =>
    cases v with
    | double bits => cases h; rfl
    | _ => cases h

theorem unpack_le {signed : Bool} {width : Nat} {n : Int} (h : Fits signed width n) :
    (Code.int signed width).unpack (le width (n % 256 ^ width).toNat) = .int n := by
  have hBase : (0 : Int) < 256 ^ width := Int.pow_pos (by decide)
  have hLower := Int.emod_nonneg n hBase.ne'
  have hUpper := Int.emod_lt_of_pos n hBase
  have hNat : (n % 256 ^ width).toNat < 256 ^ width :=
    (Int.toNat_lt hLower).mpr (by rw [Int.natCast_pow]; exact hUpper)
  have hValue : ((n % 256 ^ width).toNat : Int) = n % 256 ^ width := Int.toNat_of_nonneg hLower
  rw [unpack, ofLe_le hNat, hValue]
  cases signed with
  | false =>
    obtain ⟨hZero, hLess⟩ := h
    rw [if_neg (by simp), Int.emod_eq_of_lt hZero hLess]
  | true =>
    obtain ⟨hLow, hHigh⟩ := h
    rcases lt_or_ge n 0 with hNeg | hPos
    · have hShift : n % 256 ^ width = n + 256 ^ width := by
        rw [← Int.add_emod_right, Int.emod_eq_of_lt (by omega) (by omega)]
      rw [hShift, if_pos ⟨rfl, by omega⟩, Int.add_sub_cancel]
    · rw [Int.emod_eq_of_lt hPos (by omega), if_neg (by omega)]

theorem unpack_pack {code : Code} {v : PyVal} {bs : Bytes} (h : code.pack v = some bs) : code.unpack bs = v.number := by
  cases code with
  | int signed width =>
    obtain ⟨n, hIndex, hFits⟩ := Option.bind_eq_some_iff.mp h
    split at hFits
    · rename_i hRange
      cases hFits
      rw [unpack_le hRange]
      cases v with
      | int m => cases hIndex; rfl
      | bool b => cases hIndex; rfl
      | _ => cases hIndex
    · cases hFits
  | single =>
    cases v with
    | single bits =>
      cases h
      rw [unpack, ofLe_le bits.toNat_lt, UInt32.ofNat_toNat]
      rfl
    | _ => cases h
  | double =>
    cases v with
    | double bits =>
      cases h
      rw [unpack, ofLe_le bits.toNat_lt, UInt64.ofNat_toNat]
      rfl
    | _ => cases h

end Code

/-! ## Lists of items -/

theorem packItems_length {items : List Item} {vs : List PyVal} {bs : Bytes} (h : packItems items vs = some bs) :
    items.length = vs.length := by
  induction items generalizing vs bs with
  | nil =>
    cases vs with
    | nil => rfl
    | cons v vs => cases h
  | cons item items ih =>
    cases vs with
    | nil => cases h
    | cons v vs =>
      obtain ⟨front, _, hRest⟩ := Option.bind_eq_some_iff.mp h
      obtain ⟨rest, hRest, _⟩ := Option.map_eq_some_iff.mp hRest
      rw [List.length_cons, List.length_cons, ih hRest]

theorem packItems_replicate (code : Code) (n : Nat) (vs : List PyVal) :
    packItems (List.replicate n (.value code)) vs = if vs.length = n then encodeEach code.pack vs else none := by
  split
  · rename_i hLength
    subst hLength
    induction vs with
    | nil => rfl
    | cons v vs ih => rw [List.length_cons, List.replicate_succ, packItems, ih, encodeEach, Item.pack]
  · rename_i hLength
    cases hPack : packItems (List.replicate n (.value code)) vs with
    | none => rfl
    | some bs =>
      have := packItems_length hPack
      rw [List.length_replicate] at this
      exact absurd this.symm hLength

theorem unpackItems_packItems {codes : List Code} {vs : List PyVal} {bs : Bytes}
    (h : packItems (codes.map .value) vs = some bs) :
    bs.length = itemsSize (codes.map .value) ∧ unpackItems (codes.map .value) bs = vs.map PyVal.number := by
  induction codes generalizing vs bs with
  | nil =>
    cases vs with
    | nil => cases h; exact ⟨rfl, rfl⟩
    | cons v vs => cases h
  | cons code codes ih =>
    cases vs with
    | nil => cases h
    | cons v vs =>
      obtain ⟨front, hFront, hRest⟩ := Option.bind_eq_some_iff.mp h
      obtain ⟨rest, hTail, rfl⟩ := Option.map_eq_some_iff.mp hRest
      obtain ⟨hLength, hUnpack⟩ := ih hTail
      have hSize : front.length = code.size := Code.pack_length hFront
      have hValue : code.unpack front = v.number := Code.unpack_pack hFront
      constructor
      · rw [List.length_append, hLength, hSize]
        rfl
      · have hTake : (front ++ rest).take (Item.value code).size = front := List.take_left' hSize
        have hDrop : (front ++ rest).drop (Item.value code).size = rest := List.drop_left' hSize
        rw [List.map_cons, unpackItems, hTake, hDrop, hUnpack, Item.unpack, hValue, List.map_cons]

end XcRos.Genpy
