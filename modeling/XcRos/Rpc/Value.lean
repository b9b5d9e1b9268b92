import XcRos.Foundation.OrderedAssoc
import XcRos.Rpc.Base64
import XcRos.Rpc.Util

/-! # Values and their XML form

`XmlRpcValue` with `toXml` and `fromXml`. The decoder passes an offset along; here each reader
returns the offset behind what it took, and `none` where the source returns false and the offset is
left alone. The nested readers take fuel; `fromXml` gives more than any text of that length can use.
-/

namespace XcRos.Rpc

open XcRos.Foundation

/-- The fields of `struct tm` that are written, read and compared. -/
structure Tm where
  sec : Int32
  min : Int32
  hour : Int32
  mday : Int32
  mon : Int32
  year : Int32
deriving DecidableEq, Repr

/-- `XmlRpcValue`: a struct lists its members in the order of `std::map`, a double holds its bits. -/
inductive Value where
  | invalid
  | boolean (b : Bool)
  | int (i : Int32)
  | double (bits : UInt64)
  | string (s : Bytes)
  | dateTime (t : Tm)
  | base64 (data : Bytes)
  | array (elements : List Value)
  | struct (members : List (Bytes × Value))

def Value.children : Value → List Value
  | .array elements => elements
  | .struct members => members.map Prod.snd
  | _ => []

theorem Value.childInduction {P : Value → Prop} (h : ∀ v : Value, (∀ w ∈ v.children, P w) → P v) (v : Value) : P v := by
  have hLeaf : ∀ w : Value, w.children = [] → P w := fun w hw => h w (by simp [hw])
  refine @Value.rec P (fun vs => ∀ w ∈ vs, P w) (fun ms => ∀ m ∈ ms, P m.2) (fun m => P m.2) (hLeaf _ rfl)
    (fun _ => hLeaf _ rfl) (fun _ => hLeaf _ rfl) (fun _ => hLeaf _ rfl) (fun _ => hLeaf _ rfl) (fun _ => hLeaf _ rfl)
    (fun _ => hLeaf _ rfl) (fun elements ih => h _ ih) (fun members ih => h _ ?_) (by simp) ?_ (by simp) ?_
    (fun _ _ ih => ih) v
  · intro w hw
    obtain ⟨m, hm, rfl⟩ := List.mem_map.mp hw
    exact ih m hm
  · intro head tail hHead hTail w hw
    rcases List.mem_cons.mp hw with rfl | hw
    · exact hHead
    · exact hTail w hw
  · intro head tail hHead hTail m hm
    rcases List.mem_cons.mp hm with rfl | hm
    · exact hHead
    · exact hTail m hm

/-- Decimal text of doubles: `ostream` output to precision 17 and `strtod`, both in the C locale. -/
class DoubleText where
  print : UInt64 → Bytes
  strtod : Bytes → UInt64 × Nat

def valueTag : Bytes := bytes "<value>"
def valueEtag : Bytes := bytes "</value>"
def booleanTag : Bytes := bytes "<boolean>"
def booleanEtag : Bytes := bytes "</boolean>"
def doubleTag : Bytes := bytes "<double>"
def doubleEtag : Bytes := bytes "</double>"
def intTag : Bytes := bytes "<int>"
def i4Tag : Bytes := bytes "<i4>"
def i4Etag : Bytes := bytes "</i4>"
def stringTag : Bytes := bytes "<string>"
def dateTimeTag : Bytes := bytes "<dateTime.iso8601>"
def dateTimeEtag : Bytes := bytes "</dateTime.iso8601>"
def base64Tag : Bytes := bytes "<base64>"
def base64Etag : Bytes := bytes "</base64>"
def arrayTag : Bytes := bytes "<array>"
def dataTag : Bytes := bytes "<data>"
def dataEtag : Bytes := bytes "</data>"
def arrayEtag : Bytes := bytes "</array>"
def structTag : Bytes := bytes "<struct>"
def memberTag : Bytes := bytes "<member>"
def nameTag : Bytes := bytes "<name>"
def nameEtag : Bytes := bytes "</name>"
def memberEtag : Bytes := bytes "</member>"
def structEtag : Bytes := bytes "</struct>"

/-! ## Encoding -/

/-- `printf("%4d")` -/
def printBlankPadded (n : Int) : Bytes :=
  List.replicate (4 - (printInt n).length) 32 ++ printInt n

/-- `printf("%02d")` -/
def printZeroPadded (n : Int) : Bytes :=
  if n < 0 then 45 :: (List.replicate (1 - (printNat n.natAbs).length) 48 ++ printNat n.natAbs)
  else List.replicate (2 - (printNat n.natAbs).length) 48 ++ printNat n.natAbs

/-- The text of `timeToXml` between its tags, as the buffer of 20 truncates it. -/
def timeText (t : Tm) : Bytes :=
  (printBlankPadded t.year.toInt ++ printZeroPadded t.mon.toInt ++ printZeroPadded t.mday.toInt ++ [84] ++
    printZeroPadded t.hour.toInt ++ [58] ++ printZeroPadded t.min.toInt ++ [58] ++
    printZeroPadded t.sec.toInt).take 18

def boolToXml (b : Bool) : Bytes :=
  valueTag ++ booleanTag ++ (if b then [49] else [48]) ++ booleanEtag ++ valueEtag

def intToXml (i : Int32) : Bytes := valueTag ++ i4Tag ++ printInt i.toInt ++ i4Etag ++ valueEtag

def doubleToXml [DoubleText] (bits : UInt64) : Bytes :=
  valueTag ++ doubleTag ++ DoubleText.print bits ++ doubleEtag ++ valueEtag

def stringToXml (s : Bytes) : Bytes := valueTag ++ xmlEncode s ++ valueEtag

def timeToXml (t : Tm) : Bytes := valueTag ++ dateTimeTag ++ timeText t ++ dateTimeEtag ++ valueEtag

def binaryToXml (data : Bytes) : Bytes :=
  valueTag ++ base64Tag ++ Base64.put 0 data ++ base64Etag ++ valueEtag

mutual

def Value.toXml [DoubleText] : Value → Bytes
  | .invalid => []
  | .boolean b => boolToXml b
  | .int i => intToXml i
  | .double bits => doubleToXml bits
  | .string s => stringToXml s
  | .dateTime t => timeToXml t
  | .base64 data => binaryToXml data
  | .array elements =>
    valueTag ++ arrayTag ++ dataTag ++ elementsToXml elements ++ dataEtag ++ arrayEtag ++ valueEtag
  | .struct members => valueTag ++ structTag ++ membersToXml members ++ structEtag ++ valueEtag

/-- The loop of `arrayToXml`. -/
def elementsToXml [DoubleText] : List Value → Bytes
  | [] => []
  | v :: vs => v.toXml ++ elementsToXml vs

/-- The loop of `structToXml`. -/
def membersToXml [DoubleText] : List (Bytes × Value) → Bytes
  | [] => []
  | m :: ms => memberToXml m ++ membersToXml ms

def memberToXml [DoubleText] : Bytes × Value → Bytes
  | (name, v) => memberTag ++ nameTag ++ xmlEncode name ++ nameEtag ++ v.toXml ++ memberEtag

end

/-! ## Decoding -/

def boolFromXml (xml : Bytes) (offset : Nat) : Option (Value × Nat) :=
  let r := strtol (xml.drop offset)
  if r.2 = 0 ∨ (r.1 ≠ 0 ∧ r.1 ≠ 1) then none
  else some (.boolean (r.1 = 1), offset + r.2)

def intFromXml (xml : Bytes) (offset : Nat) : Option (Value × Nat) :=
  let r := strtol (xml.drop offset)
  if r.2 = 0 then none else some (.int (Int32.ofInt r.1), offset + r.2)

def doubleFromXml [DoubleText] (xml : Bytes) (offset : Nat) : Option (Value × Nat) :=
  let r := DoubleText.strtod (cStr (xml.drop offset))
  if r.2 = 0 then none else some (.double r.1, offset + r.2)

/-- The text from `offset` up to the next `<`, if there is one. -/
def textFrom (xml : Bytes) (offset : Nat) : Option Bytes :=
  (indexOf [60] (xml.drop offset)).map fun n => (xml.drop offset).take n

def stringFromXml (xml : Bytes) (offset : Nat) : Option (Value × Nat) :=
  (textFrom xml offset).map fun text =>
    -- the offset moves by the decoded length, so it may stop inside the encoded text
    (.string (xmlDecode text), offset + (xmlDecode text).length)

/-- `%<width>d` of `sscanf`: the number, and what follows it. -/
def scanInt (width : Nat) (s : Bytes) : Option (Int32 × Bytes) :=
  let rest := s.dropWhile isspace
  let sign := signOf (rest.take width)
  let ds := ((rest.drop sign.2).take (width - sign.2)).takeWhile isdigit
  if ds = [] then none
  else
    let n : Int := digitsValue ds
    some (Int32.ofInt (if sign.1 then -n else n), rest.drop (sign.2 + ds.length))

/-- A letter of the format of `sscanf` that stands for itself. -/
def scanLetter (c : UInt8) : Bytes → Option Bytes
  | [] => none
  | d :: rest => if d = c then some rest else none

/-- `sscanf(s, "%4d%2d%2dT%2d:%2d:%2d", …)`, if it converts all six numbers. -/
def scanTime (s : Bytes) : Option Tm := do
  let (year, s) ← scanInt 4 s
  let (mon, s) ← scanInt 2 s
  let (mday, s) ← scanInt 2 s
  let s ← scanLetter 84 s
  let (hour, s) ← scanInt 2 s
  let s ← scanLetter 58 s
  let (min, s) ← scanInt 2 s
  let s ← scanLetter 58 s
  let (sec, _) ← scanInt 2 s
  return { sec, min, hour, mday, mon, year }

def timeFromXml (xml : Bytes) (offset : Nat) : Option (Value × Nat) :=
  match textFrom xml offset with
  | none => none
  | some stime => (scanTime (cStr stime)).map fun t => (.dateTime t, offset + stime.length)

def binaryFromXml (xml : Bytes) (offset : Nat) : Option (Value × Nat) :=
  (textFrom xml offset).map fun asString => (.base64 (Base64.get asString), offset + asString.length)

/-- `offset` behind `tag` if that is the next tag, else unchanged. -/
def skipTag (tag xml : Bytes) (offset : Nat) : Nat := (nextTagIs tag xml offset).getD offset

mutual

def fromXmlFuel [DoubleText] : Nat → Bytes → Nat → Option (Value × Nat)
  | 0, _, _ => none
  | fuel + 1, xml, savedOffset =>
    match nextTagIs valueTag xml savedOffset with
    | none => none
    | some afterValueOffset =>
      let next := getNextTag xml afterValueOffset
      let typeTag := next.1
      let offset := next.2
      let result :=
        if typeTag = booleanTag then boolFromXml xml offset
        else if typeTag = i4Tag ∨ typeTag = intTag then intFromXml xml offset
        else if typeTag = doubleTag then doubleFromXml xml offset
        else if typeTag = [] ∨ typeTag = stringTag then stringFromXml xml offset
        else if typeTag = dateTimeTag then timeFromXml xml offset
        else if typeTag = base64Tag then binaryFromXml xml offset
        else if typeTag = arrayTag then
          match nextTagIs dataTag xml offset with
          | none => none
          | some offset =>
            let r := elementsFromXml fuel xml offset
            some (.array r.1, skipTag dataEtag xml r.2)
        else if typeTag = structTag then
          match membersFromXml fuel [] xml offset with
          | none => none
          | some (members, offset) => some (.struct members, offset)
        else if typeTag = valueEtag then stringFromXml xml afterValueOffset
        else none
      match result with
      | none => none
      | some (v, offset) => some (v, (findTag valueEtag xml offset).getD offset)

/-- The loop of `arrayFromXml`. -/
def elementsFromXml [DoubleText] : Nat → Bytes → Nat → List Value × Nat
  | 0, _, offset => ([], offset)
  | fuel + 1, xml, offset =>
    match fromXmlFuel fuel xml offset with
    | none => ([], offset)
    | some (v, offset) =>
      let r := elementsFromXml fuel xml offset
      (v :: r.1, r.2)

/-- The loop of `structFromXml`; `members` are those inserted so far. -/
def membersFromXml [DoubleText] :
    Nat → List (Bytes × Value) → Bytes → Nat → Option (List (Bytes × Value) × Nat)
  | 0, _, _, _ => none
  | fuel + 1, members, xml, offset =>
    match nextTagIs memberTag xml offset with
    | none => some (members, offset)
    | some offset =>
      let name := parseTag nameTag xml offset
      match fromXmlFuel fuel xml name.2 with
      | none => none
      | some (v, offset) =>
        membersFromXml fuel (insertAbsent name.1 v members) xml (skipTag memberEtag xml offset)

end

def fromXml [DoubleText] (xml : Bytes) (offset : Nat) : Option (Value × Nat) :=
  fromXmlFuel (xml.length + 1) xml offset

end XcRos.Rpc
