import XcRos.Rpc.Socket

/-! # Base64 text

The encoder breaks the line behind every eighteenth group of four letters; the decoder passes over
every letter that is neither `=` nor one of the sixty-four.
-/

namespace XcRos.Rpc

def base64Chars : Bytes := bytes "ABCDEFGHIJKLMNOPQRSTUVWXYZabcdefghijklmnopqrstuvwxyz0123456789+/"

structure ThreeToFour where
  data0 : UInt8
  data1 : UInt8
  data2 : UInt8
deriving DecidableEq, Repr

namespace ThreeToFour

def zero : ThreeToFour := ⟨0, 0, 0⟩

def b64_0 (t : ThreeToFour) : UInt8 := (t.data0 &&& 0xFC) >>> 2

def b64_1 (t : ThreeToFour) : UInt8 := ((t.data0 &&& 0x03) <<< 4) + ((t.data1 &&& 0xF0) >>> 4)

def b64_2 (t : ThreeToFour) : UInt8 := ((t.data1 &&& 0x0F) <<< 2) + ((t.data2 &&& 0xC0) >>> 6)

def b64_3 (t : ThreeToFour) : UInt8 := t.data2 &&& 0x3F

def set_b64_0 (t : ThreeToFour) (ch : UInt8) : ThreeToFour :=
  { t with data0 := ((ch &&& 0x3F) <<< 2) ||| (0x03 &&& t.data0) }

def set_b64_1 (t : ThreeToFour) (ch : UInt8) : ThreeToFour :=
  { t with
    data0 := ((ch &&& 0x30) >>> 4) ||| (0xFC &&& t.data0)
    data1 := ((ch &&& 0x0F) <<< 4) ||| (0x0F &&& t.data1) }

def set_b64_2 (t : ThreeToFour) (ch : UInt8) : ThreeToFour :=
  { t with
    data1 := ((ch &&& 0x3C) >>> 2) ||| (0xF0 &&& t.data1)
    data2 := ((ch &&& 0x03) <<< 6) ||| (0x3F &&& t.data2) }

def set_b64_3 (t : ThreeToFour) (ch : UInt8) : ThreeToFour :=
  { t with data2 := (ch &&& 0x3F) ||| (0xC0 &&& t.data2) }

end ThreeToFour

def base64Char (index : UInt8) : UInt8 := base64Chars.getD index.toNat 0

namespace Base64

/-- `base64::put`; `lineOctets` groups stand on the current line. -/
def put : Nat → Bytes → Bytes
  | _, [] => []
  | _, [a] =>
    let t : ThreeToFour := ⟨a, 0, 0⟩
    [base64Char t.b64_0, base64Char t.b64_1, 61, 61]
  | _, [a, b] =>
    let t : ThreeToFour := ⟨a, b, 0⟩
    [base64Char t.b64_0, base64Char t.b64_1, base64Char t.b64_2, 61]
  | lineOctets, a :: b :: c :: rest =>
    let t : ThreeToFour := ⟨a, b, c⟩
    base64Char t.b64_0 :: base64Char t.b64_1 :: base64Char t.b64_2 :: base64Char t.b64_3 ::
      if lineOctets = 17 then 10 :: put 0 rest else put (lineOctets + 1) rest

inductive CharType where
  | value (index : UInt8)
  | equalChar
  | unknownChar
deriving DecidableEq, Repr

def getCharType (ch : UInt8) : CharType :=
  if ch = 43 then .value 62
  else if ch = 47 then .value 63
  else if 65 ≤ ch ∧ ch ≤ 90 then .value (ch - 65)
  else if 97 ≤ ch ∧ ch ≤ 122 then .value (ch - 97 + 26)
  else if 48 ≤ ch ∧ ch ≤ 57 then .value (ch - 48 + 52)
  else if ch = 61 then .equalChar
  else .unknownChar

inductive Position where
  | first
  | second
  | third
  | fourth
deriving DecidableEq, Repr

/-- The decoding loop of `base64::get` while it searches the letter at `position` of a group. -/
def getLoop : Position → ThreeToFour → Bytes → Bytes
  | _, _, [] => []
  | position, t, ch :: rest =>
    match getCharType ch with
    | .unknownChar => getLoop position t rest
    | .equalChar =>
      match position with
      | .first => []
      | .second => []
      | .third => [((t.set_b64_2 0).set_b64_3 0).data0]
      | .fourth => [(t.set_b64_3 0).data0, (t.set_b64_3 0).data1]
    | .value index =>
      match position with
      | .first => getLoop .second (ThreeToFour.zero.set_b64_0 index) rest
      | .second => getLoop .third (t.set_b64_1 index) rest
      | .third => getLoop .fourth (t.set_b64_2 index) rest
      | .fourth =>
        let t := t.set_b64_3 index
        t.data0 :: t.data1 :: t.data2 :: getLoop .first .zero rest

def get (text : Bytes) : Bytes := getLoop .first .zero text

end Base64

end XcRos.Rpc
