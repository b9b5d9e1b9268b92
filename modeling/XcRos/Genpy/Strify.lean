import XcRos.Foundation.Blocks
import XcRos.Genpy.Message

/-! # The text form of messages

`strify_message` with its optional arguments left out, in Python 3. The layout follows the types that the values have
when they are printed.
-/

namespace XcRos.Genpy

open XcRos.Foundation XcRos.Msg

/-! ## Texts of single values -/

/-- `str` of an `int`. -/
def intText (n : Int) : Str := if n < 0 then '-' :: decimal n.natAbs else decimal n.natAbs

def boolText (b : Bool) : Str := if b then str "True" else str "False"

def hexLetter (n : Nat) : Char := "0123456789abcdef".toList.getD n '0'

/-- One byte in `repr` of `bytes`. -/
def byteText (quote : Char) (b : UInt8) : Str :=
  let c := Char.ofNat b.toNat
  if c = quote ∨ c = '\\' then ['\\', c]
  else if c = '\t' then str "\\t"
  else if c = '\n' then str "\\n"
  else if c = '\r' then str "\\r"
  else if b < 32 ∨ 127 ≤ b then ['\\', 'x', hexLetter (b.toNat / 16), hexLetter (b.toNat % 16)]
  else [c]

/-- The quotes are apostrophes, unless there are such among the bytes and no quotation marks. -/
def bytesQuote (bs : List UInt8) : Char := if bs.contains 39 && !bs.contains 34 then Char.ofNat 34 else Char.ofNat 39

/-- `str` of `bytes`. -/
def bytesText (bs : List UInt8) : Str := 'b' :: bytesQuote bs :: bs.flatMap (byteText (bytesQuote bs)) ++ [bytesQuote bs]

/-- `str` of a list, from `repr` of its elements. -/
def listText (texts : List Str) : Str := '[' :: [',', ' '].intercalate texts ++ [']']

/-- The texts that come from Python and from the YAML library: `repr` of other values than those above, `int` of what is
formatted as a number, and `yaml.dump`. -/
structure Printer where
  repr : PyVal → Str
  truncated : PyVal → Option Int
  dump : PyVal → Str

section

variable (py : Printer)

def pyText : PyVal → Str
  | .none => str "None"
  | .bool b => boolText b
  | .int n => intText n
  | .bytes bs => bytesText bs
  | v => py.repr v

/-- `'%9d' % v`; `none` is a `TypeError`. -/
def nineWide : PyVal → Option Str
  | .int n => some (fill n)
  | .bool b => some (fill b.toInt)
  | v => (py.truncated v).map fill
where
  fill (n : Int) : Str := Block.blanks (9 - (intText n).length) ++ intText n

end

/-! ## Messages -/

/-- Instances of `TVal`. -/
def isStamp (cls : Str) : Bool := cls = str "time" ∨ cls = str "duration"

/-- `_slot_types` of a class. -/
def slotTypes (ctx : MsgContext) (cls : Str) : Option (List Str) :=
  if isStamp cls then some [str "int32", str "int32"] else (ctx.getRegistered cls).map MsgSpec.types

def isstring : PyVal → Bool
  | .str _ => true
  | _ => false

/-- `int`, `float` or `bool` is the type. -/
def isNumber : PyVal → Bool
  | .int _ | .single _ | .double _ | .bool _ => true
  | _ => false

/-- `_convert_getattr`: the list that stands in for a `str`, if there is one. -/
def convertGetattr (attr : PyVal) (t : Str) : Option (List Nat) :=
  match attr with
  | .str s => if str "uint8[" <:+: t then some (s.map fun c => c.val) else none
  | _ => none

section

variable (ctx : MsgContext) (py : Printer)

/-- A `Time` or a `Duration`. -/
def stampText (indent : Str) (attrs : List (Str × PyVal)) : Option Str :=
  (attrs.lookup (str "secs")).bind fun secs => (attrs.lookup (str "nsecs")).bind fun nsecs =>
    (nineWide py nsecs).map fun nsecs =>
      '\n' :: indent ++ str "secs: " ++ pyText py secs ++ '\n' :: indent ++ str "nsecs: " ++ nsecs

def strifyList (val : PyVal) (vs : List PyVal) (items : Option (List Str)) : Option Str :=
  match vs with
  | [] => some (str "[]")
  | val0 :: _ =>
    if isstring val0 then some (py.dump val)
    else if isNumber val0 then some (listText (vs.map (pyText py)))
    else items.map fun items => '\n' :: Block.joinLines items

mutual

/-- `strify_message(val, indent)`; `none` is an exception. -/
def strify (indent : Str) : PyVal → Option Str
  | .str s => some (if s = [] then str "''" else py.dump (.str s))
  | .list vs => strifyList py (.list vs) vs (strifyItems indent vs)
  | .tuple vs => strifyList py (.tuple vs) vs (strifyItems indent vs)
  | .obj cls attrs =>
    if isStamp cls then stampText py indent attrs
    else
      (slotTypes ctx cls).bind fun types => (strifyFields indent types attrs).map fun vals =>
        if indent = [] then Block.joinLines vals else '\n' :: Block.joinLines vals
  | v => some (pyText py v)

def strifyItems (indent : Str) : List PyVal → Option (List Str)
  | [] => some []
  | v :: vs =>
    (strify (indent ++ [' ', ' ']) v).bind fun text =>
      (strifyItems indent vs).map fun texts => (indent ++ '-' :: ' ' :: text) :: texts

def strifyFields (indent : Str) : List Str → List (Str × PyVal) → Option (List Str)
  | t :: types, (f, attr) :: attrs =>
    (match convertGetattr attr t with
      | some ords => some (listText (ords.map decimal))
      | none => strify (' ' :: ' ' :: indent) attr).bind fun text =>
        (strifyFields indent types attrs).map fun texts => (indent ++ f ++ ':' :: ' ' :: text) :: texts
  | _, _ => some []

end

end

end XcRos.Genpy
