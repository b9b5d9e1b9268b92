import XcRos.Genpy.Strify

/-! # Filling messages

`fill_message_args` sets the fields of a message from what a YAML document is read as. An exception leaves a message
that is filled in part, which is not looked at any more.
-/

namespace XcRos.Genpy

open XcRos.Foundation XcRos.Msg

/-! ## Values -/

inductive Key where
  | null
  | bool (b : Bool)
  | str (s : Str)
deriving DecidableEq

inductive PyObj where
  | none
  | bool (b : Bool)
  | int (n : Int)
  | single (bits : UInt32)
  | double (bits : UInt64)
  | str (s : List CodePoint)
  | bytes (bs : Bytes)
  | list (vs : List PyObj)
  | tuple (vs : List PyObj)
  | dict (items : List (Key × PyObj))
  | iterator
  | obj (cls : Str) (attrs : List (Str × PyObj))

namespace PyObj

mutual

def ofPyVal : PyVal → PyObj
  | .none => .none
  | .bool b => .bool b
  | .int n => .int n
  | .single bits => .single bits
  | .double bits => .double bits
  | .str s => .str s
  | .bytes bs => .bytes bs
  | .list vs => .list (ofEach vs)
  | .tuple vs => .tuple (ofEach vs)
  | .iterator => .iterator
  | .obj cls attrs => .obj cls (ofAttrs attrs)

def ofEach : List PyVal → List PyObj
  | [] => []
  | v :: vs => ofPyVal v :: ofEach vs

def ofAttrs : List (Str × PyVal) → List (Str × PyObj)
  | [] => []
  | (name, v) :: attrs => (name, ofPyVal v) :: ofAttrs attrs

end

mutual

def toPyVal? : PyObj → Option PyVal
  | .none => some .none
  | .bool b => some (.bool b)
  | .int n => some (.int n)
  | .single bits => some (.single bits)
  | .double bits => some (.double bits)
  | .str s => some (.str s)
  | .bytes bs => some (.bytes bs)
  | .list vs => (toEach? vs).map .list
  | .tuple vs => (toEach? vs).map .tuple
  | .dict _ => Option.none
  | .iterator => some .iterator
  | .obj cls attrs => (toAttrs? attrs).map (.obj cls)

def toEach? : List PyObj → Option (List PyVal)
  | [] => some []
  | v :: vs => (toPyVal? v).bind fun w => (toEach? vs).map (w :: ·)

def toAttrs? : List (Str × PyObj) → Option (List (Str × PyVal))
  | [] => some []
  | (name, v) :: attrs => (toPyVal? v).bind fun w => (toAttrs? attrs).map ((name, w) :: ·)

end

end PyObj

/-! ## Fields -/

inductive FillFault where
  | messageException (text : Str)
  | valueError (text : Str)
  /-- An exception of another kind. -/
  | other

/-- The classes, and what Python and `rostime` contribute. -/
structure Classes where
  slotTypes : Str → Option (List Str)
  /-- An instance of a class that can be loaded. -/
  new : Str → Option PyObj
  /-- `from_sec(v/1e9)` of `Time` or `Duration`. -/
  fromNsec : Str → Int → Except FillFault PyObj
  shown : PyObj → Str
  typeName : PyObj → Str

def Key.text : Key → Str
  | .null => Msg.str "None"
  | .bool b => boolText b
  | .str s => s

def updateSlot (missing : FillFault) (f : Key) (g : PyObj → Except FillFault PyObj) :
    List (Str × PyObj) → Except FillFault (List (Str × PyObj))
  | [] => .error missing
  | (slot, def_val) :: attrs =>
    if f = .str slot then (g def_val).map fun v => (slot, v) :: attrs
    else (updateSlot missing f g attrs).map ((slot, def_val) :: ·)

/-- A number that stands for a `Time` or a `Duration`. -/
def asNsec (v inner : PyObj) : Option (Str × Int) :=
  match v, inner with
  | .int n, .obj cls _ => if isStamp cls then some (cls, n) else none
  | _, _ => none

section

variable (env : Classes) (keys : List (List CodePoint × PyObj))

/-- The type of a slot in `_slot_types`. -/
def slotType (cls : Str) (slots : List Str) (f : Key) : Option Str :=
  (env.slotTypes cls).bind fun types => ((slots.map Key.str).zip types).lookup f

/-- What `_fill_val` does to a list; `elements` fills new messages from the elements of `v`. -/
def fillList (path : Str) (type : Option Str) (elements : PyObj → Except FillFault (List PyObj)) (v : PyObj)
    (els : List PyObj) : Except FillFault PyObj :=
  match type.bind parseType with
  | none => .error .other
  | some (baseType, arity) =>
    let wrong : Option Int :=
      match arity with
      | .fixed length => if (els.length : Int) ≠ length then some length else none
      | _ => none
    match wrong with
    | some length =>
      .error (.messageException (str "Field [" ++ path ++ str "] has incorrect number of elements: " ++
        intText els.length ++ str " != " ++ intText length))
    | none =>
      if primitiveTypes.contains baseType then .ok v
      else
        match env.new baseType with
        | none =>
          .error (.messageException (str "Cannot instantiate messages for field [" ++ path ++ str "] : cannot load class " ++
            baseType))
        | some inner => (elements inner).map .list

/-- The new value of a field in `_fill_val`; `inner` and `elements` fill messages from `v` and from its elements. -/
def newValue (path : Str) (type : Option Str) (inner : PyObj → Except FillFault PyObj)
    (elements : PyObj → Except FillFault (List PyObj)) (v def_val : PyObj) : Except FillFault PyObj :=
  match def_val with
  | .obj _ _ =>
    match v with
    | .str s =>
      match keys.lookup s with
      | some w => .ok w
      | none => .error (.messageException (str "No key named [" ++ env.shown v ++ str "]"))
    | _ =>
      match asNsec v def_val with
      | some (cls, n) => env.fromNsec cls n
      | none => inner def_val
  | .list _ =>
    match v with
    | .list els | .tuple els => fillList env path type elements v els
    | _ =>
      .error (.messageException (str "Field [" ++ path ++ str "] must be a list or tuple instead of: " ++ env.typeName v))
  | _ => .ok v

/-- `_fill_val` on the slots of a message of the class. -/
def fillVal (pre cls : Str) (f : Key) (v : PyObj) (inner : PyObj → Except FillFault PyObj)
    (elements : PyObj → Except FillFault (List PyObj)) (attrs : List (Str × PyObj)) :
    Except FillFault (List (Str × PyObj)) :=
  updateSlot (.messageException (str "No field name [" ++ pre ++ f.text ++ str "]")) f
    (newValue env keys (pre ++ f.text) (slotType env cls (attrs.map Prod.fst) f) inner elements v) attrs

/-- A key without a value is taken for an empty string. -/
def orEmpty : PyObj → PyObj
  | .none => .str []
  | v => v

/-! ## Messages -/

mutual

/-- `_fill_message_args` with the arguments in front of the message. -/
def fillArgs (pre : Str) : PyObj → PyObj → Except FillFault PyObj
  | .dict items, .obj cls attrs => (fillItems pre cls items attrs).map (.obj cls)
  | .list vs, .obj cls attrs =>
    if vs.length > attrs.length then
      .error (.messageException (str "Too many arguments:\n * Given: " ++ env.shown (.list vs) ++ str "\n * Expected: " ++
        env.shown (.list (attrs.map fun attr => .str (attr.1.map CodePoint.ofChar)))))
    else if vs.length < attrs.length then
      .error (.messageException (str "Not enough arguments:\n * Given: " ++ env.shown (.list vs) ++ str "\n * Expected: " ++
        env.shown (.list (attrs.map fun attr => .str (attr.1.map CodePoint.ofChar)))))
    else (fillSlots pre cls vs (attrs.map Prod.fst) attrs).map (.obj cls)
  | args, .obj _ _ => .error (.valueError (str "invalid msg_args type: " ++ env.shown args))
  | _, msg => .error (.valueError (str "msg must be a Message instance: " ++ env.shown msg))
termination_by structural args => args

def fillItems (pre cls : Str) : List (Key × PyObj) → List (Str × PyObj) → Except FillFault (List (Str × PyObj))
  | [], attrs => .ok attrs
  | (f, v) :: items, attrs =>
    (fillVal env keys pre cls f (orEmpty v) (fillArgs (pre ++ f.text ++ ['.']) v) (fillElements pre v) attrs).bind
      (fillItems pre cls items)
termination_by structural items => items

def fillSlots (pre cls : Str) : List PyObj → List Str → List (Str × PyObj) → Except FillFault (List (Str × PyObj))
  | v :: vs, slot :: slots, attrs =>
    (fillVal env keys pre cls (.str slot) v (fillArgs (pre ++ slot ++ ['.']) v) (fillElements pre v) attrs).bind
      (fillSlots pre cls vs slots)
  | _, _, attrs => .ok attrs
termination_by structural vs => vs

def fillElements (pre : Str) : PyObj → PyObj → Except FillFault (List PyObj)
  | .list els, inner => fillEach pre els inner
  | .tuple els, inner => fillEach pre els inner
  | _, _ => .ok []
termination_by structural v => v

def fillEach (pre : Str) : List PyObj → PyObj → Except FillFault (List PyObj)
  | [], _ => .ok []
  | el :: els, inner =>
    (match asNsec el inner with
      | some (cls, n) => env.fromNsec cls n
      | none => fillArgs pre el inner).bind fun filled => (fillEach pre els inner).map (filled :: ·)
termination_by structural els => els

end

/-- `fill_message_args`: a list of one dictionary is the dictionary. -/
def fillMessageArgs (msg : PyObj) : PyObj → Except FillFault PyObj
  | .none => fillArgs env keys [] (.list []) msg
  | .list [.dict items] | .tuple [.dict items] => fillArgs env keys [] (.dict items) msg
  -- the index 0 is equal to `False`
  | .dict [(.bool false, .dict items)] => fillArgs env keys [] (.dict items) msg
  | .dict [(.bool false, v)] => fillArgs env keys [] (.dict [(.bool false, v)]) msg
  | .dict [_] => .error .other
  | .dict items => fillArgs env keys [] (.dict items) msg
  | .list vs => fillArgs env keys [] (.list vs) msg
  | .tuple vs => fillArgs env keys [] (.tuple vs) msg
  | .str s => fillArgs env keys [] (.str s) msg
  | .bytes bs => fillArgs env keys [] (.bytes bs) msg
  | _ => .error .other

end

end XcRos.Genpy
