import XcRos.Foundation.Fuel
import XcRos.Genpy.Code
import XcRos.Genpy.GenerateStruct
import XcRos.Msg.Spec

/-! # The generators of serialize and deserialize

The generators of `generator.py`, without the numpy variants. What follows the specifications of
embedded messages takes fuel. The names of a specification are paths, since flattening puts dots into them.
-/

namespace XcRos.Genpy

open XcRos.Foundation XcRos.Msg

/-- `keyword.kwlist` -/
def kwlist : List Str :=
  ["False", "None", "True", "and", "as", "assert", "async", "await", "break", "class", "continue", "def", "del",
    "elif", "else", "except", "finally", "for", "from", "global", "if", "import", "in", "is", "lambda", "nonlocal",
    "not", "or", "pass", "raise", "return", "try", "while", "with", "yield"].map str

def remapReserved (name : Str) : Str := if name ∈ kwlist ++ [str "self"] then name ++ ['_'] else name

/-- `_remap_reserved` of a name with dots. -/
def remapPath : Path → Path
  | [] => []
  | [name] => [remapReserved name]
  | name :: path => name :: remapPath path

abbrev Fields := List (Str × Path)

def specFields (spec : MsgSpec) : Fields := spec.fields.map fun (type, name) => (type, [name])

def makePythonSafe (fields : Fields) : Fields := fields.map fun (type, path) => (type, remapPath path)

/-- One field in `flatten`: the fields of an embedded message, or the field itself. -/
def flattenField (sub : Fields → Option Fields) (ctx : MsgContext) (type : Str) (path : Path) : Option Fields :=
  (parseType type).bind fun (_, arity) =>
    if arity = .scalar then
      match ctx.getRegistered type with
      | some spec => (sub (specFields spec)).map fun fields => fields.map fun (type, rest) => (type, path ++ rest)
      | none => some [(type, path)]
    else some [(type, path)]

def flattenFields (sub : Fields → Option Fields) (ctx : MsgContext) : Fields → Option Fields
  | [] => some []
  | (type, path) :: fields =>
    (flattenField sub ctx type path).bind fun front => (flattenFields sub ctx fields).map (front ++ ·)

def flatten (ctx : MsgContext) : Nat → Fields → Option Fields := fuelled fun sub => flattenFields sub ctx

/-! ## Constructors -/

/-- The keys of `_SPECIAL_TYPES`. -/
def isSpecial (type : Str) : Bool := [str "Header", str "time", str "duration"].contains type

def computePkgType (package type : Str) : Option (Str × Str) :=
  match split '/' type with
  | [base] => some (package, base)
  | [package, base] => some (package, base)
  | _ => none

def fullType (package base : Str) : Str := package ++ '/' :: base

/-- `compute_constructor`: the class whose constructor is called. The inner `none` is Python's `None`. -/
def computeConstructor (ctx : MsgContext) (package type : Str) : Option (Option Str) :=
  if type = str "Header" then some (some (str "std_msgs/Header"))
  else if isSpecial type then some (some type)
  else if bareMsgType type ≠ type then some none
  else (computePkgType package type).map fun (package, base) =>
    if (ctx.getRegistered (fullType package base)).isSome then some (fullType package base) else none

/-! ## Serializers of one field -/

/-- `_serial_context`, which is this variable and a dot, and the length of `_context_stack`. -/
structure Scope where
  context : Var
  depth : Nat

def Scope.ref (s : Scope) (path : Path) : Ref := ⟨s.context, path⟩

def int32Pack : Stmt := .write (.literal (str "I")) [.length]

def lenSerializer (var : Ref) (isString serialize : Bool) : List Stmt :=
  if serialize then .takeLength var :: (if isString then [] else [int32Pack])
  else [.mark, .advance (.bytes 4), .unpackLength]

/-- `array_len`; the length in a type that the loader accepts is not negative. -/
def arrayLen : Arity → Option Nat
  | .fixed n => some n.toNat
  | _ => none

def isBytes (baseType : Str) : Bool := baseType = str "uint8" ∨ baseType = str "char"

/-- `pack` for one pattern, with the arguments of the call. -/
def packStmt (pattern : Str) (args : List Arg) : Stmt := .write (.literal (reducePattern pattern)) args

/-- `string_serializer_generator`. The empty context is that of an element in an array of strings, which is a
variable itself. -/
def stringSerializer (baseType : Str) (arrayLen : Option Nat) (inContext : Bool) (place : Ref) (serialize : Bool) :
    List Stmt :=
  let var : Ref := if inContext ∧ serialize then ⟨.x, []⟩ else place
  let front := if inContext ∧ serialize then [.name .x place] else []
  let len := if isBytes baseType ∧ arrayLen.isSome then [] else lenSerializer var true serialize
  let body : List Stmt :=
    if serialize then
      if isBytes baseType then
        match arrayLen with
        | none =>
          [.ifList var (.write (.withLength (str "I") 'B') [.length, .star var])
            (.write (.withLength (str "I") 's') [.length, .value var])]
        | some n =>
          [.ifList var (packStmt (decimal n ++ ['B']) [.star var]) (packStmt (decimal n ++ ['s']) [.value var])]
      else
        -- what stands under `if python3`
        [.assign var (.encoded var), .takeLength var, .write (.withLength (str "I") 's') [.length, .value var]]
    else
      match arrayLen with
      | some n => [.mark, .advance (.bytes n), .assign var .slice]
      | none => [.mark, .advance .length, .assign var (if isBytes baseType then .slice else .decoded)]
  front ++ len ++ body

section

-- `sub` is `serializer_generator` for an embedded specification.
variable (ctx : MsgContext) (serialize : Bool) (sub : Scope → Str → Fields → Nat → Option (List Stmt × Nat))

def arraySerializer (package baseType : Str) (arity : Arity) (s : Scope) (path : Path) (counter : Nat) :
    Option (List Stmt × Nat) :=
  let var := s.ref path
  if isBytes baseType then some (stringSerializer baseType (arrayLen arity) true var serialize, counter)
  else
    let front := if (arrayLen arity).isNone then lenSerializer var false serialize else []
    match simpleOf baseType with
    | some simple =>
      let convert : List Stmt := if ¬ serialize ∧ baseType = str "bool" then [.assign var (.mapBool var)] else []
      match arrayLen arity with
      | none =>
        let body : List Stmt :=
          if serialize then [.write .pattern [.star var]]
          else [.mark, .advance .ofPattern, .assign var (.unpacked .pattern)]
        some (front ++ .setPattern simple.letter :: body ++ convert, counter)
      | some n =>
        let pattern := decimal n ++ [simple.letter]
        if serialize then some (front ++ packStmt pattern [.star var] :: convert, counter)
        else
          (calcsize pattern).map fun size =>
            (front ++ [.mark, .advance (.bytes size), .assign var (.unpacked (.literal (reducePattern pattern)))] ++
              convert, counter)
    | none =>
      let loopVar := Var.val s.depth
      let factory : Option (List Stmt × Nat) :=
        if baseType = str "string" then some (stringSerializer baseType none false ⟨loopVar, []⟩ serialize, counter)
        else
          (ctx.getRegistered baseType).bind fun spec =>
            sub ⟨loopVar, s.depth + 1⟩ spec.package (makePythonSafe (specFields spec)) counter
      factory.bind fun (code, counter) =>
        if serialize then some (front ++ [.forEach loopVar var code], counter)
        else
          let construct : Option (List Stmt) :=
            if baseType = str "string" then some []
            else (computeConstructor ctx package baseType).map fun cls => [.assign ⟨loopVar, []⟩ (.new cls)]
          construct.map fun construct =>
            (front ++ [.assign var .emptyList, .forRange (arrayLen arity) (construct ++ code ++ [.append var loopVar])],
              counter)

def complexSerializer (package type : Str) (s : Scope) (path : Path) (counter : Nat) : Option (List Stmt × Nat) :=
  (parseType type).bind fun (baseType, arity) =>
    if arity ≠ .scalar then arraySerializer ctx serialize sub package baseType arity s path counter
    else if type = str "string" then some (stringSerializer type none true (s.ref path) serialize, counter)
    else
      let resolved : Option Str :=
        if isSpecial type then some type
        else (computePkgType package type).map fun (package, base) => fullType package base
      resolved.bind fun type => (ctx.getRegistered type).bind fun spec =>
        (sub ⟨.v (counter + 1), s.depth + 1⟩ spec.package (makePythonSafe (specFields spec)) (counter + 1)).map
          fun (code, counter') => (.name (.v (counter + 1)) (s.ref path) :: code, counter')

end

/-! ## Serializers of all fields -/

/-- `simple_serializer_generator` of the fields in one chunk. -/
def simpleSerializer (serialize : Bool) (s : Scope) (fields : Fields) : Option (List Stmt) :=
  (computeStructPattern (fields.map Prod.fst)).bind fun pattern =>
    let short := 1 < fields.length
    let front : List Stmt := if short then [.name .x (s.ref [])] else []
    let vars : List Ref := fields.map fun field => if short then ⟨.x, field.2⟩ else s.ref field.2
    if serialize then some (front ++ [packStmt pattern (vars.map .value)])
    else
      (calcsize (reducePattern pattern)).map fun size =>
        front ++ [.mark, .advance (.bytes size), .unpackInto vars (.literal (reducePattern pattern))] ++
          (fields.filter fun field => field.1 = str "bool").map fun field =>
            .assign (s.ref field.2) (.bool (s.ref field.2))

def chunks {α : Type} (fields : List α) : List (List α) :=
  if fields = [] then [] else fields.take 255 :: chunks (fields.drop 255)
termination_by fields.length
decreasing_by
  rename_i h
  rw [List.length_drop]
  have := List.length_pos_of_ne_nil h
  omega

def simpleSerializers (serialize : Bool) (s : Scope) (fields : Fields) : Option (List Stmt) :=
  ((chunks fields).mapM (simpleSerializer serialize s)).map List.flatten

/-- The loop of `serializer_generator`; `simples` are the simple fields since the last complex one. -/
def serializeFields (serialize : Bool) (s : Scope) (complex : Str → Path → Nat → Option (List Stmt × Nat)) :
    Fields → Fields → Nat → Option (List Stmt × Nat)
  | simples, [], counter => (simpleSerializers serialize s simples).map fun code => (code, counter)
  | simples, (type, path) :: fields, counter =>
    if isSimple type then serializeFields serialize s complex (simples ++ [(type, path)]) fields counter
    else
      (simpleSerializers serialize s simples).bind fun front =>
        (complex type path counter).bind fun (code, counter) =>
          (serializeFields serialize s complex [] fields counter).map fun (rest, counter) =>
            (front ++ code ++ rest, counter)

def serializer (ctx : MsgContext) (serialize : Bool) : Nat → Scope → Str → Fields → Nat → Option (List Stmt × Nat)
  | 0 => fun _ _ _ _ => none
  | fuel + 1 => fun s package fields counter =>
    if serialize ∧ fields = [] then some ([.pass], counter)
    else
      serializeFields serialize s
        (fun type path counter => complexSerializer ctx serialize (serializer ctx serialize fuel) package type s path counter)
        [] fields counter

/-! ## The functions -/

/-- `serialize_fn_generator`; `counter` is the number of the last variable so far. -/
def serializeFn (ctx : MsgContext) (fuel : Nat) (package : Str) (fields : Fields) (counter : Nat) : Option (List Stmt) :=
  (flatten ctx fuel fields).bind fun flattened =>
    (serializer ctx true fuel ⟨.self, 1⟩ package (makePythonSafe flattened) counter).map Prod.fst

def instantiate (ctx : MsgContext) (package : Str) : Fields → Option (List Stmt)
  | [] => some []
  | (type, path) :: fields =>
    (if (ctx.getRegistered type).isSome then
      (computeConstructor ctx package type).map fun cls => [Stmt.ifNone ⟨.self, path⟩ cls]
    else some []).bind fun front => (instantiate ctx package fields).map (front ++ ·)

def postDeserialize (fields : Fields) : List Stmt :=
  (fields.filter fun field => field.1 = str "time" ∨ field.1 = str "duration").map fun field => .canon ⟨.self, field.2⟩

/-- `deserialize_fn_generator` -/
def deserializeFn (ctx : MsgContext) (fuel : Nat) (package : Str) (fields : Fields) (counter : Nat) :
    Option (List Stmt) :=
  (instantiate ctx package fields).bind fun front =>
    (flatten ctx fuel fields).bind fun flattened =>
      (serializer ctx false fuel ⟨.self, 1⟩ package (makePythonSafe flattened) counter).map fun (code, _) =>
        front ++ .rewind :: code ++ postDeserialize fields

/-! ## Instances -/

/-- `default_value`; the generated constructors give every field this value. -/
def defaultValue (newInstance : Str → Option PyVal) (type : Str) : Option PyVal :=
  (parseType type).bind fun (baseType, arity) =>
    let scalar : Option PyVal :=
      match simpleOf baseType with
      | some .float32 => some (.single 0)
      | some .float64 => some (.double 0)
      | some .bool => some (.bool false)
      | some _ => some (.int 0)
      | none => if baseType = str "string" then some (.str []) else newInstance baseType
    match arity with
    | .scalar => scalar
    | .variable => some (if isBytes baseType then .bytes [] else .list [])
    | .fixed n =>
      if isBytes baseType then some (.bytes (List.replicate n.toNat 0))
      else scalar.map fun v => .list (List.replicate n.toNat v)

/-- A new object of a class, whose attributes are the fields of the specification in the names of `__slots__`. -/
def newInstance (ctx : MsgContext) : Nat → Str → Option PyVal :=
  fuelled fun sub cls =>
    (ctx.getRegistered cls).bind fun spec =>
      (spec.fields.mapM fun (type, name) => (defaultValue sub type).map fun v => (remapReserved name, v)).map (.obj cls)

end XcRos.Genpy
