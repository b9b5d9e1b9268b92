import XcRos.Genpy.Struct

/-! # Emitted code

The statements that the generators emit, and how they run. A name that stands for a part of a message
is bound to the place of that part, so that an assignment through it changes the message.
-/

namespace XcRos.Genpy

open XcRos.Foundation XcRos.Msg

/-- The variables for messages and fields: `self`, `_x`, `val3` and `_v3`. -/
inductive Var where
  | self
  | x
  | val (n : Nat)
  | v (n : Nat)
deriving DecidableEq, Repr

/-- A variable with attributes behind it, such as `_x.pose.position`. -/
structure Ref where
  var : Var
  path : Path
deriving DecidableEq, Repr

/-- The format of a `struct` call. -/
inductive Fmt where
  | literal (pattern : Str)
  /-- A string with the variable `length` in it, such as `'<I%ss'%length`. -/
  | withLength (front : Str) (letter : Char)
  /-- The variable `pattern`. -/
  | pattern
deriving Repr

inductive Arg where
  | length
  | value (r : Ref)
  | star (r : Ref)
deriving Repr

inductive Expr where
  /-- `str[start:end]` -/
  | slice
  /-- `str[start:end].decode('utf-8')` -/
  | decoded
  | encoded (r : Ref)
  | bool (r : Ref)
  | mapBool (r : Ref)
  | emptyList
  /-- The constructor of a class, or `None`. -/
  | new (cls : Option Str)
  /-- `struct.unpack(fmt, str[start:end])` -/
  | unpacked (fmt : Fmt)
deriving Repr

/-- What is added to `end`. -/
inductive Amount where
  | bytes (n : Nat)
  | length
  /-- `struct.calcsize(pattern)` -/
  | ofPattern
deriving Repr

inductive Stmt where
  | pass
  /-- `y = r` -/
  | name (y : Var) (r : Ref)
  | assign (r : Ref) (e : Expr)
  /-- `(r, ..) = struct.unpack(fmt, str[start:end])` -/
  | unpackInto (rs : List Ref) (fmt : Fmt)
  /-- `length = len(r)` -/
  | takeLength (r : Ref)
  /-- `(length,) = _struct_I.unpack(str[start:end])` -/
  | unpackLength
  /-- `pattern = '<%sc'%length` -/
  | setPattern (letter : Char)
  /-- `buff.write(struct.pack(fmt, args))` -/
  | write (fmt : Fmt) (args : List Arg)
  /-- `end = 0` -/
  | rewind
  /-- `start = end` -/
  | mark
  /-- `end += amount` -/
  | advance (amount : Amount)
  /-- `if type(r) in [list, tuple]` -/
  | ifList (r : Ref) (body orelse : Stmt)
  /-- `if r is None: r = cls()` -/
  | ifNone (r : Ref) (cls : Option Str)
  | forEach (y : Var) (r : Ref) (body : List Stmt)
  /-- `for i in range(0, count)`, where no count is the variable `length`. -/
  | forRange (count : Option Nat) (body : List Stmt)
  | append (r : Ref) (y : Var)
  /-- `r.canon()` -/
  | canon (r : Ref)

/-! ## Frames -/

inductive Binding where
  | value (v : PyVal)
  | place (root : Var) (path : Path)

/-- The local variables while the code runs, and what was written. `stop` is the variable `end`. -/
structure Frame where
  vars : Var → Option Binding
  length : Nat
  start : Nat
  stop : Nat
  pattern : Str
  buff : Bytes

/-- The bytes to read, and an instance as the constructor of each class makes it. -/
structure Env where
  input : Bytes
  classes : Str → Option PyVal

namespace Frame

def bind (f : Frame) (y : Var) (b : Binding) : Frame := { f with vars := Function.update f.vars y (some b) }

/-- Where a reference leads: a variable that holds a value, and the path in that. -/
def place (f : Frame) (r : Ref) : Option (Var × Path) :=
  match f.vars r.var with
  | some (.value _) => some (r.var, r.path)
  | some (.place root path) => some (root, path ++ r.path)
  | none => none

def valueOf (f : Frame) (y : Var) : Option PyVal :=
  match f.vars y with
  | some (.value v) => some v
  | _ => none

def get (f : Frame) (r : Ref) : Option PyVal :=
  (f.place r).bind fun (root, path) => (f.valueOf root).bind (PyVal.at? path)

def modify (f : Frame) (r : Ref) (g : PyVal → Option PyVal) : Option Frame :=
  (f.place r).bind fun (root, path) =>
    (f.valueOf root).bind fun v => (v.modify path g).map fun v' => f.bind root (.value v')

def assign (f : Frame) (r : Ref) (v : PyVal) : Option Frame :=
  if r.path = [] then some (f.bind r.var (.value v)) else f.modify r fun _ => some v

def slice (f : Frame) (env : Env) : Bytes := (env.input.drop f.start).take (f.stop - f.start)

def format (f : Frame) : Fmt → Str
  | .literal pattern => pattern
  | .withLength front letter => front ++ (decimal f.length ++ [letter])
  | .pattern => f.pattern

end Frame

/-! ## Built-in functions -/

namespace PyVal

def elements : PyVal → Option (List PyVal)
  | .list vs | .tuple vs => some vs
  | .bytes bs => some (bs.map fun b => .int b.toNat)
  | .str s => some (s.map fun c => .str [c])
  | _ => Option.none

def len (v : PyVal) : Option Nat := v.elements.map List.length

/-- `bool(v)` -/
def truth : PyVal → Bool
  | .none => false
  | .bool b => b
  | .int n => n ≠ 0
  | .single bits => bits &&& 0x7fffffff ≠ 0
  | .double bits => bits &&& 0x7fffffffffffffff ≠ 0
  | .str s => s ≠ []
  | .bytes bs => bs ≠ []
  | .list vs | .tuple vs => !vs.isEmpty
  | .iterator | .obj _ _ => true

def isList : PyVal → Bool
  | .list _ | .tuple _ => true
  | _ => false

/-- `TVal.canon` -/
def canon : PyVal → Option PyVal
  | .obj cls attrs =>
    match attrs.lookup (Msg.str "secs"), attrs.lookup (Msg.str "nsecs") with
    | some (.int secs), some (.int nsecs) =>
      let secsOver := nsecs / 1000000000
      (modifyField (Msg.str "secs") (fun _ => some (.int (secs + secsOver))) attrs).bind fun attrs =>
        (modifyField (Msg.str "nsecs") (fun _ => some (.int (nsecs - secsOver * 1000000000))) attrs).map (.obj cls)
    | _, _ => Option.none
  | _ => Option.none

end PyVal

/-! ## Execution -/

def Arg.eval (f : Frame) : Arg → Option (List PyVal)
  | .length => some [.int f.length]
  | .value r => (f.get r).map fun v => [v]
  | .star r => (f.get r).bind PyVal.elements

/-- The arguments of a call; `none` is an exception. -/
def evalArgs (f : Frame) : List Arg → Option (List PyVal)
  | [] => some []
  | arg :: args => (arg.eval f).bind fun vs => (evalArgs f args).map (vs ++ ·)

def Expr.eval (env : Env) (f : Frame) : Expr → Option PyVal
  | .slice => some (.bytes (f.slice env))
  | .decoded => (decodeUtf8 (f.slice env)).map .str
  | .encoded r =>
    (f.get r).bind fun
      | .str s => (encodeUtf8 s).map .bytes
      | _ => none
  | .bool r => (f.get r).map fun v => .bool v.truth
  | .mapBool r => ((f.get r).bind PyVal.elements).map fun _ => .iterator
  | .emptyList => some (.list [])
  | .new (some cls) => env.classes cls
  | .new none => some .none
  | .unpacked fmt => (structUnpack (f.format fmt) (f.slice env)).map .tuple

def assignEach : List Ref → List PyVal → Frame → Option Frame
  | [], [], f => some f
  | r :: rs, v :: vs, f => (f.assign r v).bind (assignEach rs vs)
  | _, _, _ => none

def Amount.eval (f : Frame) : Amount → Option Nat
  | .bytes n => some n
  | .length => some f.length
  | .ofPattern => calcsize f.pattern

mutual

/-- A statement; `none` is an exception. -/
def Stmt.exec (env : Env) : Stmt → Frame → Option Frame
  | .pass, f => some f
  | .name y r, f => (f.place r).bind fun (root, path) => (f.get r).map fun _ => f.bind y (.place root path)
  | .assign r e, f => (e.eval env f).bind (f.assign r)
  | .unpackInto rs fmt, f => (structUnpack (f.format fmt) (f.slice env)).bind fun vs => assignEach rs vs f
  | .takeLength r, f => ((f.get r).bind PyVal.len).map fun n => { f with length := n }
  | .unpackLength, f =>
    (structUnpack (str "I") (f.slice env)).bind fun
      | [.int n] => some { f with length := n.toNat }
      | _ => none
  | .setPattern letter, f => some { f with pattern := decimal f.length ++ [letter] }
  | .write fmt args, f =>
    ((evalArgs f args).bind (structPack (f.format fmt))).map fun bs => { f with buff := f.buff ++ bs }
  | .rewind, f => some { f with stop := 0 }
  | .mark, f => some { f with start := f.stop }
  | .advance amount, f => (amount.eval f).map fun n => { f with stop := f.stop + n }
  | .ifList r body orelse, f => (f.get r).bind fun v => if v.isList then body.exec env f else orelse.exec env f
  | .ifNone r cls, f =>
    (f.get r).bind fun
      | .none => ((Expr.new cls).eval env f).bind (f.assign r)
      | _ => some f
  | .forEach y r body, f =>
    ((f.get r).bind PyVal.elements).bind fun vs => vs.foldlM (fun f v => execAll env body (f.bind y (.value v))) f
  | .forRange count body, f =>
    (List.replicate (count.getD f.length) ()).foldlM (fun f _ => execAll env body f) f
  | .append r y, f =>
    (f.valueOf y).bind fun v => f.modify r fun
      | .list vs => some (.list (vs ++ [v]))
      | _ => none
  | .canon r, f => f.modify r PyVal.canon

def execAll (env : Env) : List Stmt → Frame → Option Frame
  | [], f => some f
  | s :: ss, f => (s.exec env f).bind (execAll env ss)

end

end XcRos.Genpy
