import XcRos.Genpy.Frame
import XcRos.Genpy.Resolve

/-! # Attributes that emitted code goes through

A variable of emitted code stands for a part of the message, or for a new object. So each reference is
a way from `self` or from that object, through attributes and through elements of lists.
-/

namespace XcRos.Genpy

open XcRos.Foundation XcRos.Msg

inductive Step where
  | attr (name : Str)
  | element
deriving DecidableEq, Repr

/-- Where a way starts: at `self`, at a new object of a class, or at what has no attributes. -/
inductive Root where
  | self
  | new (cls : Str)
  | plain
deriving DecidableEq, Repr

structure Origin where
  root : Root
  steps : List Step
deriving DecidableEq, Repr

def Origin.behind (o : Origin) (steps : List Step) : Origin := { o with steps := o.steps ++ steps }

def attrs (path : Path) : List Step := path.map .attr

abbrev Origins := Var → Origin

def Ref.origin (vars : Origins) (r : Ref) : Origin := (vars r.var).behind (attrs r.path)

def Ref.accesses (vars : Origins) (r : Ref) : List Origin := if r.path = [] then [] else [r.origin vars]

def Arg.accesses (vars : Origins) : Arg → List Origin
  | .length => []
  | .value r | .star r => r.accesses vars

def Expr.accesses (vars : Origins) : Expr → List Origin
  | .encoded r | .bool r | .mapBool r => r.accesses vars
  | .slice | .decoded | .emptyList | .new _ | .unpacked _ => []

def Expr.origin : Expr → Origin
  | .new (some cls) => ⟨.new cls, []⟩
  | _ => ⟨.plain, []⟩

/-- The variables behind an assignment; one to an attribute leaves them alone. -/
def Ref.assigned (vars : Origins) (r : Ref) (o : Origin) : Origins :=
  if r.path = [] then Function.update vars r.var o else vars

mutual

/-- The ways through attributes in a statement, and what the variables stand for behind it. -/
def Stmt.accesses : Stmt → Origins → List Origin × Origins
  | .name y r, vars => (r.accesses vars, Function.update vars y (r.origin vars))
  | .assign r e, vars => (e.accesses vars ++ r.accesses vars, r.assigned vars e.origin)
  | .unpackInto rs _, vars => (rs.flatMap (Ref.accesses vars), vars)
  | .takeLength r, vars | .canon r, vars => (r.accesses vars, vars)
  | .write _ args, vars => (args.flatMap (Arg.accesses vars), vars)
  | .ifList r body orelse, vars =>
    let taken := body.accesses vars
    let other := orelse.accesses taken.2
    (r.accesses vars ++ taken.1 ++ other.1, other.2)
  | .ifNone r cls, vars => (r.accesses vars, r.assigned vars (Expr.new cls).origin)
  | .forEach y r body, vars =>
    let inner := accessesAll body (Function.update vars y ((r.origin vars).behind [.element]))
    (r.accesses vars ++ inner.1, inner.2)
  | .forRange _ body, vars => accessesAll body vars
  | .append r _, vars => (r.accesses vars, vars)
  | .pass, vars | .unpackLength, vars | .setPattern _, vars | .rewind, vars | .mark, vars | .advance _, vars =>
    ([], vars)

def accessesAll : List Stmt → Origins → List Origin × Origins
  | [], vars => ([], vars)
  | s :: ss, vars =>
    let front := s.accesses vars
    let rest := accessesAll ss front.2
    (front.1 ++ rest.1, rest.2)

end

/-! ## Ways through fields -/

/-- The fields of the class of a message, by the names that `msg_generator` writes into `__slots__`. -/
def slots (spec : MsgSpec) : Fields := makePythonSafe (specFields spec)

/-- The ways from a value of a type: through the elements of an array, and through the slots of a message. -/
inductive Below (ctx : MsgContext) : Str → List Step → Prop
  | here (type : Str) : Below ctx type []
  | attr {type fieldType name : Str} {spec : MsgSpec} {rest : List Step} (hBracket : '[' ∉ type)
      (hSpec : ctx.getRegistered type = some spec) (hSlot : (fieldType, [name]) ∈ slots spec)
      (hRest : Below ctx fieldType rest) : Below ctx type (.attr name :: rest)
  | element {type base : Str} {arity : Arity} {rest : List Step} (hParse : parseType type = some (base, arity))
      (hArity : arity ≠ .scalar) (hRest : Below ctx base rest) : Below ctx type (.element :: rest)

/-- The ways from an object of the class of a message: through a slot, and on from the value there. -/
def NamesSlots (ctx : MsgContext) (spec : MsgSpec) (steps : List Step) : Prop :=
  ∃ type name rest, (type, [name]) ∈ slots spec ∧ Below ctx type rest ∧ steps = .attr name :: rest

def NamesNew (ctx : MsgContext) (o : Origin) : Prop :=
  ∃ cls spec, o.root = .new cls ∧ ctx.getRegistered cls = some spec ∧ NamesSlots ctx spec o.steps

/-- A way through one of the fields of what `o` leads to, or one from a new object. -/
def Reaches (ctx : MsgContext) (o : Origin) (fields : Fields) (a : Origin) : Prop :=
  (∃ field ∈ fields, ∃ rest, Below ctx field.1 rest ∧ a = o.behind (attrs field.2 ++ rest)) ∨ NamesNew ctx a

section

variable {ctx : MsgContext} {o a : Origin} {fields more : Fields}

theorem Origin.behind_nil (o : Origin) : o.behind [] = o := by
  rw [Origin.behind, List.append_nil]

theorem Origin.behind_behind (o : Origin) (steps rest : List Step) : (o.behind steps).behind rest = o.behind (steps ++ rest) := by
  rw [Origin.behind, Origin.behind, Origin.behind, List.append_assoc]

theorem mem_slots {spec : MsgSpec} {type : Str} {path : Path} :
    (type, path) ∈ slots spec ↔ ∃ name, (type, name) ∈ spec.fields ∧ path = [remapReserved name] := by
  rw [slots, makePythonSafe, specFields, List.map_map, List.mem_map]
  constructor
  · rintro ⟨⟨type', name⟩, hField, hEq⟩
    cases hEq
    exact ⟨name, hField, rfl⟩
  · rintro ⟨name, hField, rfl⟩
    exact ⟨(type, name), hField, rfl⟩

theorem Reaches.mono (h : Reaches ctx o fields a) (hFields : fields ⊆ more) : Reaches ctx o more a := by
  obtain ⟨field, hField, hWay⟩ | hNew := h
  · exact .inl ⟨field, hFields hField, hWay⟩
  · exact .inr hNew

theorem reaches_field {field : Str × Path} (hField : field ∈ fields) : Reaches ctx o fields (o.behind (attrs field.2)) :=
  .inl ⟨field, hField, [], .here field.1, by rw [List.append_nil]⟩

theorem Reaches.message {type : Str} {path : Path} {spec : MsgSpec} (hBracket : '[' ∉ type)
    (hSpec : ctx.getRegistered type = some spec) (h : Reaches ctx (o.behind (attrs path)) (slots spec) a) :
    Reaches ctx o [(type, path)] a := by
  obtain ⟨⟨fieldType, fieldPath⟩, hField, rest, hRest, rfl⟩ | hNew := h
  · obtain ⟨name, -, rfl⟩ := mem_slots.mp hField
    refine .inl ⟨(type, path), List.mem_singleton_self _, .attr (remapReserved name) :: rest, ?_, ?_⟩
    · exact .attr hBracket hSpec hField hRest
    · rw [Origin.behind_behind]
      rfl
  · exact .inr hNew

theorem Reaches.element {type base : Str} {arity : Arity} {path : Path} {spec : MsgSpec}
    (hParse : parseType type = some (base, arity)) (hArity : arity ≠ .scalar) (hBracket : '[' ∉ base)
    (hSpec : ctx.getRegistered base = some spec)
    (h : Reaches ctx (o.behind (attrs path ++ [.element])) (slots spec) a) : Reaches ctx o [(type, path)] a := by
  obtain ⟨⟨fieldType, fieldPath⟩, hField, rest, hRest, rfl⟩ | hNew := h
  · obtain ⟨name, -, rfl⟩ := mem_slots.mp hField
    refine .inl ⟨(type, path), List.mem_singleton_self _, .element :: .attr (remapReserved name) :: rest, ?_, ?_⟩
    · exact .element hParse hArity (.attr hBracket hSpec hField hRest)
    · rw [Origin.behind_behind, List.append_assoc]
      rfl
  · exact .inr hNew

theorem Reaches.new {cls : Str} {spec : MsgSpec} (hSpec : ctx.getRegistered cls = some spec)
    (h : Reaches ctx ⟨.new cls, []⟩ (slots spec) a) : NamesNew ctx a := by
  obtain ⟨⟨type, path⟩, hField, rest, hRest, rfl⟩ | hNew := h
  · obtain ⟨name, -, rfl⟩ := mem_slots.mp hField
    exact ⟨cls, spec, rfl, hSpec, type, remapReserved name, rest, hField, hRest, rfl⟩
  · exact hNew

end

def NamedType (base : Str) : Prop := base ∈ builtinTypes ∨ '/' ∈ base

def ProperFields (fields : Fields) : Prop := ∀ field ∈ fields, field.2 ≠ [] ∧ NamedType (bareMsgType field.1)

def MsgSpec.HasNamedTypes (spec : MsgSpec) : Prop := ∀ type ∈ spec.types, NamedType (bareMsgType type)

def ProperContext (ctx : MsgContext) : Prop := ∀ type spec, ctx.getRegistered type = some spec → MsgSpec.HasNamedTypes spec

theorem properFields_slots {spec : MsgSpec} (h : MsgSpec.HasNamedTypes spec) : ProperFields (slots spec) := by
  rintro ⟨type, path⟩ hField
  obtain ⟨name, hName, rfl⟩ := mem_slots.mp hField
  exact ⟨List.cons_ne_nil _ _, h type (List.of_mem_zip hName).1⟩

/-! ## Statements -/

def Same (depth counter : Nat) (vars vars' : Origins) : Prop := ∀ y, Kept depth counter y → vars' y = vars y

section

variable {depth counter : Nat} {vars vars' vars'' : Origins} {r : Ref}

theorem Same.trans (h : Same depth counter vars vars') (h' : Same depth counter vars' vars'') :
    Same depth counter vars vars'' :=
  fun y hy => (h' y hy).trans (h y hy)

theorem Same.mono {depth' counter' : Nat} (h : Same depth' counter' vars vars') (hDepth : depth ≤ depth')
    (hCounter : counter ≤ counter') : Same depth counter vars vars' :=
  fun y hy => h y (hy.mono hDepth hCounter)

theorem same_update {y : Var} (hy : ¬ Kept depth counter y) (vars : Origins) (o : Origin) :
    Same depth counter vars (Function.update vars y o) :=
  fun _ hz => Function.update_of_ne (hz.ne hy) ..

theorem Ref.accesses_of_ne_nil (h : r.path ≠ []) (vars : Origins) : r.accesses vars = [r.origin vars] := if_neg h

theorem Ref.assigned_of_ne_nil (h : r.path ≠ []) (vars : Origins) (o : Origin) : r.assigned vars o = vars := if_neg h

theorem accessesAll_append (front code : List Stmt) (vars : Origins) :
    accessesAll (front ++ code) vars =
      ((accessesAll front vars).1 ++ (accessesAll code (accessesAll front vars).2).1,
        (accessesAll code (accessesAll front vars).2).2) := by
  induction front generalizing vars with
  | nil => rfl
  | cons stmt front ih =>
    rw [List.cons_append, accessesAll, ih, accessesAll]
    simp only [List.append_assoc]

end

/-- What the code for fields goes through: parts of the fields only, and each of the fields. -/
structure Follows (ctx : MsgContext) (s : Scope) (fields : Fields) (counter : Nat) (code : List Stmt) : Prop where
  within : ∀ vars, ∀ a ∈ (accessesAll code vars).1, Reaches ctx (vars s.context) fields a
  reached : ∀ vars, ∀ field ∈ fields, (vars s.context).behind (attrs field.2) ∈ (accessesAll code vars).1
  same : ∀ vars, Same s.depth counter vars (accessesAll code vars).2

section

variable {ctx : MsgContext} {s : Scope} {fields more : Fields} {counter counter' : Nat} {code rest : List Stmt}

theorem follows_nil : Follows ctx s [] counter [] where
  within := fun _ _ h => absurd h List.not_mem_nil
  reached := fun _ _ h => absurd h List.not_mem_nil
  same := fun _ _ _ => rfl

theorem Follows.append (hContext : Kept s.depth counter s.context) (hCounter : counter ≤ counter')
    (h : Follows ctx s fields counter code) (hRest : Follows ctx s more counter' rest) :
    Follows ctx s (fields ++ more) counter (code ++ rest) where
  within := by
    intro vars a ha
    rw [accessesAll_append] at ha
    obtain ha | ha := List.mem_append.mp ha
    · exact (h.within vars a ha).mono (List.subset_append_left _ _)
    · have hReaches := hRest.within _ a ha
      rw [h.same vars _ hContext] at hReaches
      exact hReaches.mono (List.subset_append_right _ _)
  reached := by
    intro vars field hField
    rw [accessesAll_append]
    obtain hField | hField := List.mem_append.mp hField
    · exact List.mem_append_left _ (h.reached vars field hField)
    · refine List.mem_append_right _ ?_
      have hReached := hRest.reached (accessesAll code vars).2 field hField
      rwa [h.same vars _ hContext] at hReached
  same := by
    intro vars
    rw [accessesAll_append]
    exact (h.same vars).trans ((hRest.same _).mono (Nat.le_refl _) hCounter)

theorem follows_each
    (hWithin : ∀ vars, ∀ a ∈ (accessesAll code vars).1, ∃ field ∈ fields, a = (vars s.context).behind (attrs field.2))
    (hReached : ∀ vars, ∀ field ∈ fields, (vars s.context).behind (attrs field.2) ∈ (accessesAll code vars).1)
    (hSame : ∀ vars, Same s.depth counter vars (accessesAll code vars).2) : Follows ctx s fields counter code where
  within := by
    intro vars a ha
    obtain ⟨field, hField, rfl⟩ := hWithin vars a ha
    exact reaches_field hField
  reached := hReached
  same := hSame

theorem follows_field {type : Str} {path : Path}
    (hWithin : ∀ vars, ∀ a ∈ (accessesAll code vars).1, a = (vars s.context).behind (attrs path))
    (hReached : ∀ vars, (vars s.context).behind (attrs path) ∈ (accessesAll code vars).1)
    (hSame : ∀ vars, Same s.depth counter vars (accessesAll code vars).2) :
    Follows ctx s [(type, path)] counter code := by
  refine follows_each (fun vars a ha => ?_) (fun vars field hField => ?_) hSame
  · exact ⟨(type, path), List.mem_singleton_self _, hWithin vars a ha⟩
  · obtain rfl := List.mem_singleton.mp hField
    exact hReached vars

end

end XcRos.Genpy
