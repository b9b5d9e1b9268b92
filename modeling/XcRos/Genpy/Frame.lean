import XcRos.Genpy.Generator

/-! # Frames around emitted code

Code that is emitted for a scope binds `_x`, loop variables of its depth and below, and variables with
numbers that are not used yet. What else the frame holds it leaves alone, except for the message in its context.
-/

namespace XcRos.Genpy

open XcRos.Foundation XcRos.Msg

/-- The variables that are not bound by code of this depth, with this number before it. -/
def Kept (depth counter : Nat) : Var → Prop
  | .self => True
  | .x => False
  | .val n => n < depth
  | .v n => n ≤ counter

theorem Kept.mono {depth depth' counter counter' : Nat} {y : Var} (h : Kept depth counter y) (hDepth : depth ≤ depth')
    (hCounter : counter ≤ counter') : Kept depth' counter' y := by
  cases y with
  | self => exact trivial
  | x => cases h
  | val n => exact Nat.lt_of_lt_of_le h hDepth
  | v n => exact Nat.le_trans h hCounter

theorem Kept.ne {depth counter : Nat} {y z : Var} (h : Kept depth counter y) (hz : ¬ Kept depth counter z) : y ≠ z :=
  fun hEq => hz (hEq ▸ h)

theorem not_kept_val (depth counter : Nat) : ¬ Kept depth counter (.val depth) := Nat.lt_irrefl depth

theorem not_kept_v (depth counter : Nat) : ¬ Kept depth counter (.v (counter + 1)) := Nat.not_succ_le_self counter

def Agrees (depth counter : Nat) (f f' : Frame) : Prop := ∀ y, Kept depth counter y → f'.vars y = f.vars y

section

variable {depth counter : Nat} {f f' f'' : Frame}

theorem Agrees.refl (depth counter : Nat) (f : Frame) : Agrees depth counter f f := fun _ _ => rfl

theorem Agrees.trans (h : Agrees depth counter f f') (h' : Agrees depth counter f' f'') : Agrees depth counter f f'' :=
  fun y hy => (h' y hy).trans (h y hy)

theorem Agrees.mono {depth' counter' : Nat} (h : Agrees depth' counter' f f') (hDepth : depth ≤ depth')
    (hCounter : counter ≤ counter') : Agrees depth counter f f' :=
  fun y hy => h y (hy.mono hDepth hCounter)

theorem Frame.bind_vars (f : Frame) (y : Var) (b : Binding) : (f.bind y b).vars y = some b := Function.update_self ..

theorem Frame.bind_vars_ne (f : Frame) {y z : Var} (h : z ≠ y) (b : Binding) : (f.bind y b).vars z = f.vars z :=
  Function.update_of_ne h ..

theorem Frame.bind_bind (f : Frame) (y : Var) (b c : Binding) : (f.bind y b).bind y c = f.bind y c := by
  simp [Frame.bind]

theorem agrees_bind {y : Var} (hy : ¬ Kept depth counter y) (f : Frame) (b : Binding) :
    Agrees depth counter f (f.bind y b) :=
  fun _ hz => f.bind_vars_ne (hz.ne hy) b

end

/-- A frame in which the context of a scope stands for the object `o`, at a path of the variable `root`. -/
structure Frame.Scoped (f : Frame) (s : Scope) (counter : Nat) (root : Var) (path : Path) (o : PyVal) : Prop where
  place : f.place ⟨s.context, []⟩ = some (root, path)
  keptContext : Kept s.depth counter s.context
  keptRoot : Kept s.depth counter root
  object : (f.valueOf root).bind (PyVal.at? path) = some o

section

variable {f f' : Frame} {s : Scope} {counter : Nat} {root : Var} {path : Path} {o : PyVal}

theorem Frame.valueOf_congr {y : Var} (h : f'.vars y = f.vars y) : f'.valueOf y = f.valueOf y := by
  rw [Frame.valueOf, Frame.valueOf, h]

theorem Frame.place_congr {r : Ref} (h : f'.vars r.var = f.vars r.var) : f'.place r = f.place r := by
  rw [Frame.place, Frame.place, h]

theorem Frame.place_of_nil {y : Var} (h : f.place ⟨y, []⟩ = some (root, path)) (q : Path) :
    f.place ⟨y, q⟩ = some (root, path ++ q) := by
  simp only [Frame.place] at h ⊢
  cases hVar : f.vars y with
  | none =>
    rw [hVar] at h
    cases h
  | some b =>
    rw [hVar] at h
    cases b with
    | value v =>
      cases h
      rfl
    | place y p =>
      cases h
      simp

namespace Frame.Scoped

theorem placeRef (h : f.Scoped s counter root path o) (q : Path) : f.place (s.ref q) = some (root, path ++ q) :=
  place_of_nil h.place q

theorem get (h : f.Scoped s counter root path o) (q : Path) : f.get (s.ref q) = o.at? q := by
  rw [Frame.get, h.placeRef q, Option.bind_some]
  show (f.valueOf root).bind (PyVal.at? (path ++ q)) = o.at? q
  have hObject := h.object
  cases hValue : f.valueOf root with
  | none =>
    rw [hValue] at hObject
    cases hObject
  | some v =>
    rw [hValue, Option.bind_some] at hObject
    rw [Option.bind_some, PyVal.at?_append, hObject, Option.bind_some]

theorem agrees (h : f.Scoped s counter root path o) (hAgrees : Agrees s.depth counter f f') :
    f'.Scoped s counter root path o where
  place := (place_congr (hAgrees _ h.keptContext)).trans h.place
  keptContext := h.keptContext
  keptRoot := h.keptRoot
  object := by rw [valueOf_congr (hAgrees _ h.keptRoot), h.object]

theorem later (h : f.Scoped s counter root path o) {counter' : Nat} (hCounter : counter ≤ counter') :
    f.Scoped s counter' root path o where
  place := h.place
  keptContext := h.keptContext.mono (Nat.le_refl _) hCounter
  keptRoot := h.keptRoot.mono (Nat.le_refl _) hCounter
  object := h.object

theorem named (h : f.Scoped s counter root path o) {y : Var} (hy : ¬ Kept s.depth counter y) {q : Path} {w : PyVal}
    (hw : o.at? q = some w) {depth' counter' : Nat} (hKept : Kept depth' counter' y) (hDepth : s.depth ≤ depth')
    (hCounter : counter ≤ counter') :
    (f.bind y (.place root (path ++ q))).Scoped ⟨y, depth'⟩ counter' root (path ++ q) w where
  place := by
    rw [Frame.place, Frame.bind_vars]
    exact congrArg (fun p => some (root, p)) (List.append_nil _)
  keptContext := hKept
  keptRoot := h.keptRoot.mono hDepth hCounter
  object := by
    have hObject := h.object
    rw [valueOf_congr (f.bind_vars_ne (h.keptRoot.ne hy) _)]
    cases hValue : f.valueOf root with
    | none =>
      rw [hValue] at hObject
      cases hObject
    | some v =>
      rw [hValue, Option.bind_some] at hObject
      rw [Option.bind_some, PyVal.at?_append, hObject, Option.bind_some, hw]

theorem get_named (h : f.Scoped s counter root path o) {y : Var} (hy : ¬ Kept s.depth counter y) {q : Path} {w : PyVal}
    (hw : o.at? q = some w) (q' : Path) : (f.bind y (.place root (path ++ q))).get ⟨y, q'⟩ = w.at? q' := by
  have hPlace : (f.bind y (.place root (path ++ q))).place ⟨y, q'⟩ = some (root, path ++ q ++ q') := by
    rw [Frame.place, Frame.bind_vars]
  have hValue := valueOf_congr (f.bind_vars_ne (h.keptRoot.ne hy) (.place root (path ++ q)))
  rw [Frame.get, hPlace, Option.bind_some]
  show ((f.bind y (.place root (path ++ q))).valueOf root).bind (PyVal.at? (path ++ q ++ q')) = w.at? q'
  have hGet := h.get (q ++ q')
  rw [Frame.get, h.placeRef, Option.bind_some] at hGet
  rw [hValue, List.append_assoc]
  exact hGet.trans (by rw [PyVal.at?_append, hw, Option.bind_some])

theorem exec_name (h : f.Scoped s counter root path o) (env : Env) (y : Var) {q : Path} {w : PyVal}
    (hw : o.at? q = some w) : (Stmt.name y (s.ref q)).exec env f = some (f.bind y (.place root (path ++ q))) := by
  rw [Stmt.exec, h.placeRef, Option.bind_some, h.get, hw]
  rfl

theorem exec_name_none (h : f.Scoped s counter root path o) (env : Env) (y : Var) {q : Path}
    (hq : o.at? q = none) : (Stmt.name y (s.ref q)).exec env f = none := by
  rw [Stmt.exec, h.placeRef, Option.bind_some, h.get, hq]
  rfl

end Frame.Scoped

theorem Frame.scoped_value {y : Var} {v : PyVal} (hVar : f.vars y = some (.value v)) {depth : Nat}
    (hKept : Kept depth counter y) : f.Scoped ⟨y, depth⟩ counter y [] v where
  place := by rw [Frame.place, hVar]
  keptContext := hKept
  keptRoot := hKept
  object := by
    rw [Frame.valueOf, hVar]
    rfl

end

theorem execAll_append (env : Env) (front code : List Stmt) (f : Frame) :
    execAll env (front ++ code) f = (execAll env front f).bind (execAll env code) := by
  induction front generalizing f with
  | nil => rfl
  | cons stmt front ih =>
    rw [List.cons_append, execAll, execAll]
    cases stmt.exec env f with
    | none => rfl
    | some f' => exact ih f'

theorem execAll_singleton (env : Env) (stmt : Stmt) (f : Frame) : execAll env [stmt] f = stmt.exec env f := by
  rw [execAll]
  cases stmt.exec env f <;> rfl

theorem evalArgs_values (f : Frame) (rs : List Ref) : evalArgs f (rs.map .value) = rs.mapM f.get := by
  induction rs with
  | nil => rfl
  | cons r rs ih =>
    rw [List.map_cons, evalArgs, ih, List.mapM_cons, Arg.eval]
    cases f.get r with
    | none => rfl
    | some v => cases rs.mapM f.get <;> rfl

end XcRos.Genpy
