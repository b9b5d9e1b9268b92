import XcRos.Foundation.Outcome
import XcRos.Genpy.Frame

/-! # Exceptions of emitted code

`exec` does not tell one exception from another. `run` does, since `deserialize` catches `struct.error` and lets
the others through.
-/

namespace XcRos.Genpy

open XcRos.Foundation XcRos.Msg

inductive Fault where
  /-- `struct.error` -/
  | struct
  | other
deriving DecidableEq, Repr

def raising {α : Type} (fault : Fault) : Option α → Except Fault α
  | some a => .ok a
  | none => .error fault

def Expr.run (env : Env) (f : Frame) : Expr → Except Fault PyVal
  | .unpacked fmt => (raising .struct (structUnpack (f.format fmt) (f.slice env))).map .tuple
  | e => raising .other (e.eval env f)

mutual

/-- A statement that raises `struct.error` where a call of the module `struct` fails, and else something other. -/
def Stmt.run (env : Env) : Stmt → Frame → Except Fault Frame
  | .pass, f => raising .other (Stmt.pass.exec env f)
  | .name y r, f => raising .other ((Stmt.name y r).exec env f)
  | .assign r e, f => (e.run env f).bind fun v => raising .other (f.assign r v)
  | .unpackInto rs fmt, f =>
    (raising .struct (structUnpack (f.format fmt) (f.slice env))).bind fun vs => raising .other (assignEach rs vs f)
  | .takeLength r, f => raising .other ((Stmt.takeLength r).exec env f)
  | .unpackLength, f =>
    (raising .struct (structUnpack (str "I") (f.slice env))).bind fun
      | [.int n] => .ok { f with length := n.toNat }
      | _ => .error .other
  | .setPattern letter, f => raising .other ((Stmt.setPattern letter).exec env f)
  | .write fmt args, f =>
    (raising .other (evalArgs f args)).bind fun vs =>
      (raising .struct (structPack (f.format fmt) vs)).map fun bs => { f with buff := f.buff ++ bs }
  | .rewind, f => raising .other (Stmt.rewind.exec env f)
  | .mark, f => raising .other (Stmt.mark.exec env f)
  | .advance amount, f => (raising .struct (amount.eval f)).map fun n => { f with stop := f.stop + n }
  | .ifList r body orelse, f =>
    (raising .other (f.get r)).bind fun v => if v.isList then body.run env f else orelse.run env f
  | .ifNone r cls, f => raising .other ((Stmt.ifNone r cls).exec env f)
  | .forEach y r body, f =>
    (raising .other ((f.get r).bind PyVal.elements)).bind fun vs =>
      vs.foldlM (fun f v => runAll env body (f.bind y (.value v))) f
  | .forRange count body, f =>
    (List.replicate (count.getD f.length) ()).foldlM (fun f _ => runAll env body f) f
  | .append r y, f => raising .other ((Stmt.append r y).exec env f)
  | .canon r, f => raising .other ((Stmt.canon r).exec env f)

def runAll (env : Env) : List Stmt → Frame → Except Fault Frame
  | [], f => .ok f
  | s :: ss, f => (s.run env f).bind (runAll env ss)

end

/-! ## The same results -/

theorem toOption_raising {α : Type} (fault : Fault) (o : Option α) : (raising fault o).toOption = o := by
  cases o <;> rfl

theorem Expr.toOption_run (env : Env) (f : Frame) (e : Expr) : (e.run env f).toOption = e.eval env f := by
  cases e with
  | unpacked fmt => rw [Expr.run, toOption_map, toOption_raising, Expr.eval]
  | slice => exact toOption_raising .other (Expr.slice.eval env f)
  | emptyList => exact toOption_raising .other (Expr.emptyList.eval env f)
  | decoded | encoded | bool | mapBool | new => exact toOption_raising .other _

mutual

theorem Stmt.toOption_run (env : Env) : ∀ (stmt : Stmt) (f : Frame), (stmt.run env f).toOption = stmt.exec env f
  | .pass, _ | .name _ _, _ | .takeLength _, _ | .setPattern _, _ | .rewind, _ | .mark, _ | .ifNone _ _, _
  | .append _ _, _ | .canon _, _ => toOption_raising .other _
  | .assign r e, f => by
    rw [Stmt.run, toOption_bind, Expr.toOption_run, Stmt.exec]
    exact congrArg (e.eval env f).bind (funext fun v => toOption_raising .other _)
  | .unpackInto rs fmt, f => by
    rw [Stmt.run, toOption_bind, toOption_raising, Stmt.exec]
    exact congrArg (structUnpack _ _).bind (funext fun vs => toOption_raising .other _)
  | .unpackLength, f => by
    rw [Stmt.run, toOption_bind, toOption_raising, Stmt.exec]
    refine congrArg (structUnpack _ _).bind (funext fun vs => ?_)
    rcases vs with _ | ⟨v, _ | ⟨w, vs⟩⟩
    · rfl
    · cases v <;> rfl
    · cases v <;> rfl
  | .write fmt args, f => by
    rw [Stmt.run, toOption_bind, toOption_raising, Stmt.exec, Option.map_bind]
    refine congrArg (evalArgs f args).bind (funext fun vs => ?_)
    rw [toOption_map, toOption_raising]
    rfl
  | .advance amount, f => by rw [Stmt.run, toOption_map, toOption_raising, Stmt.exec]
  | .ifList r body orelse, f => by
    rw [Stmt.run, toOption_bind, toOption_raising, Stmt.exec]
    refine congrArg (f.get r).bind (funext fun v => ?_)
    split
    · exact body.toOption_run env f
    · exact orelse.toOption_run env f
  | .forEach y r body, f => by
    rw [Stmt.run, toOption_bind, toOption_raising, Stmt.exec]
    refine congrArg (Option.bind _) (funext fun vs => ?_)
    rw [toOption_foldlM]
    exact congrArg (fun g => vs.foldlM g f) (funext fun f => funext fun v => toOption_runAll env body _)
  | .forRange count body, f => by
    rw [Stmt.run, toOption_foldlM, Stmt.exec]
    exact congrArg (fun g => List.foldlM g f _) (funext fun f => funext fun _ => toOption_runAll env body f)

theorem toOption_runAll (env : Env) : ∀ (code : List Stmt) (f : Frame), (runAll env code f).toOption = execAll env code f
  | [], _ => rfl
  | stmt :: code, f => by
    rw [runAll, toOption_bind, Stmt.toOption_run env stmt f, execAll]
    exact congrArg (stmt.exec env f).bind (funext fun f => toOption_runAll env code f)

end

theorem runAll_eq_ok {env : Env} {code : List Stmt} {f f' : Frame} :
    runAll env code f = .ok f' ↔ execAll env code f = some f' := by
  rw [← toOption_runAll, toOption_eq_some]

theorem Stmt.run_eq_ok {env : Env} {stmt : Stmt} {f f' : Frame} : stmt.run env f = .ok f' ↔ stmt.exec env f = some f' := by
  rw [← Stmt.toOption_run, toOption_eq_some]

theorem runAll_append (env : Env) (front code : List Stmt) (f : Frame) :
    runAll env (front ++ code) f = (runAll env front f).bind (runAll env code) := by
  induction front generalizing f with
  | nil => rfl
  | cons stmt front ih =>
    rw [List.cons_append, runAll, runAll]
    cases stmt.run env f with
    | error fault => rfl
    | ok f' => exact ih f'

theorem runAll_singleton (env : Env) (stmt : Stmt) (f : Frame) : runAll env [stmt] f = stmt.run env f := by
  rw [runAll]
  cases stmt.run env f <;> rfl

end XcRos.Genpy
