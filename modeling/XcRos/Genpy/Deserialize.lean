import XcRos.Genpy.Assign
import XcRos.Genpy.Fill

/-! # Assignments of a chunk

The code for a chunk of simple fields assigns the numbers that it unpacks to the leaves of the object, one after
another, and then makes the `bool`s.
-/

namespace XcRos.Genpy

open XcRos.Foundation XcRos.Msg

def leavesOf (entries : List Entry) : List (Path × Ty) := entries.map fun e => (e.1.2, e.2)

theorem leavesOf_append (front entries : List Entry) : leavesOf (front ++ entries) = leavesOf front ++ leavesOf entries :=
  List.map_append

section

variable {env : Env} {s : Scope}

def setEach (pairs : List (Path × PyVal)) (o : PyVal) : Option PyVal :=
  pairs.foldlM (fun o pair => PyVal.set pair.1 pair.2 o) o

/-- `r = bool(r)` for each of these. -/
def boolEach (paths : List Path) (o : PyVal) : Option PyVal :=
  paths.foldlM (fun o p => o.modify p fun w => some (.bool w.truth)) o

theorem setEach_cons (pair : Path × PyVal) (pairs : List (Path × PyVal)) (o : PyVal) :
    setEach (pair :: pairs) o = (PyVal.set pair.1 pair.2 o).bind (setEach pairs) := List.foldlM_cons

theorem boolEach_cons (p : Path) (paths : List Path) (o : PyVal) :
    boolEach (p :: paths) o = (o.modify p fun w => some (.bool w.truth)).bind (boolEach paths) := List.foldlM_cons

theorem setEach_modify {pairs : List (Path × PyVal)} {p : Path} (h : ∀ pair ∈ pairs, PyVal.Apart pair.1 p)
    (g : PyVal → Option PyVal) (o : PyVal) :
    (setEach pairs o).bind (PyVal.modify p g) = (o.modify p g).bind (setEach pairs) := by
  induction pairs generalizing o with
  | nil =>
    show o.modify p g = (o.modify p g).bind some
    cases o.modify p g <;> rfl
  | cons pair pairs ih =>
    have hTail := fun o => ih (fun pair' hPair => h pair' (List.mem_cons_of_mem pair hPair)) o
    have hSet : (PyVal.set pair.1 pair.2 o).bind (PyVal.modify p g) = (o.modify p g).bind (PyVal.set pair.1 pair.2) :=
      PyVal.modify_comm (h pair List.mem_cons_self) o
    rw [setEach_cons, Option.bind_assoc]
    simp only [hTail, setEach_cons]
    rw [← Option.bind_assoc, hSet, Option.bind_assoc]

theorem assignEach_put {f : Frame} {y root : Var} {path : Path} {o o' : PyVal} (h : f.Holds y root path o)
    {pairs : List (Path × PyVal)} (hNamed : ∀ pair ∈ pairs, pair.1 ≠ []) (hSet : setEach pairs o = some o') :
    ∃ f', assignEach (pairs.map fun pair => ⟨y, pair.1⟩) (pairs.map Prod.snd) f = some f' ∧ f.put root path o' = some f' := by
  induction pairs generalizing f o with
  | nil =>
    cases hSet
    exact ⟨f, rfl, h.put_same⟩
  | cons pair pairs ih =>
    rw [setEach_cons] at hSet
    obtain ⟨o₁, hFirst, hRest⟩ := Option.bind_eq_some_iff.mp hSet
    obtain ⟨f₁, hPut⟩ := h.exists_put o₁
    have hAssign : f.assign ⟨y, pair.1⟩ pair.2 = some f₁ := by
      rw [h.assign_eq (hNamed pair List.mem_cons_self), hFirst, Option.bind_some, hPut]
    obtain ⟨f', hRun, hPut'⟩ := ih (h.put hPut) (fun pair' hPair => hNamed pair' (List.mem_cons_of_mem pair hPair)) hRest
    refine ⟨f', ?_, by rw [← Frame.put_put hPut, hPut']⟩
    rw [List.map_cons, List.map_cons, assignEach, hAssign, Option.bind_some, hRun]

theorem execBools_put {f : Frame} {root : Var} {path : Path} {o o' : PyVal} (h : f.Holds s.context root path o)
    {paths : List Path} (hNamed : ∀ p ∈ paths, p ≠ []) (hBools : boolEach paths o = some o') :
    ∃ f', execAll env (paths.map fun p => .assign (s.ref p) (.bool (s.ref p))) f = some f' ∧ f.put root path o' = some f' := by
  induction paths generalizing f o with
  | nil =>
    cases hBools
    exact ⟨f, rfl, h.put_same⟩
  | cons p paths ih =>
    rw [boolEach_cons] at hBools
    obtain ⟨o₁, hFirst, hRest⟩ := Option.bind_eq_some_iff.mp hBools
    obtain ⟨f₁, hPut⟩ := h.exists_put o₁
    obtain ⟨w, _, hw, hw', _⟩ := PyVal.at?_modify hFirst
    cases hw'
    have hSet : PyVal.set p (.bool w.truth) o = some o₁ := by
      rw [← hFirst]
      exact PyVal.modify_congr hw rfl
    have hGet : f.get (s.ref p) = some w := (h.get p).trans hw
    have hExec : (Stmt.assign (s.ref p) (.bool (s.ref p))).exec env f = some f₁ := by
      rw [Stmt.exec, Expr.eval, hGet, Option.map_some, Option.bind_some]
      exact (h.assign_eq (hNamed p List.mem_cons_self) _).trans (by rw [hSet, Option.bind_some, hPut])
    obtain ⟨f', hRun, hPut'⟩ := ih (h.put hPut) (fun q hq => hNamed q (List.mem_cons_of_mem p hq)) hRest
    refine ⟨f', ?_, by rw [← Frame.put_put hPut, hPut']⟩
    rw [List.map_cons, execAll, hExec, Option.bind_some, hRun]

theorem number_of_canonical {simple : Simple} {v : PyVal} (h : simple.Canonical v) (hBool : simple ≠ .bool) : v.number = v := by
  have hInt : ∀ signed width, (∃ n, v = .int n ∧ Code.Fits signed width n) → v.number = v := by
    rintro signed width ⟨n, rfl, _⟩
    rfl
  cases simple with
  | bool => exact absurd rfl hBool
  | float32 | float64 =>
    obtain ⟨bits, rfl⟩ := h
    rfl
  | int8 | uint8 | int16 | uint16 | int32 | uint32 | int64 | uint64 | char | byte => exact hInt _ _ h

end

end XcRos.Genpy
