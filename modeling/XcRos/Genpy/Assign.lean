import XcRos.Genpy.Frame

/-! # Assignments in a frame

An assignment through a name changes the object that the name stands for, which is a part of the value of
another variable. `put` is the change of that value.
-/

namespace XcRos.Genpy

open XcRos.Foundation XcRos.Msg

namespace Frame

/-- The variable `y` stands for the object `o`, at a path of the variable `root`. -/
structure Holds (f : Frame) (y root : Var) (path : Path) (o : PyVal) : Prop where
  place : f.place ⟨y, []⟩ = some (root, path)
  object : (f.valueOf root).bind (PyVal.at? path) = some o

/-- The frame in which the object at a path of the variable has become `o`. -/
def put (f : Frame) (root : Var) (path : Path) (o : PyVal) : Option Frame :=
  (f.valueOf root).bind fun v => (PyVal.set path o v).map fun v' => f.bind root (.value v')

/-- The object at a path of the variable has become `o`, and else what is kept has not changed. -/
structure Becomes (f f' : Frame) (depth counter : Nat) (root : Var) (path : Path) (o : PyVal) : Prop where
  object : ∃ v v', f.valueOf root = some v ∧ PyVal.set path o v = some v' ∧ f'.valueOf root = some v'
  kept : ∀ y, Kept depth counter y → y ≠ root → f'.vars y = f.vars y

section

variable {f f' f'' : Frame} {s : Scope} {depth counter : Nat} {y root : Var} {path q : Path} {o o' : PyVal}
  {g : PyVal → Option PyVal}

theorem Scoped.holds (h : f.Scoped s counter root path o) : f.Holds s.context root path o := ⟨h.place, h.object⟩

theorem valueOf_eq_some_iff {v : PyVal} : f.valueOf y = some v ↔ f.vars y = some (.value v) := by
  rw [valueOf]
  cases f.vars y with
  | none => simp
  | some b => cases b <;> simp

theorem bind_valueOf (f : Frame) (y : Var) (v : PyVal) : (f.bind y (.value v)).valueOf y = some v :=
  valueOf_eq_some_iff.mpr (f.bind_vars y _)

theorem Holds.congr (h : f.Holds y root path o) (hVars : f'.vars = f.vars) : f'.Holds y root path o where
  place := (place_congr (congrFun hVars y)).trans h.place
  object := by rw [valueOf_congr (congrFun hVars root), h.object]

theorem Holds.value (h : f.Holds y root path o) : ∃ v, f.valueOf root = some v ∧ v.at? path = some o :=
  Option.bind_eq_some_iff.mp h.object

theorem Holds.get (h : f.Holds y root path o) (q : Path) : f.get ⟨y, q⟩ = o.at? q := by
  obtain ⟨v, hValue, hAt⟩ := h.value
  rw [Frame.get, place_of_nil h.place, Option.bind_some]
  dsimp only
  rw [hValue, Option.bind_some, PyVal.at?_append, hAt, Option.bind_some]

theorem Holds.modify_eq (h : f.Holds y root path o) (q : Path) (g : PyVal → Option PyVal) :
    f.modify ⟨y, q⟩ g = (o.modify q g).bind (f.put root path) := by
  obtain ⟨v, hValue, hAt⟩ := h.value
  rw [Frame.modify, place_of_nil h.place, Option.bind_some]
  dsimp only
  rw [hValue, Option.bind_some, PyVal.modify_append, PyVal.modify_eq_set hAt]
  cases o.modify q g with
  | none => rfl
  | some o' =>
    rw [Option.bind_some, Option.bind_some, put, hValue]
    rfl

theorem Holds.assign_eq (h : f.Holds y root path o) (hq : q ≠ []) (v : PyVal) :
    f.assign ⟨y, q⟩ v = (PyVal.set q v o).bind (f.put root path) := by
  rw [Frame.assign, if_neg hq]
  exact h.modify_eq q _

theorem Holds.exists_put (h : f.Holds y root path o) (o' : PyVal) : ∃ f', f.put root path o' = some f' := by
  obtain ⟨v, hValue, hAt⟩ := h.value
  have hSome : ∃ v', PyVal.set path o' v = some v' := PyVal.modify_isSome hAt rfl
  obtain ⟨v', hv⟩ := hSome
  exact ⟨_, by rw [put, hValue, Option.bind_some, hv]; rfl⟩

theorem put_eq_some (h : f.put root path o = some f') :
    ∃ v v', f.valueOf root = some v ∧ PyVal.set path o v = some v' ∧ f' = f.bind root (.value v') := by
  obtain ⟨v, hValue, hRest⟩ := Option.bind_eq_some_iff.mp h
  obtain ⟨v', hSet, rfl⟩ := Option.map_eq_some_iff.mp hRest
  exact ⟨v, v', hValue, hSet, rfl⟩

theorem put_put (h : f.put root path o = some f') (o' : PyVal) : f'.put root path o' = f.put root path o' := by
  obtain ⟨v, v', hValue, hSet, rfl⟩ := put_eq_some h
  have hTwice : (PyVal.set path o v).bind (PyVal.set path o') = PyVal.set path o' v := PyVal.modify_modify path v
  rw [hSet, Option.bind_some] at hTwice
  rw [put, put, bind_valueOf, hValue, Option.bind_some, Option.bind_some, hTwice]
  simp only [bind_bind]

theorem Holds.put_same (h : f.Holds y root path o) : f.put root path o = some f := by
  obtain ⟨v, hValue, hAt⟩ := h.value
  have hSet : PyVal.set path o v = some v := PyVal.modify_same hAt rfl
  have hBind : f.bind root (.value v) = f := by
    rw [Frame.bind, ← valueOf_eq_some_iff.mp hValue, Function.update_eq_self]
  rw [put, hValue, Option.bind_some, hSet, Option.map_some, hBind]

theorem place_of_changed (h : f.Holds y root path o) {v' : PyVal} (hRoot : f'.valueOf root = some v')
    (hOther : y ≠ root → f'.vars y = f.vars y) : f'.place ⟨y, []⟩ = some (root, path) := by
  rcases eq_or_ne y root with rfl | hNe
  · obtain ⟨v, hValue, _⟩ := h.value
    have hPlace := h.place
    rw [Frame.place, valueOf_eq_some_iff.mp hValue] at hPlace
    rw [Frame.place, valueOf_eq_some_iff.mp hRoot]
    exact hPlace
  · rw [place_congr (hOther hNe), h.place]

theorem at?_set {v v' : PyVal} (h : PyVal.set path o v = some v') : v'.at? path = some o := by
  obtain ⟨_, _, _, hNew, hAt⟩ := PyVal.at?_modify h
  cases hNew
  exact hAt

theorem Holds.put (h : f.Holds y root path o) (hPut : f.put root path o' = some f') : f'.Holds y root path o' := by
  obtain ⟨v, v', hValue, hSet, rfl⟩ := put_eq_some hPut
  refine ⟨place_of_changed h (f.bind_valueOf root v') fun hNe => f.bind_vars_ne hNe _, ?_⟩
  rw [bind_valueOf, Option.bind_some, at?_set hSet]

theorem becomes_of_put (h : f.put root path o = some f') (depth counter : Nat) : f.Becomes f' depth counter root path o := by
  obtain ⟨v, v', hValue, hSet, rfl⟩ := put_eq_some h
  exact ⟨⟨v, v', hValue, hSet, f.bind_valueOf root v'⟩, fun y _ hNe => f.bind_vars_ne hNe _⟩

namespace Becomes

theorem trans (h : f.Becomes f' depth counter root path o) (h' : f'.Becomes f'' depth counter root path o') :
    f.Becomes f'' depth counter root path o' := by
  obtain ⟨v, v', hValue, hSet, hNew⟩ := h.object
  obtain ⟨u, u', hValue', hSet', hNew'⟩ := h'.object
  obtain rfl := Option.some.inj (hNew.symm.trans hValue')
  have hTwice : (PyVal.set path o v).bind (PyVal.set path o') = PyVal.set path o' v := PyVal.modify_modify path v
  rw [hSet, Option.bind_some, hSet'] at hTwice
  exact ⟨⟨v, u', hValue, hTwice.symm, hNew'⟩, fun y hy hNe => (h'.kept y hy hNe).trans (h.kept y hy hNe)⟩

theorem mono {depth' counter' : Nat} (h : f.Becomes f' depth' counter' root path o) (hDepth : depth ≤ depth')
    (hCounter : counter ≤ counter') : f.Becomes f' depth counter root path o :=
  ⟨h.object, fun y hy => h.kept y (hy.mono hDepth hCounter)⟩

theorem of_agrees (h : f'.Becomes f'' depth counter root path o) (hAgrees : Agrees depth counter f f')
    (hRoot : Kept depth counter root) : f.Becomes f'' depth counter root path o := by
  obtain ⟨v, v', hValue, hSet, hNew⟩ := h.object
  refine ⟨⟨v, v', ?_, hSet, hNew⟩, fun y hy hNe => (h.kept y hy hNe).trans (hAgrees y hy)⟩
  rw [← valueOf_congr (hAgrees root hRoot), hValue]

theorem of_vars (h : f'.Becomes f'' depth counter root path o) (hVars : f'.vars = f.vars) :
    f.Becomes f'' depth counter root path o := by
  obtain ⟨v, v', hValue, hSet, hNew⟩ := h.object
  refine ⟨⟨v, v', ?_, hSet, hNew⟩, fun y hy hNe => (h.kept y hy hNe).trans (congrFun hVars y)⟩
  rw [← valueOf_congr (congrFun hVars root), hValue]

theorem part {w : PyVal} (h : f.Becomes f' depth counter root (path ++ q) w) (hHolds : f.Holds y root path o)
    (hSet : PyVal.set q w o = some o') : f.Becomes f' depth counter root path o' := by
  obtain ⟨v, v', hValue, hPart, hNew⟩ := h.object
  obtain ⟨v₀, hValue₀, hAt⟩ := hHolds.value
  obtain rfl := Option.some.inj (hValue.symm.trans hValue₀)
  refine ⟨⟨v, v', hValue, ?_, hNew⟩, h.kept⟩
  have hWhole : PyVal.set (path ++ q) w v = PyVal.set path o' v := by
    show v.modify (path ++ q) _ = _
    rw [PyVal.modify_append]
    exact PyVal.modify_congr hAt hSet
  rw [← hWhole, hPart]

end Becomes

theorem Holds.becomes (h : f.Holds y root path o) (hBecomes : f.Becomes f' depth counter root path o')
    (hy : Kept depth counter y) : f'.Holds y root path o' := by
  obtain ⟨v, v', _, hSet, hNew⟩ := hBecomes.object
  exact ⟨place_of_changed h hNew (hBecomes.kept y hy), by rw [hNew, Option.bind_some, at?_set hSet]⟩

theorem Scoped.becomes (h : f.Scoped s counter root path o) (hBecomes : f.Becomes f' s.depth counter root path o') :
    f'.Scoped s counter root path o' where
  place := (h.holds.becomes hBecomes h.keptContext).place
  keptContext := h.keptContext
  keptRoot := h.keptRoot
  object := (h.holds.becomes hBecomes h.keptContext).object

theorem Holds.becomes_same (h : f.Holds y root path o) (depth counter : Nat) : f.Becomes f depth counter root path o :=
  becomes_of_put h.put_same depth counter

end

end Frame

end XcRos.Genpy
