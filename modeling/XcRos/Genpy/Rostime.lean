import Mathlib.Data.Int.Basic
import Mathlib.Tactic.Ring
import XcRos.Foundation.Outcome

/-! # Times and durations of the generated Python

`TVal`, `Time` and `Duration` with integer arguments. A method that returns `NotImplemented` is `none`
here: an operator then tries the other operand, and raises a `TypeError` if that does not help.
-/

namespace XcRos.Genpy

open XcRos.Foundation

inductive TimeClass where
  | tVal
  | time
  | duration
  deriving DecidableEq, Repr

structure TVal where
  cls : TimeClass
  secs : Int
  nsecs : Int
  deriving DecidableEq, Repr

/-- The two errors there are, both of them a `TypeError`. -/
inductive TimeError where
  | mustBePositive
  | unsupportedOperand
  deriving DecidableEq, Repr

/-- `_canon`; `//` rounds down. -/
def canonOf (secs nsecs : Int) : Int × Int :=
  let secsOver := nsecs.fdiv 1000000000
  (secs + secsOver, nsecs - secsOver * 1000000000)

namespace TVal

def new (cls : TimeClass) (secs nsecs : Int) : Except TimeError TVal :=
  let fields := canonOf secs nsecs
  if cls = .time ∧ fields.1 < 0 then .error .mustBePositive else .ok ⟨cls, fields.1, fields.2⟩

def set (v : TVal) (secs nsecs : Int) : TVal := { v with secs := secs, nsecs := nsecs }

def canon (v : TVal) : TVal := v.set (canonOf v.secs v.nsecs).1 (canonOf v.secs v.nsecs).2

def isZero (v : TVal) : Bool := v.secs == 0 && v.nsecs == 0

def toNsec (v : TVal) : Int := v.secs * 1000000000 + v.nsecs

/-- `__add__`, which is `__radd__` as well. -/
def addMethod (v other : TVal) : Option (Except TimeError TVal) :=
  match v.cls with
  | .time => if other.cls = .duration then some (new .time (v.secs + other.secs) (v.nsecs + other.nsecs)) else none
  | .duration =>
    if other.cls = .duration then some (new .duration (v.secs + other.secs) (v.nsecs + other.nsecs)) else none
  | .tVal => none

def subMethod (v other : TVal) : Option (Except TimeError TVal) :=
  match v.cls with
  | .time =>
    if other.cls = .time then some (new .duration (v.secs - other.secs) (v.nsecs - other.nsecs))
    else if other.cls = .duration then some (new .time (v.secs - other.secs) (v.nsecs - other.nsecs))
    else none
  | .duration =>
    if other.cls = .duration then some (new .duration (v.secs - other.secs) (v.nsecs - other.nsecs)) else none
  | .tVal => none

/-- `+`. The method of the second operand is not tried if both are of one class. -/
def add (v other : TVal) : Except TimeError TVal :=
  match v.addMethod other with
  | some result => result
  | none =>
    match if v.cls = other.cls then none else other.addMethod v with
    | some result => result
    | none => .error .unsupportedOperand

/-- `-`. There is no `__rsub__`. -/
def sub (v other : TVal) : Except TimeError TVal :=
  match v.subMethod other with
  | some result => result
  | none => .error .unsupportedOperand

def neg (v : TVal) : Except TimeError TVal :=
  if v.cls = .duration then new .duration (-v.secs) (-v.nsecs) else .error .unsupportedOperand

def abs (v : TVal) : Except TimeError TVal :=
  if v.cls = .duration then (if 0 ≤ v.secs then .ok v else v.neg) else .error .unsupportedOperand

/-- `*` with an integer on either side. -/
def mul (v : TVal) (val : Int) : Except TimeError TVal :=
  if v.cls = .duration then new .duration (v.secs * val) (v.nsecs * val) else .error .unsupportedOperand

/-- `(a > b) - (a < b)`. -/
def threeWay (a b : Int) : Int := (if b < a then 1 else 0) - if a < b then 1 else 0

/-- `__cmp__`; `none` where it raises, which the comparisons turn into `NotImplemented`. -/
def cmpMethod (v other : TVal) : Option Int :=
  if v.cls = .tVal ∨ v.cls = other.cls then some (threeWay v.toNsec other.toNsec) else none

/-- A comparison. The operand whose class derives from that of the other is asked first. -/
def compare (test swapped : Int → Bool) (v other : TVal) : Except TimeError Bool :=
  let direct := (v.cmpMethod other).map test
  let reflected := (other.cmpMethod v).map swapped
  let found := if v.cls = .tVal ∧ other.cls ≠ .tVal then reflected <|> direct else direct <|> reflected
  match found with
  | some holds => .ok holds
  | none => .error .unsupportedOperand

def lt (v other : TVal) : Except TimeError Bool := compare (fun c => decide (c < 0)) (fun c => decide (0 < c)) v other

def le (v other : TVal) : Except TimeError Bool := compare (fun c => decide (c ≤ 0)) (fun c => decide (0 ≤ c)) v other

def eqMethod (v other : TVal) : Bool :=
  match v.cls with
  | .tVal => v.toNsec == other.toNsec
  | _ => v.cls == other.cls && (v.secs == other.secs && v.nsecs == other.nsecs)

/-- `==`, with the operand of the derived class first. -/
def eq (v other : TVal) : Bool := if v.cls = .tVal ∧ other.cls ≠ .tVal then other.eqMethod v else v.eqMethod other

end TVal

/-! ## What a program can compute -/

/-- How a value is obtained; `restored` stands for fields that are set and then put into canonical form, as the
generated `deserialize` does. -/
inductive TimeExpr where
  | new (cls : TimeClass) (secs nsecs : Int)
  | restored (cls : TimeClass) (secs nsecs : Int)
  | add (first second : TimeExpr)
  | sub (first second : TimeExpr)
  | neg (operand : TimeExpr)
  | abs (operand : TimeExpr)
  | mul (operand : TimeExpr) (val : Int)

namespace TimeExpr

def eval : TimeExpr → Except TimeError TVal
  | new cls secs nsecs => TVal.new cls secs nsecs
  | restored cls secs nsecs => .ok ((⟨cls, 0, 0⟩ : TVal).set secs nsecs).canon
  | add first second => first.eval.bind fun v => second.eval.bind fun other => v.add other
  | sub first second => first.eval.bind fun v => second.eval.bind fun other => v.sub other
  | neg operand => operand.eval.bind TVal.neg
  | abs operand => operand.eval.bind TVal.abs
  | mul operand val => operand.eval.bind fun v => v.mul val

def ns : TimeExpr → Int
  | new _ secs nsecs => secs * 1000000000 + nsecs
  | restored _ secs nsecs => secs * 1000000000 + nsecs
  | add first second => first.ns + second.ns
  | sub first second => first.ns - second.ns
  | neg operand => -operand.ns
  | abs operand => |operand.ns|
  | mul operand val => operand.ns * val

def sumClass : TimeClass → TimeClass → Option TimeClass
  | .time, .duration => some .time
  | .duration, .time => some .time
  | .duration, .duration => some .duration
  | _, _ => none

def differenceClass : TimeClass → TimeClass → Option TimeClass
  | .time, .time => some .duration
  | .time, .duration => some .time
  | .duration, .duration => some .duration
  | _, _ => none

def durationOnly : TimeClass → Option TimeClass
  | .duration => some .duration
  | _ => none

def cls : TimeExpr → Option TimeClass
  | new cls _ _ => some cls
  | restored cls _ _ => some cls
  | add first second => first.cls.bind fun c => second.cls.bind fun c' => sumClass c c'
  | sub first second => first.cls.bind fun c => second.cls.bind fun c' => differenceClass c c'
  | neg operand => operand.cls.bind durationOnly
  | abs operand => operand.cls.bind durationOnly
  | mul operand _ => operand.cls.bind durationOnly

def Positive : TimeExpr → Prop
  | e@(new _ _ _) => e.cls = some .time → 0 ≤ e.ns
  | restored _ _ _ => True
  | e@(add first second) => first.Positive ∧ second.Positive ∧ (e.cls = some .time → 0 ≤ e.ns)
  | e@(sub first second) => first.Positive ∧ second.Positive ∧ (e.cls = some .time → 0 ≤ e.ns)
  | neg operand => operand.Positive
  | abs operand => operand.Positive
  | mul operand _ => operand.Positive

end TimeExpr

/-! ## Canonical values -/

theorem canonOf_spec (secs nsecs : Int) :
    (canonOf secs nsecs).1 * 1000000000 + (canonOf secs nsecs).2 = secs * 1000000000 + nsecs ∧
      0 ≤ (canonOf secs nsecs).2 ∧ (canonOf secs nsecs).2 < 1000000000 := by
  have hFloor := Int.fdiv_eq_ediv_of_nonneg nsecs (b := 1000000000) (by decide)
  simp only [canonOf, hFloor]
  omega

namespace TVal

structure Canonical (v : TVal) : Prop where
  nonneg : 0 ≤ v.nsecs
  lt : v.nsecs < 1000000000

variable {v other : TVal} {cls : TimeClass} {secs nsecs : Int}

theorem Canonical.secs_nonneg_iff (h : v.Canonical) : 0 ≤ v.secs ↔ 0 ≤ v.toNsec := by
  obtain ⟨hNonneg, hLess⟩ := h
  rw [toNsec]
  omega

theorem Canonical.fields_eq_iff (h : v.Canonical) (h' : other.Canonical) :
    v.secs = other.secs ∧ v.nsecs = other.nsecs ↔ v.toNsec = other.toNsec := by
  obtain ⟨hNonneg, hLess⟩ := h
  obtain ⟨hNonneg', hLess'⟩ := h'
  rw [toNsec, toNsec]
  omega

theorem new_cases (cls : TimeClass) (secs nsecs : Int) :
    (∃ v, new cls secs nsecs = .ok v ∧ v.Canonical ∧ v.cls = cls ∧ v.toNsec = secs * 1000000000 + nsecs ∧
      (cls = .time → 0 ≤ secs * 1000000000 + nsecs)) ∨
    new cls secs nsecs = .error .mustBePositive ∧ cls = .time ∧ secs * 1000000000 + nsecs < 0 := by
  obtain ⟨hSum, hNonneg, hLess⟩ := canonOf_spec secs nsecs
  simp only [new]
  split
  · rename_i hNegative
    exact .inr ⟨rfl, hNegative.1, by omega⟩
  · rename_i hNot
    refine .inl ⟨_, rfl, ⟨hNonneg, hLess⟩, rfl, hSum, fun hTime => ?_⟩
    have hSecs : ¬ (canonOf secs nsecs).1 < 0 := fun hNegative => hNot ⟨hTime, hNegative⟩
    omega

theorem of_new (h : new cls secs nsecs = .ok v) :
    v.Canonical ∧ v.cls = cls ∧ v.toNsec = secs * 1000000000 + nsecs := by
  obtain ⟨v', hNew, hCanonical, hCls, hNsec, -⟩ | ⟨hError, -⟩ := new_cases cls secs nsecs
  · cases hNew.symm.trans h
    exact ⟨hCanonical, hCls, hNsec⟩
  · cases hError.symm.trans h

theorem exists_new_iff : (∃ v, new cls secs nsecs = .ok v) ↔ (cls = .time → 0 ≤ secs * 1000000000 + nsecs) := by
  obtain ⟨v, hNew, -, -, -, hPositive⟩ | ⟨hError, hTime, hNegative⟩ := new_cases cls secs nsecs
  · exact iff_of_true ⟨v, hNew⟩ hPositive
  · refine iff_of_false ?_ fun h => absurd (h hTime) (by omega)
    rintro ⟨v, hNew⟩
    cases hError.symm.trans hNew

def newOf (cls : Option TimeClass) (secs nsecs : Int) : Except TimeError TVal :=
  match cls with
  | some cls => new cls secs nsecs
  | none => .error .unsupportedOperand

theorem of_newOf {cls : Option TimeClass} (h : newOf cls secs nsecs = .ok v) :
    v.Canonical ∧ cls = some v.cls ∧ v.toNsec = secs * 1000000000 + nsecs := by
  cases cls with
  | none => cases h
  | some cls =>
    obtain ⟨hCanonical, rfl, hNsec⟩ := of_new h
    exact ⟨hCanonical, rfl, hNsec⟩

theorem exists_newOf_iff {cls : Option TimeClass} :
    (∃ v, newOf cls secs nsecs = .ok v) ↔
      cls.isSome = true ∧ (cls = some .time → 0 ≤ secs * 1000000000 + nsecs) := by
  cases cls with
  | none => exact iff_of_false nofun nofun
  | some cls =>
    rw [newOf, exists_new_iff]
    exact ⟨fun h => ⟨rfl, fun hTime => h (Option.some.inj hTime)⟩, fun h hTime => h.2 (congrArg some hTime)⟩

theorem add_eq (v other : TVal) :
    v.add other = newOf (TimeExpr.sumClass v.cls other.cls) (v.secs + other.secs) (v.nsecs + other.nsecs) := by
  obtain ⟨cls, secs, nsecs⟩ := v
  obtain ⟨cls', secs', nsecs'⟩ := other
  cases cls <;> cases cls' <;> simp [add, addMethod, TimeExpr.sumClass, newOf, Int.add_comm]

theorem sub_eq (v other : TVal) :
    v.sub other = newOf (TimeExpr.differenceClass v.cls other.cls) (v.secs - other.secs) (v.nsecs - other.nsecs) := by
  obtain ⟨cls, secs, nsecs⟩ := v
  obtain ⟨cls', secs', nsecs'⟩ := other
  cases cls <;> cases cls' <;> simp [sub, subMethod, TimeExpr.differenceClass, newOf]

theorem neg_eq (v : TVal) : v.neg = newOf (TimeExpr.durationOnly v.cls) (-v.secs) (-v.nsecs) := by
  obtain ⟨cls, secs, nsecs⟩ := v
  cases cls <;> simp [neg, TimeExpr.durationOnly, newOf]

theorem mul_eq (v : TVal) (val : Int) :
    v.mul val = newOf (TimeExpr.durationOnly v.cls) (v.secs * val) (v.nsecs * val) := by
  obtain ⟨cls, secs, nsecs⟩ := v
  cases cls <;> simp [mul, TimeExpr.durationOnly, newOf]

theorem Canonical.abs (h : v.Canonical) :
    (∀ result, v.abs = .ok result →
      result.Canonical ∧ TimeExpr.durationOnly v.cls = some result.cls ∧ result.toNsec = |v.toNsec|) ∧
    ((∃ result, v.abs = .ok result) ↔ (TimeExpr.durationOnly v.cls).isSome = true) := by
  rw [TVal.abs, neg_eq]
  cases hCls : v.cls with
  | tVal => exact ⟨nofun, iff_of_false nofun nofun⟩
  | time => exact ⟨nofun, iff_of_false nofun nofun⟩
  | duration =>
    simp only [TimeExpr.durationOnly, if_true]
    split
    · rename_i hNonneg
      refine ⟨fun result hSame => ?_, iff_of_true ⟨v, rfl⟩ rfl⟩
      cases hSame
      exact ⟨h, by rw [hCls], (abs_of_nonneg (h.secs_nonneg_iff.mp hNonneg)).symm⟩
    · rename_i hNegative
      have hBelow : ¬ 0 ≤ v.toNsec := fun hNonneg => hNegative (h.secs_nonneg_iff.mpr hNonneg)
      refine ⟨fun result hNew => ?_, iff_of_true (exists_newOf_iff.mpr ⟨rfl, nofun⟩) rfl⟩
      obtain ⟨hCanonical, hSame, hNsec⟩ := of_newOf hNew
      refine ⟨hCanonical, hSame, ?_⟩
      rw [hNsec, abs_of_neg (not_le.mp hBelow), toNsec]
      omega

end TVal

/-! ## Every result is the number that is meant -/

/-- The value is in canonical form, of the class that is meant, and the number that is meant. -/
structure Denotes (v : TVal) (e : TimeExpr) : Prop where
  canonical : v.Canonical
  cls : e.cls = some v.cls
  nsec : v.toNsec = e.ns

namespace TimeExpr

/-- What is said of a computation: when it has a result, and what the result is. -/
structure Exact (e : TimeExpr) : Prop where
  denotes : ∀ v, e.eval = .ok v → Denotes v e
  defined : (∃ v, e.eval = .ok v) ↔ e.cls.isSome = true ∧ e.Positive

theorem exact_new (cls : TimeClass) (secs nsecs : Int) : Exact (new cls secs nsecs) := by
  constructor
  · intro v h
    obtain ⟨hCanonical, rfl, hNsec⟩ := TVal.of_new h
    exact ⟨hCanonical, rfl, hNsec⟩
  · rw [eval, TVal.exists_new_iff, Positive, TimeExpr.cls]
    exact ⟨fun h => ⟨rfl, fun hTime => h (Option.some.inj hTime)⟩, fun h hTime => h.2 (congrArg some hTime)⟩

theorem exact_restored (cls : TimeClass) (secs nsecs : Int) : Exact (restored cls secs nsecs) := by
  obtain ⟨hSum, hNonneg, hLess⟩ := canonOf_spec secs nsecs
  constructor
  · intro v h
    cases h
    exact ⟨⟨hNonneg, hLess⟩, rfl, hSum⟩
  · exact iff_of_true ⟨_, rfl⟩ ⟨rfl, trivial⟩

theorem exact_binary {first second e : TimeExpr} {op : TVal → TVal → Except TimeError TVal}
    {combine : TimeClass → TimeClass → Option TimeClass} (field : Int → Int → Int) (hFirst : first.Exact)
    (hSecond : second.Exact) (hEval : e.eval = first.eval.bind fun v => second.eval.bind fun other => op v other)
    (hOp : ∀ v other, op v other =
      TVal.newOf (combine v.cls other.cls) (field v.secs other.secs) (field v.nsecs other.nsecs))
    (hCls : e.cls = first.cls.bind fun c => second.cls.bind fun c' => combine c c')
    (hPositive : e.Positive ↔ first.Positive ∧ second.Positive ∧ (e.cls = some .time → 0 ≤ e.ns))
    (hField : ∀ a a' b b', field a b * 1000000000 + field a' b' =
      field (a * 1000000000 + a') (b * 1000000000 + b'))
    (hNs : e.ns = field first.ns second.ns) : Exact e := by
  have hValues : ∀ v other, first.eval = .ok v → second.eval = .ok other →
      e.cls = combine v.cls other.cls ∧
        field v.secs other.secs * 1000000000 + field v.nsecs other.nsecs = e.ns := by
    intro v other hv hOther
    obtain ⟨-, hClsV, hNsV⟩ := hFirst.denotes v hv
    obtain ⟨-, hClsO, hNsO⟩ := hSecond.denotes other hOther
    refine ⟨by rw [hCls, hClsV, hClsO]; rfl, ?_⟩
    rw [hField, hNs, ← hNsV, ← hNsO, TVal.toNsec, TVal.toNsec]
  constructor
  · intro result h
    rw [hEval] at h
    obtain ⟨v, hv, hRest⟩ := exists_of_bind h
    obtain ⟨other, hOther, hResult⟩ := exists_of_bind hRest
    obtain ⟨hSame, hSum⟩ := hValues v other hv hOther
    rw [hOp] at hResult
    obtain ⟨hCanonical, hClass, hNsec⟩ := TVal.of_newOf hResult
    exact ⟨hCanonical, hSame.trans hClass, hNsec.trans hSum⟩
  · rw [hEval, exists_bind_iff, hPositive]
    constructor
    · rintro ⟨v, hv, hRest⟩
      obtain ⟨other, hOther, hResult⟩ := exists_bind_iff.mp hRest
      obtain ⟨hSame, hSum⟩ := hValues v other hv hOther
      rw [hOp, TVal.exists_newOf_iff, hSum, ← hSame] at hResult
      exact ⟨hResult.1, (hFirst.defined.mp ⟨v, hv⟩).2, (hSecond.defined.mp ⟨other, hOther⟩).2, hResult.2⟩
    · rintro ⟨hSome, hPositiveFirst, hPositiveSecond, hNonneg⟩
      obtain ⟨cls, hSame⟩ := Option.isSome_iff_exists.mp hSome
      rw [hCls] at hSame
      obtain ⟨c, hc, hSame⟩ := Option.bind_eq_some_iff.mp hSame
      obtain ⟨c', hc', -⟩ := Option.bind_eq_some_iff.mp hSame
      obtain ⟨v, hv⟩ := hFirst.defined.mpr ⟨by rw [hc]; rfl, hPositiveFirst⟩
      obtain ⟨other, hOther⟩ := hSecond.defined.mpr ⟨by rw [hc']; rfl, hPositiveSecond⟩
      obtain ⟨hSame, hSum⟩ := hValues v other hv hOther
      refine ⟨v, hv, exists_bind_iff.mpr ⟨other, hOther, ?_⟩⟩
      rw [hOp, TVal.exists_newOf_iff, hSum, ← hSame]
      exact ⟨hSome, hNonneg⟩

theorem exact_unary {operand e : TimeExpr} {op : TVal → Except TimeError TVal} (scale : Int) (hOperand : operand.Exact)
    (hEval : e.eval = operand.eval.bind op)
    (hOp : ∀ v, op v = TVal.newOf (durationOnly v.cls) (v.secs * scale) (v.nsecs * scale))
    (hCls : e.cls = operand.cls.bind durationOnly) (hPositive : e.Positive ↔ operand.Positive)
    (hNs : e.ns = operand.ns * scale) : Exact e := by
  have hTime : ∀ c : Option TimeClass, c.bind durationOnly ≠ some .time := by
    intro c
    obtain _ | _ | _ | _ := c <;> nofun
  have hValues : ∀ v, operand.eval = .ok v →
      e.cls = durationOnly v.cls ∧ v.secs * scale * 1000000000 + v.nsecs * scale = e.ns := by
    intro v hv
    obtain ⟨-, hClsV, hNsV⟩ := hOperand.denotes v hv
    refine ⟨by rw [hCls, hClsV]; rfl, ?_⟩
    rw [hNs, ← hNsV, TVal.toNsec]
    ring
  constructor
  · intro result h
    rw [hEval] at h
    obtain ⟨v, hv, hResult⟩ := exists_of_bind h
    obtain ⟨hSame, hProduct⟩ := hValues v hv
    rw [hOp] at hResult
    obtain ⟨hCanonical, hClass, hNsec⟩ := TVal.of_newOf hResult
    exact ⟨hCanonical, hSame.trans hClass, hNsec.trans hProduct⟩
  · rw [hEval, exists_bind_iff, hPositive]
    constructor
    · rintro ⟨v, hv, hResult⟩
      obtain ⟨hSame, -⟩ := hValues v hv
      rw [hOp, TVal.exists_newOf_iff, ← hSame] at hResult
      exact ⟨hResult.1, (hOperand.defined.mp ⟨v, hv⟩).2⟩
    · rintro ⟨hSome, hPositiveOperand⟩
      obtain ⟨cls, hSame⟩ := Option.isSome_iff_exists.mp hSome
      rw [hCls] at hSame
      obtain ⟨c, hc, -⟩ := Option.bind_eq_some_iff.mp hSame
      obtain ⟨v, hv⟩ := hOperand.defined.mpr ⟨by rw [hc]; rfl, hPositiveOperand⟩
      obtain ⟨hSame, -⟩ := hValues v hv
      refine ⟨v, hv, ?_⟩
      rw [hOp, TVal.exists_newOf_iff, ← hSame]
      exact ⟨hSome, fun hIsTime => absurd (hCls ▸ hIsTime) (hTime _)⟩

theorem exact_abs {operand : TimeExpr} (hOperand : operand.Exact) : Exact (abs operand) := by
  constructor
  · intro result h
    obtain ⟨v, hv, hResult⟩ := exists_of_bind h
    obtain ⟨hCanonical, hClsV, hNsV⟩ := hOperand.denotes v hv
    obtain ⟨hCanonical, hClass, hNsec⟩ := hCanonical.abs.1 result hResult
    exact ⟨hCanonical, by rw [cls, hClsV]; exact hClass, by rw [hNsec, hNsV, ns]⟩
  · rw [eval, exists_bind_iff, Positive]
    constructor
    · rintro ⟨v, hv, hResult⟩
      obtain ⟨hCanonical, hClsV, -⟩ := hOperand.denotes v hv
      refine ⟨?_, (hOperand.defined.mp ⟨v, hv⟩).2⟩
      rw [cls, hClsV]
      exact hCanonical.abs.2.mp hResult
    · rintro ⟨hSome, hPositive⟩
      obtain ⟨_, hSame⟩ := Option.isSome_iff_exists.mp hSome
      obtain ⟨c, hc, -⟩ := Option.bind_eq_some_iff.mp hSame
      obtain ⟨v, hv⟩ := hOperand.defined.mpr ⟨by rw [hc]; rfl, hPositive⟩
      obtain ⟨hCanonical, hClsV, -⟩ := hOperand.denotes v hv
      rw [cls, hClsV] at hSome
      exact ⟨v, hv, hCanonical.abs.2.mpr hSome⟩

/-- By induction on the computation: an operator keeps what its operands have. -/
theorem exact (e : TimeExpr) : e.Exact := by
  induction e with
  | new cls secs nsecs => exact exact_new cls secs nsecs
  | restored cls secs nsecs => exact exact_restored cls secs nsecs
  | add first second ihFirst ihSecond =>
    exact exact_binary (fun a b => a + b) ihFirst ihSecond rfl TVal.add_eq rfl Iff.rfl
      (fun a a' b b' => by ring) rfl
  | sub first second ihFirst ihSecond =>
    exact exact_binary (fun a b => a - b) ihFirst ihSecond rfl TVal.sub_eq rfl Iff.rfl
      (fun a a' b b' => by ring) rfl
  | neg operand ih =>
    refine exact_unary (-1) ih rfl (fun v => ?_) rfl Iff.rfl (by rw [ns]; ring)
    rw [TVal.neg_eq, Int.mul_neg_one, Int.mul_neg_one]
  | abs operand ih => exact exact_abs ih
  | mul operand val ih =>
    exact exact_unary val ih rfl (fun v => TVal.mul_eq v val) rfl Iff.rfl rfl

end TimeExpr

/-! ## Comparisons -/

namespace TVal

def Comparable (cls cls' : TimeClass) : Prop := cls = cls' ∨ cls = .tVal ∨ cls' = .tVal

instance (cls cls' : TimeClass) : Decidable (Comparable cls cls') := inferInstanceAs (Decidable (_ ∨ _))

theorem threeWay_cases (a b : Int) :
    a < b ∧ threeWay a b = -1 ∨ a = b ∧ threeWay a b = 0 ∨ b < a ∧ threeWay a b = 1 := by
  simp only [threeWay]
  split <;> split <;> omega

theorem threeWay_swap (a b : Int) : threeWay b a = -threeWay a b := by
  obtain ⟨hLess, hab⟩ | ⟨hEq, hab⟩ | ⟨hMore, hab⟩ := threeWay_cases a b <;>
    obtain ⟨hLess', hba⟩ | ⟨hEq', hba⟩ | ⟨hMore', hba⟩ := threeWay_cases b a <;> omega

theorem compare_eq {test swapped : Int → Bool} (hSwapped : ∀ c, swapped (-c) = test c) (v other : TVal) :
    compare test swapped v other =
      if Comparable v.cls other.cls then .ok (test (threeWay v.toNsec other.toNsec)) else .error .unsupportedOperand := by
  have hReflected : swapped (threeWay other.toNsec v.toNsec) = test (threeWay v.toNsec other.toNsec) := by
    rw [threeWay_swap v.toNsec, hSwapped]
  simp only [compare, cmpMethod, Comparable]
  cases v.cls <;> cases other.cls <;> simp [hReflected]

theorem lt_eq (v other : TVal) :
    v.lt other =
      if Comparable v.cls other.cls then .ok (decide (v.toNsec < other.toNsec)) else .error .unsupportedOperand := by
  have hSign : decide (threeWay v.toNsec other.toNsec < 0) = decide (v.toNsec < other.toNsec) := by
    apply decide_eq_decide.mpr
    obtain ⟨hLess, h⟩ | ⟨hEq, h⟩ | ⟨hMore, h⟩ := threeWay_cases v.toNsec other.toNsec <;> omega
  rw [lt, compare_eq (fun c => decide_eq_decide.mpr (by omega)), hSign]

theorem le_eq (v other : TVal) :
    v.le other =
      if Comparable v.cls other.cls then .ok (decide (v.toNsec ≤ other.toNsec)) else .error .unsupportedOperand := by
  have hSign : decide (threeWay v.toNsec other.toNsec ≤ 0) = decide (v.toNsec ≤ other.toNsec) := by
    apply decide_eq_decide.mpr
    obtain ⟨hLess, h⟩ | ⟨hEq, h⟩ | ⟨hMore, h⟩ := threeWay_cases v.toNsec other.toNsec <;> omega
  rw [le, compare_eq (fun c => decide_eq_decide.mpr (by omega)), hSign]

theorem Canonical.eq_iff {v other : TVal} (h : v.Canonical) (h' : other.Canonical) :
    v.eq other = true ↔ v.cls = other.cls ∧ v.toNsec = other.toNsec := by
  have hFields := h.fields_eq_iff h'
  simp only [eq, eqMethod]
  cases v.cls <;> cases other.cls <;> simp [hFields]

theorem Canonical.ext {v other : TVal} (h : v.Canonical) (h' : other.Canonical) (hCls : v.cls = other.cls)
    (hNsec : v.toNsec = other.toNsec) : v = other := by
  obtain ⟨hSecs, hNsecs⟩ := (h.fields_eq_iff h').mpr hNsec
  obtain ⟨cls, secs, nsecs⟩ := v
  obtain ⟨cls', secs', nsecs'⟩ := other
  cases hCls
  cases hSecs
  cases hNsecs
  rfl

end TVal

end XcRos.Genpy
