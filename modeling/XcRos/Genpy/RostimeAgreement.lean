import XcRos.Genpy.Rostime
import XcRos.Rostime.Seconds

/-! # One arithmetic in two languages

The durations that a C++ program computes, computed by the generated Python, and a time that either shifts.
-/

namespace XcRos.Genpy

open XcRos.Rostime

namespace TimeExpr

/-- A `Time` of C++, written down in Python. -/
def ofTime (t : TimeBase) : TimeExpr := new .time t.sec.toNat t.nsec.toNat

def ofComputation : Computation → TimeExpr
  | .ofSecNSec sec nsec => new .duration sec.toInt nsec.toInt
  | .fromNSec t => new .duration 0 t.toInt
  | .add first second => add (ofComputation first) (ofComputation second)
  | .sub first second => sub (ofComputation first) (ofComputation second)
  | .neg operand => neg (ofComputation operand)
  | .addAssign first second => add (ofComputation first) (ofComputation second)
  | .subAssign first second => sub (ofComputation first) (ofComputation second)
  | .timeSub t rhs => sub (ofTime t) (ofTime rhs)

theorem ofTime_ns (t : TimeBase) : (ofTime t).ns = t.ns := rfl

theorem ofTime_positive (t : TimeBase) : (ofTime t).Positive := fun _ => t.ns_bounds.1

theorem ofComputation_spec (c : Computation) :
    (ofComputation c).cls = some .duration ∧ (ofComputation c).Positive ∧ (ofComputation c).ns = c.meaning := by
  have hSum : ∀ {e e' : TimeExpr} {n n' : Int}, (e.cls = some .duration ∧ e.Positive ∧ e.ns = n) →
      (e'.cls = some .duration ∧ e'.Positive ∧ e'.ns = n') →
      (add e e').cls = some .duration ∧ (add e e').Positive ∧ (add e e').ns = n + n' := by
    rintro e e' n n' ⟨hCls, hPositive, rfl⟩ ⟨hCls', hPositive', rfl⟩
    have hClass : (add e e').cls = some .duration := by
      rw [cls, hCls, hCls']
      rfl
    refine ⟨hClass, ⟨hPositive, hPositive', fun hTime => ?_⟩, rfl⟩
    cases hClass.symm.trans hTime
  have hDifference : ∀ {e e' : TimeExpr} {n n' : Int}, (e.cls = some .duration ∧ e.Positive ∧ e.ns = n) →
      (e'.cls = some .duration ∧ e'.Positive ∧ e'.ns = n') →
      (sub e e').cls = some .duration ∧ (sub e e').Positive ∧ (sub e e').ns = n - n' := by
    rintro e e' n n' ⟨hCls, hPositive, rfl⟩ ⟨hCls', hPositive', rfl⟩
    have hClass : (sub e e').cls = some .duration := by
      rw [cls, hCls, hCls']
      rfl
    refine ⟨hClass, ⟨hPositive, hPositive', fun hTime => ?_⟩, rfl⟩
    cases hClass.symm.trans hTime
  have hOther : some TimeClass.duration ≠ some TimeClass.time := by decide
  induction c with
  | ofSecNSec sec nsec => exact ⟨rfl, fun hTime => absurd hTime hOther, rfl⟩
  | fromNSec t => exact ⟨rfl, fun hTime => absurd hTime hOther, by simp [ofComputation, ns, Computation.meaning]⟩
  | add first second ihFirst ihSecond => exact hSum ihFirst ihSecond
  | sub first second ihFirst ihSecond => exact hDifference ihFirst ihSecond
  | neg operand ih =>
    obtain ⟨hCls, hPositive, hNs⟩ := ih
    exact ⟨by rw [ofComputation, cls, hCls]; rfl, hPositive, by rw [ofComputation, ns, hNs, Computation.meaning]⟩
  | addAssign first second ihFirst ihSecond => exact hSum ihFirst ihSecond
  | subAssign first second ihFirst ihSecond => exact hDifference ihFirst ihSecond
  | timeSub t rhs => exact ⟨rfl, ⟨ofTime_positive t, ofTime_positive rhs, fun hTime => absurd hTime hOther⟩, rfl⟩

theorem fields_eq_iff_normal {v : TVal} (hCanonical : v.Canonical) {d : DurationBase} (hNs : v.toNsec = d.ns) :
    v.secs = d.sec.toInt ∧ v.nsecs = d.nsec.toInt ↔ d.Normal := by
  obtain ⟨hNonneg, hLess⟩ := hCanonical
  rw [TVal.toNsec, DurationBase.ns] at hNs
  rw [DurationBase.Normal]
  omega

theorem exists_eval {e : TimeExpr} {c : TimeClass} (hCls : e.cls = some c) (hPositive : e.Positive) :
    ∃ v, e.eval = .ok v ∧ Denotes v e := by
  obtain ⟨v, hv⟩ := e.exact.defined.mpr ⟨by rw [hCls]; rfl, hPositive⟩
  exact ⟨v, hv, e.exact.denotes v hv⟩

/-- A duration that C++ computes without an exception Python computes as well, to the same nanosecond; the fields
are the same exactly if the one of C++ is in normal form. A time shifted by it is the same in both languages,
unless it lies before zero, where both raise, or needs more than 32 bits of seconds, where only C++ does. -/
theorem languages_agree {c : Computation} {d : DurationBase} (hRun : c.run = .ok d) (t : TimeBase) :
    (∃ v, (ofComputation c).eval = .ok v ∧ v.toNsec = d.ns ∧
      (v.secs = d.sec.toInt ∧ v.nsecs = d.nsec.toInt ↔ c.StaysNormal)) ∧
    ((∃ r, t.add d = .ok r) ↔ ∃ v, (add (ofTime t) (ofComputation c)).eval = .ok v ∧ v.secs < 4294967296) ∧
    ∀ r v, t.add d = .ok r → (add (ofTime t) (ofComputation c)).eval = .ok v →
      v.secs = r.sec.toNat ∧ v.nsecs = r.nsec.toNat := by
  obtain ⟨hMeaning, hNormal⟩ := Computation.of_run hRun
  obtain ⟨hCls, hPositive, hNs⟩ := ofComputation_spec c
  have hShift : (add (ofTime t) (ofComputation c)).ns = t.ns + d.ns := by rw [ns, ofTime_ns, hNs, hMeaning]
  have hShiftCls : (add (ofTime t) (ofComputation c)).cls = some .time := by
    rw [cls, hCls]
    rfl
  obtain ⟨hOk, hValue⟩ := TimeBase.of_add t d
  refine ⟨?_, ?_, ?_⟩
  · obtain ⟨v, hv, hCanonical, -, hNsec⟩ := exists_eval hCls hPositive
    have hSame : v.toNsec = d.ns := by rw [hNsec, hNs, hMeaning]
    exact ⟨v, hv, hSame, (fields_eq_iff_normal hCanonical hSame).trans hNormal⟩
  · rw [hOk]
    constructor
    · rintro ⟨hNonneg, hLess⟩
      obtain ⟨v, hv, ⟨hBelow, -⟩, -, hNsec⟩ :=
        exists_eval hShiftCls ⟨ofTime_positive t, hPositive, fun _ => hShift ▸ hNonneg⟩
      rw [TVal.toNsec, hShift] at hNsec
      exact ⟨v, hv, by omega⟩
    · rintro ⟨v, hv, hSecs⟩
      obtain ⟨⟨-, hLess⟩, -, hNsec⟩ := (exact _).denotes v hv
      have hNonneg := ((exact _).defined.mp ⟨v, hv⟩).2.2.2 hShiftCls
      rw [TVal.toNsec, hShift] at hNsec
      rw [hShift] at hNonneg
      omega
  · intro r v hAdd hv
    obtain ⟨hNsR, hLessR⟩ := hValue r hAdd
    obtain ⟨⟨hBelow, hLess⟩, -, hNsec⟩ := (exact _).denotes v hv
    rw [TVal.toNsec, hShift, ← hNsR, TimeBase.ns] at hNsec
    omega

def halfSecondBack : Computation := .sub (.ofSecNSec 0 0) (.ofSecNSec 0 500000000)

/-- Half a second before zero has other fields in C++, but shifts a time to the same one. -/
theorem languages_agree_half_second :
    (∃ v, (ofComputation halfSecondBack).eval = .ok v ∧ v.toNsec = -500000000 ∧
      ¬ (v.secs = 0 ∧ v.nsecs = -500000000)) ∧
    ∃ v, (add (ofTime ⟨1, 0⟩) (ofComputation halfSecondBack)).eval = .ok v ∧ v.secs < 4294967296 := by
  have hRun : halfSecondBack.run = .ok ⟨0, -500000000⟩ := rfl
  obtain ⟨⟨v, hv, hNsec, hFields⟩, hShift, -⟩ := languages_agree hRun ⟨1, 0⟩
  have hMeaning : halfSecondBack.meaning = -500000000 := by decide
  have hNs : (DurationBase.mk 0 (-500000000)).ns = -500000000 := by decide
  refine ⟨⟨v, hv, hNsec.trans hNs, fun hSame => ?_⟩, hShift.mp ((TimeBase.of_add _ _).1.mpr (by decide))⟩
  have hNormal : halfSecondBack.StaysNormal := hFields.mp (by simpa using hSame)
  obtain hNonneg | hDvd := hNormal
  · have hZero : 0 ≤ halfSecondBack.meaning := hNonneg
    omega
  · have hSeconds : 1000000000 ∣ halfSecondBack.meaning := hDvd
    omega

end TimeExpr

end XcRos.Genpy
