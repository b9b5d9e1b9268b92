import XcRos.Rostime.Seconds

/-! # Shifting by a duration

A `TimeBase` and a duration are added field by field, and two durations are subtracted as numbers of nanoseconds. What
is subtracted from a time, and what `operator-=` subtracts from a duration, is negated first, and the least duration has
no opposite.
-/

namespace XcRos.Rostime

open XcRos.Foundation

/-- `*this = result`: what stands in `*this` afterwards, and what is thrown when there is no result. -/
def assigned {α : Type} (old : α) : Except String α → α × Except String Unit
  | .ok new => (new, .ok ())
  | .error text => (old, .error text)

/-- What is done with an operand, which throws before anything is done. -/
def afterOperand {α β : Type} (old : α) (operand : Except String β) (f : β → α × Except String Unit) :
    α × Except String Unit :=
  match operand with
  | .ok b => f b
  | .error text => (old, .error text)

theorem afterOperand_assigned {α β : Type} (old : α) (operand : Except String β) (f : β → Except String α) :
    afterOperand old operand (fun b => assigned old (f b)) = assigned old (operand.bind f) := by
  cases operand with
  | error text => rfl
  | ok b => rfl

namespace TimeBase

/-- `operator+=` -/
def addAssign (t : TimeBase) (rhs : DurationBase) : TimeBase × Except String Unit := assigned t (t.add rhs)

/-- `operator-` of a duration. -/
def subDuration (t : TimeBase) (rhs : DurationBase) : Except String TimeBase := rhs.neg.bind t.add

/-- `operator-=` -/
def subAssign (t : TimeBase) (rhs : DurationBase) : TimeBase × Except String Unit :=
  afterOperand t rhs.neg t.addAssign

/-- What a `TimeBase` can denote. -/
def InRange (total : Int) : Prop := 0 ≤ total ∧ total < 4294967296 * 1000000000

instance (total : Int) : Decidable (InRange total) := inferInstanceAs (Decidable (_ ∧ _))

theorem error_of_add {t : TimeBase} {rhs : DurationBase} (h : ¬ InRange (t.ns + rhs.ns)) :
    ∃ text, t.add rhs = .error text := by
  have hNone := mt (of_add t rhs).1.mp h
  cases hAdd : t.add rhs with
  | error text => exact ⟨text, rfl⟩
  | ok r => exact absurd ⟨r, hAdd⟩ hNone

theorem subAssign_eq (t : TimeBase) (rhs : DurationBase) : t.subAssign rhs = assigned t (t.subDuration rhs) := by
  rw [subAssign, subDuration]
  exact afterOperand_assigned t rhs.neg t.add

end TimeBase

namespace DurationBase

/-- What a normal `DurationBase` can denote. -/
def InRange (total : Int) : Prop := -2147483648 * 1000000000 ≤ total ∧ total < 2147483648 * 1000000000

instance (total : Int) : Decidable (InRange total) := inferInstanceAs (Decidable (_ ∧ _))

def least : DurationBase := ⟨-2147483648, 0⟩

theorem fits_of_inRange {total : Int} (h : InRange total) : Fits total := by
  obtain ⟨hLow, hHigh⟩ := h
  exact ⟨by omega, hHigh⟩

theorem ns_least : least.ns = -2147483648 * 1000000000 := rfl

theorem Normal.eq_least_iff {d : DurationBase} (hd : d.Normal) : d = least ↔ d.ns = -2147483648 * 1000000000 := by
  constructor
  · rintro rfl
    exact ns_least
  · intro h
    obtain ⟨hLow, hHigh⟩ := hd
    have hSecLow := d.sec.le_toInt
    rw [ns] at h
    have hSec : d.sec.toInt = least.sec.toInt := by
      have hLeast : least.sec.toInt = -2147483648 := rfl
      omega
    have hNsec : d.nsec.toInt = least.nsec.toInt := by
      have hLeast : least.nsec.toInt = 0 := rfl
      omega
    obtain ⟨sec, nsec⟩ := d
    rw [least, DurationBase.mk.injEq]
    exact ⟨Int32.toInt_inj.mp hSec, Int32.toInt_inj.mp hNsec⟩

theorem Normal.ns_bounds {d : DurationBase} (hd : d.Normal) : InRange d.ns := by
  obtain ⟨hLow, hHigh⟩ := hd
  have hSec := d.sec.le_toInt
  have hSec' := d.sec.toInt_lt
  rw [InRange, ns]
  omega

theorem fromNSec_error {t : Int64} (h : ¬ Fits t.toInt) : fromNSec t = .error outOfRange := by
  have hNone := mt exists_fromNSec_iff.mp h
  rw [fromNSec] at hNone ⊢
  split at hNone
  · rename_i hOut
    rw [if_pos hOut]
  · exact absurd ⟨_, rfl⟩ hNone

theorem neg_least : least.neg = .error outOfRange := by
  refine fromNSec_error ?_
  rw [toInt_neg_toNSec, ns_least]
  decide

theorem Normal.exists_neg {d : DurationBase} (hd : d.Normal) (h : d ≠ least) :
    ∃ opposite, d.neg = .ok opposite ∧ opposite.ns = -d.ns := by
  obtain ⟨hLow, hHigh⟩ := hd.ns_bounds
  have hNe := mt hd.eq_least_iff.mpr h
  have hFits : Fits (-d.toNSec).toInt := by
    rw [toInt_neg_toNSec]
    exact ⟨by omega, by omega⟩
  obtain ⟨opposite, hNeg⟩ := exists_fromNSec_iff.mpr hFits
  exact ⟨opposite, hNeg, (of_fromNSec hNeg).1.trans d.toInt_neg_toNSec⟩

theorem subAssign_eq_sub {a b opposite : DurationBase} (hNeg : b.neg = .ok opposite) (hNs : opposite.ns = -b.ns) :
    a.subAssign b = a.sub b := by
  have hSame : a.toNSec + opposite.toNSec = a.toNSec - b.toNSec := by
    apply Int64.toInt_inj.mp
    rw [toInt_toNSec_add, toInt_toNSec_sub, hNs]
    omega
  have hBind : a.subAssign b = b.neg.bind a.addAssign := rfl
  rw [hBind, hNeg, ok_bind, addAssign, add, sub, hSame]

theorem sub_error_iff {a b : DurationBase} : (∃ text, a.sub b = .error text) ↔ ¬ Fits (a.ns - b.ns) := by
  rw [← toInt_toNSec_sub]
  constructor
  · rintro ⟨text, hError⟩ hFits
    obtain ⟨r, hOk⟩ := exists_fromNSec_iff.mpr hFits
    cases hError.symm.trans hOk
  · exact fun h => ⟨_, fromNSec_error h⟩

end DurationBase

/-! ## Addition -/

/-- A sum is exact when it is in range, and else the time stays as it is; what has been added is what is subtracted. -/
theorem TimeBase.add_exact (t : TimeBase) (d : DurationBase) :
    (InRange (t.ns + d.ns) → ∃ r, t.add d = .ok r ∧ t.addAssign d = (r, .ok ()) ∧ r.ns = t.ns + d.ns ∧
      r.nsec.toNat < 1000000000) ∧
    (¬ InRange (t.ns + d.ns) → ∃ text, t.add d = .error text ∧ t.addAssign d = (t, .error text)) ∧
    ∀ r, t.add d = .ok r → DurationBase.InRange d.ns → ∃ back, r.sub t = .ok back ∧ back.ns = d.ns := by
  obtain ⟨hOk, hValue⟩ := of_add t d
  refine ⟨fun hIn => ?_, fun hOut => ?_, fun r hAdd hIn => ?_⟩
  · obtain ⟨r, hAdd⟩ := hOk.mpr hIn
    obtain ⟨hNs, hNormal⟩ := hValue r hAdd
    exact ⟨r, hAdd, by rw [addAssign, hAdd, assigned], hNs, hNormal⟩
  · obtain ⟨text, hAdd⟩ := error_of_add hOut
    exact ⟨text, hAdd, by rw [addAssign, hAdd, assigned]⟩
  · have hDifference : r.ns - t.ns = d.ns := by
      rw [(hValue r hAdd).1]
      omega
    obtain ⟨back, hSub⟩ := exists_sub_iff.mpr (hDifference ▸ DurationBase.fits_of_inRange hIn)
    exact ⟨back, hSub, (ns_of_sub hSub).trans hDifference⟩

/-! ## Subtraction -/

/-- Both ways to subtract the duration give the difference where a time denotes it. -/
def TimeBase.SubtractsExactly (t : TimeBase) (d : DurationBase) : Prop :=
  InRange (t.ns - d.ns) → ∃ r, t.subDuration d = .ok r ∧ t.subAssign d = (r, .ok ()) ∧ r.ns = t.ns - d.ns ∧
    r.nsec.toNat < 1000000000

/-- Both ways to subtract give the same, which throws just where no normal duration denotes the difference. -/
def DurationBase.SubtractsExactly (a b : DurationBase) : Prop :=
  a.sub b = a.subAssign b ∧ (∀ r, a.sub b = .ok r → r.ns = a.ns - b.ns) ∧
    ((∃ text, a.sub b = .error text) ↔ ¬ InRange (a.ns - b.ns))

theorem TimeBase.subtractsExactly_iff_of_normal (t : TimeBase) {d : DurationBase} (hd : d.Normal) :
    t.SubtractsExactly d ↔ (d = DurationBase.least → 2147483648 * 1000000000 ≤ t.ns) := by
  rw [SubtractsExactly, subAssign_eq]
  by_cases hLeast : d = DurationBase.least
  · subst hLeast
    have hThrows : t.subDuration DurationBase.least = .error Rostime.outOfRange := by
      rw [subDuration, DurationBase.neg_least, error_bind]
    have hBounds := t.ns_bounds
    rw [hThrows, InRange, DurationBase.ns_least]
    constructor
    · intro h _
      by_contra hLess
      obtain ⟨r, hOk, _⟩ := h ⟨by omega, by omega⟩
      cases hOk
    · intro h hIn
      have := h rfl
      omega
  · obtain ⟨opposite, hNeg, hNs⟩ := hd.exists_neg hLeast
    have hSub : t.subDuration d = t.add opposite := by
      rw [subDuration, hNeg, ok_bind]
    refine iff_of_true (fun hIn => ?_) fun h => absurd h hLeast
    have hSum : t.ns + opposite.ns = t.ns - d.ns := by omega
    obtain ⟨r, hAdd⟩ := (of_add t opposite).1.mpr (hSum.symm ▸ hIn)
    obtain ⟨hValue, hNormal⟩ := (of_add t opposite).2 r hAdd
    rw [hSub, hAdd]
    exact ⟨r, rfl, by rw [assigned], hValue.trans hSum, hNormal⟩

theorem DurationBase.subtractsExactly_iff_of_normal {a b : DurationBase} (ha : a.Normal) (hb : b.Normal) :
    a.SubtractsExactly b ↔
      (b = least → 0 ≤ a.ns) ∧
        ¬ (-2147483649 * 1000000000 < a.ns - b.ns ∧ a.ns - b.ns < -2147483648 * 1000000000) := by
  have hValue : ∀ r, a.sub b = .ok r → r.ns = a.ns - b.ns := fun r hSub => ns_of_sub hSub
  have hRange : (¬ Fits (a.ns - b.ns) ↔ ¬ InRange (a.ns - b.ns)) ↔
      ¬ (-2147483649 * 1000000000 < a.ns - b.ns ∧ a.ns - b.ns < -2147483648 * 1000000000) := by
    rw [Fits, InRange]
    omega
  rw [SubtractsExactly, and_iff_right hValue, sub_error_iff, hRange]
  refine and_congr_left fun _ => ?_
  by_cases hLeast : b = least
  · subst hLeast
    obtain ⟨hLow, hHigh⟩ := ha.ns_bounds
    have hThrows : a.subAssign least = .error outOfRange := by
      have hBind : a.subAssign least = least.neg.bind a.addAssign := rfl
      rw [hBind, neg_least, error_bind]
    rw [hThrows]
    constructor
    · intro hSame _
      by_contra hNeg
      have hOut := sub_error_iff.mp ⟨_, hSame⟩
      rw [ns_least, Fits] at hOut
      omega
    · intro h
      have hPos := h rfl
      refine fromNSec_error ?_
      rw [toInt_toNSec_sub, ns_least, Fits]
      omega
  · obtain ⟨opposite, hNeg, hNs⟩ := hb.exists_neg hLeast
    exact iff_of_true (subAssign_eq_sub hNeg hNs).symm fun h => absurd h hLeast

/-- The least duration cannot be negated, and a difference below it is not always noticed. -/
theorem subtractsExactly_iff (t : TimeBase) {d a b : DurationBase} (hd : d.Normal) (ha : a.Normal) (hb : b.Normal) :
    (t.SubtractsExactly d ↔ (d = DurationBase.least → 2147483648 * 1000000000 ≤ t.ns)) ∧
    (a.SubtractsExactly b ↔
      (b = DurationBase.least → 0 ≤ a.ns) ∧
        ¬ (-2147483649 * 1000000000 < a.ns - b.ns ∧ a.ns - b.ns < -2147483648 * 1000000000)) :=
  ⟨t.subtractsExactly_iff_of_normal hd, DurationBase.subtractsExactly_iff_of_normal ha hb⟩

theorem subtractsExactly_second :
    (TimeBase.mk 2 0).SubtractsExactly ⟨1, 0⟩ ∧ (DurationBase.mk 2 0).SubtractsExactly ⟨1, 0⟩ := by
  have h := @subtractsExactly_iff ⟨2, 0⟩ ⟨1, 0⟩ ⟨2, 0⟩ ⟨1, 0⟩ (by decide) (by decide) (by decide)
  refine ⟨h.1.mpr fun hLeast => absurd hLeast (by decide), h.2.mpr ⟨fun hLeast => absurd hLeast (by decide), ?_⟩⟩
  decide

/-- A second and the least duration; and the least duration and a nanosecond. -/
theorem subtract_least :
    (TimeBase.mk 1 0).subDuration ⟨-2147483648, 0⟩ = .error Rostime.outOfRange ∧
      TimeBase.InRange ((TimeBase.mk 1 0).ns - (DurationBase.mk (-2147483648) 0).ns) ∧
      (DurationBase.mk (-1) 0).sub ⟨-2147483648, 0⟩ = .ok ⟨2147483647, 0⟩ ∧
      (DurationBase.mk (-1) 0).subAssign ⟨-2147483648, 0⟩ = .error Rostime.outOfRange ∧
      (DurationBase.mk (-2147483648) 0).sub ⟨0, 1⟩ = .ok ⟨-2147483648, -1⟩ ∧
      ¬ DurationBase.InRange ((DurationBase.mk (-2147483648) 0).ns - (DurationBase.mk 0 1).ns) := by
  refine ⟨rfl, by decide, rfl, rfl, rfl, by decide⟩

end XcRos.Rostime
