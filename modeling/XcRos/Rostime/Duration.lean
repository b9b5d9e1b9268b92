import Mathlib
import XcRos.Foundation.Outcome

/-! # Durations

`DurationBase`, which is `Duration` and `WallDuration` alike, and the difference of two `TimeBase`.
The error is the text of the `std::runtime_error`.
-/

namespace XcRos.Rostime

open XcRos.Foundation

/-- The two fields are public: any pair can stand there. -/
structure DurationBase where
  sec : Int32
  nsec : Int32
  deriving DecidableEq

structure TimeBase where
  sec : UInt32
  nsec : UInt32
  deriving DecidableEq

def outOfRange : String := "Duration is out of dual 32-bit range"

/-- The overload on `int64_t`. Division truncates, so the remainder can be negative. -/
def normalizeSecNSecSigned64 (sec nsec : Int64) : Except String (Int64 × Int64) :=
  let nsecPart := nsec % 1000000000
  let secPart := sec + nsec / 1000000000
  let (secPart, nsecPart) :=
    if nsecPart < 0 then (secPart - 1, nsecPart + 1000000000) else (secPart, nsecPart)
  if secPart < Int32.minValue.toInt64 ∨ Int32.maxValue.toInt64 < secPart then .error outOfRange
  else .ok (secPart, nsecPart)

def normalizeSecNSecSigned (sec nsec : Int32) : Except String (Int32 × Int32) := do
  let (sec64, nsec64) ← normalizeSecNSecSigned64 sec.toInt64 nsec.toInt64
  return (sec64.toInt32, nsec64.toInt32)

namespace DurationBase

/-- The constructor `DurationBase(_sec, _nsec)`. -/
def ofSecNSec (sec nsec : Int32) : Except String DurationBase := do
  let (sec, nsec) ← normalizeSecNSecSigned sec nsec
  return ⟨sec, nsec⟩

def toNSec (d : DurationBase) : Int64 := d.sec.toInt64 * 1000000000 + d.nsec.toInt64

def fromNSec (t : Int64) : Except String DurationBase :=
  let sec64 := t / 1000000000
  if sec64 < Int32.minValue.toInt64 ∨ Int32.maxValue.toInt64 < sec64 then .error outOfRange
  else .ok ⟨sec64.toInt32, (t % 1000000000).toInt32⟩

def add (d rhs : DurationBase) : Except String DurationBase := fromNSec (d.toNSec + rhs.toNSec)

def sub (d rhs : DurationBase) : Except String DurationBase := fromNSec (d.toNSec - rhs.toNSec)

def neg (d : DurationBase) : Except String DurationBase := fromNSec (-d.toNSec)

/-- `operator+=`: the value that `*this` gets. -/
def addAssign (d rhs : DurationBase) : Except String DurationBase := d.add rhs

def subAssign (d rhs : DurationBase) : Except String DurationBase := do
  let opposite ← rhs.neg
  d.addAssign opposite

/-- `operator<`. -/
def lt (d rhs : DurationBase) : Bool :=
  if d.sec < rhs.sec then true
  else if d.sec = rhs.sec ∧ d.nsec < rhs.nsec then true
  else false

/-- `operator==`. -/
def eq (d rhs : DurationBase) : Bool := d.sec = rhs.sec ∧ d.nsec = rhs.nsec

end DurationBase

namespace TimeBase

def toNSec (t : TimeBase) : UInt64 := t.sec.toUInt64 * 1000000000 + t.nsec.toUInt64

/-- `operator-`: the unsigned difference wraps around and is passed on as `int64_t`. -/
def sub (t rhs : TimeBase) : Except String DurationBase :=
  DurationBase.fromNSec (t.toNSec - rhs.toNSec).toInt64

end TimeBase

/-! ## Machine words and the integers they stand for -/

theorem toInt_add_of_fits {a b : Int64} (hLow : -2 ^ 63 ≤ a.toInt + b.toInt)
    (hHigh : a.toInt + b.toInt < 2 ^ 63) : (a + b).toInt = a.toInt + b.toInt := by
  rw [Int64.toInt_add]
  exact Int.bmod_eq_of_le hLow hHigh

theorem toInt_sub_of_fits {a b : Int64} (hLow : -2 ^ 63 ≤ a.toInt - b.toInt)
    (hHigh : a.toInt - b.toInt < 2 ^ 63) : (a - b).toInt = a.toInt - b.toInt := by
  rw [Int64.toInt_sub]
  exact Int.bmod_eq_of_le hLow hHigh

theorem toInt_toInt32_of_fits {a : Int64} (hLow : -2 ^ 31 ≤ a.toInt) (hHigh : a.toInt < 2 ^ 31) :
    a.toInt32.toInt = a.toInt := by
  rw [Int64.toInt_toInt32]
  exact Int.bmod_eq_of_le hLow hHigh

theorem toInt_billion : (1000000000 : Int64).toInt = 1000000000 := rfl

theorem truncating_division (t : Int64) :
    (t / 1000000000).toInt * 1000000000 + (t % 1000000000).toInt = t.toInt ∧
      -1000000000 < (t % 1000000000).toInt ∧ (t % 1000000000).toInt < 1000000000 ∧
      (0 ≤ t.toInt → 0 ≤ (t % 1000000000).toInt) ∧ (t.toInt ≤ 0 → (t % 1000000000).toInt ≤ 0) := by
  have hQuotient : (t / 1000000000).toInt = t.toInt.tdiv 1000000000 :=
    Int64.toInt_div_of_ne_right t 1000000000 (by decide)
  have hRemainder : (t % 1000000000).toInt = t.toInt.tmod 1000000000 := Int64.toInt_mod t 1000000000
  have hBelow := Int.tmod_lt_of_pos t.toInt (b := 1000000000) (by decide)
  have hAbove := Int.tmod_lt_of_pos (-t.toInt) (b := 1000000000) (by decide)
  rw [Int.neg_tmod] at hAbove
  rw [hQuotient, hRemainder]
  refine ⟨Int.tdiv_mul_add_tmod _ _, by omega, hBelow, fun h => Int.tmod_nonneg _ h, fun h => ?_⟩
  have hOpposite := Int.tmod_nonneg 1000000000 (Int.neg_nonneg_of_nonpos h)
  rw [Int.neg_tmod] at hOpposite
  omega

theorem inRange_iff (sec : Int64) :
    ¬ (sec < Int32.minValue.toInt64 ∨ Int32.maxValue.toInt64 < sec) ↔
      -2 ^ 31 ≤ sec.toInt ∧ sec.toInt < 2 ^ 31 := by
  rw [Int64.lt_iff_toInt_lt, Int64.lt_iff_toInt_lt, Int32.toInt_toInt64, Int32.toInt_toInt64,
    Int32.toInt_minValue, Int32.toInt_maxValue]
  omega

/-- What the overload on `int64_t` makes of two fields that come from 32 bits. -/
theorem of_normalizeSecNSecSigned64 {sec nsec : Int32} {s n : Int64}
    (h : normalizeSecNSecSigned64 sec.toInt64 nsec.toInt64 = .ok (s, n)) :
    s.toInt * 1000000000 + n.toInt = sec.toInt * 1000000000 + nsec.toInt ∧
      (-2 ^ 31 ≤ s.toInt ∧ s.toInt < 2 ^ 31) ∧ 0 ≤ n.toInt ∧ n.toInt < 1000000000 := by
  obtain ⟨hSum, hLow, hHigh, -, -⟩ := truncating_division nsec.toInt64
  have hSec := sec.le_toInt
  have hSec' := sec.toInt_lt
  have hNsec := nsec.le_toInt
  have hNsec' := nsec.toInt_lt
  rw [Int32.toInt_toInt64] at hSum
  have hCarried : (sec.toInt64 + nsec.toInt64 / 1000000000).toInt =
      sec.toInt + (nsec.toInt64 / 1000000000).toInt := by
    rw [toInt_add_of_fits] <;> rw [Int32.toInt_toInt64] <;> omega
  rw [normalizeSecNSecSigned64] at h
  by_cases hNeg : nsec.toInt64 % 1000000000 < 0
  · simp only [if_pos hNeg] at h
    split at h
    · cases h
    rename_i hRange
    have hFits := (inRange_iff _).mp hRange
    cases h
    rw [Int64.lt_iff_toInt_lt, Int64.toInt_zero] at hNeg
    have hBorrow : (sec.toInt64 + nsec.toInt64 / 1000000000 - 1).toInt =
        sec.toInt + (nsec.toInt64 / 1000000000).toInt - 1 := by
      rw [toInt_sub_of_fits] <;> rw [hCarried, Int64.toInt_one] <;> omega
    have hNsecPart : (nsec.toInt64 % 1000000000 + 1000000000).toInt =
        (nsec.toInt64 % 1000000000).toInt + 1000000000 := by
      rw [toInt_add_of_fits] <;> rw [toInt_billion] <;> omega
    rw [hBorrow] at hFits
    rw [hBorrow, hNsecPart]
    omega
  · simp only [if_neg hNeg] at h
    split at h
    · cases h
    rename_i hRange
    have hFits := (inRange_iff _).mp hRange
    cases h
    rw [Int64.lt_iff_toInt_lt, Int64.toInt_zero] at hNeg
    rw [hCarried] at hFits
    rw [hCarried]
    omega

namespace DurationBase

def ns (d : DurationBase) : Int := d.sec.toInt * 1000000000 + d.nsec.toInt

def Normal (d : DurationBase) : Prop := 0 ≤ d.nsec.toInt ∧ d.nsec.toInt < 1000000000

instance (d : DurationBase) : Decidable d.Normal := inferInstanceAs (Decidable (_ ∧ _))

theorem ns_bounds (d : DurationBase) :
    -2147483648 * 1000000000 - 2147483648 ≤ d.ns ∧ d.ns < 2147483648 * 1000000000 + 2147483648 := by
  have hSec := d.sec.le_toInt
  have hSec' := d.sec.toInt_lt
  have hNsec := d.nsec.le_toInt
  have hNsec' := d.nsec.toInt_lt
  rw [ns]
  omega

theorem toInt_toNSec (d : DurationBase) : d.toNSec.toInt = d.ns := by
  have hSec := d.sec.le_toInt
  have hSec' := d.sec.toInt_lt
  have hNsec := d.nsec.le_toInt
  have hNsec' := d.nsec.toInt_lt
  have hMul : (d.sec.toInt64 * 1000000000).toInt = d.sec.toInt * 1000000000 := by
    rw [Int64.toInt_mul, Int32.toInt_toInt64]
    exact Int.bmod_eq_of_le (n := d.sec.toInt * 1000000000) (by omega) (by omega)
  have hBounds := d.ns_bounds
  rw [ns] at hBounds ⊢
  rw [toNSec, toInt_add_of_fits, hMul, Int32.toInt_toInt64]
  · rw [hMul, Int32.toInt_toInt64]
    omega
  · rw [hMul, Int32.toInt_toInt64]
    omega

theorem toInt_toNSec_add (d rhs : DurationBase) : (d.toNSec + rhs.toNSec).toInt = d.ns + rhs.ns := by
  have hFirst := d.ns_bounds
  have hSecond := rhs.ns_bounds
  rw [toInt_add_of_fits] <;> rw [toInt_toNSec, toInt_toNSec] <;> omega

theorem toInt_toNSec_sub (d rhs : DurationBase) : (d.toNSec - rhs.toNSec).toInt = d.ns - rhs.ns := by
  have hFirst := d.ns_bounds
  have hSecond := rhs.ns_bounds
  rw [toInt_sub_of_fits] <;> rw [toInt_toNSec, toInt_toNSec] <;> omega

theorem toInt_neg_toNSec (d : DurationBase) : (-d.toNSec).toInt = -d.ns := by
  have hBounds := d.ns_bounds
  rw [Int64.toInt_neg, toInt_toNSec]
  exact Int.bmod_eq_of_le (n := -d.ns) (by omega) (by omega)

/-- What `fromNSec` can write: the number as given, the fraction with its sign. -/
theorem of_fromNSec {t : Int64} {d : DurationBase} (h : fromNSec t = .ok d) :
    d.ns = t.toInt ∧ -1000000000 < d.nsec.toInt ∧ d.nsec.toInt < 1000000000 ∧
      (0 ≤ t.toInt → 0 ≤ d.nsec.toInt) ∧ (t.toInt ≤ 0 → d.nsec.toInt ≤ 0) := by
  obtain ⟨hSum, hLow, hHigh, hPos, hNeg⟩ := truncating_division t
  rw [fromNSec] at h
  split at h
  · cases h
  rename_i hRange
  obtain ⟨hSecLow, hSecHigh⟩ := (inRange_iff _).mp hRange
  cases h
  have hSec := toInt_toInt32_of_fits hSecLow hSecHigh
  have hNsec := toInt_toInt32_of_fits (a := t % 1000000000) (by omega) (by omega)
  simp only [ns, hSec, hNsec]
  exact ⟨hSum, hLow, hHigh, hPos, hNeg⟩

theorem normal_iff_of_fromNSec {t : Int64} {d : DurationBase} (h : fromNSec t = .ok d) :
    d.Normal ↔ 0 ≤ t.toInt ∨ 1000000000 ∣ t.toInt := by
  obtain ⟨hNs, hLow, hHigh, hPos, hNeg⟩ := of_fromNSec h
  rw [ns] at hNs
  rw [Normal]
  omega

theorem of_ofSecNSec {sec nsec : Int32} {d : DurationBase} (h : ofSecNSec sec nsec = .ok d) :
    d.Normal ∧ d.ns = sec.toInt * 1000000000 + nsec.toInt := by
  rw [ofSecNSec, normalizeSecNSecSigned] at h
  cases hWide : normalizeSecNSecSigned64 sec.toInt64 nsec.toInt64 with
  | error text =>
    rw [hWide] at h
    cases h
  | ok pair =>
    obtain ⟨s, n⟩ := pair
    rw [hWide] at h
    cases h
    obtain ⟨hSum, ⟨hSecLow, hSecHigh⟩, hNsecLow, hNsecHigh⟩ := of_normalizeSecNSecSigned64 hWide
    have hSec := toInt_toInt32_of_fits hSecLow hSecHigh
    have hNsec := toInt_toInt32_of_fits (a := n) (by omega) (by omega)
    simp only [Normal, ns, hSec, hNsec]
    exact ⟨⟨hNsecLow, hNsecHigh⟩, hSum⟩

/-! ## Comparison of normal pairs -/

theorem lt_iff (d rhs : DurationBase) :
    d.lt rhs = true ↔
      d.sec.toInt < rhs.sec.toInt ∨ d.sec.toInt = rhs.sec.toInt ∧ d.nsec.toInt < rhs.nsec.toInt := by
  rw [← Int32.lt_iff_toInt_lt, ← Int32.lt_iff_toInt_lt, Int32.toInt_inj, lt]
  split
  · rename_i hSec
    simp only [hSec, true_or]
  · rename_i hSec
    simp only [hSec, false_or, Bool.if_false_right, Bool.and_true, decide_eq_true_iff]

theorem eq_iff (d rhs : DurationBase) :
    d.eq rhs = true ↔ d.sec.toInt = rhs.sec.toInt ∧ d.nsec.toInt = rhs.nsec.toInt := by
  rw [Int32.toInt_inj, Int32.toInt_inj, eq, decide_eq_true_iff]

theorem Normal.lt_iff_ns_lt {d rhs : DurationBase} (hd : d.Normal) (hr : rhs.Normal) :
    d.lt rhs = true ↔ d.ns < rhs.ns := by
  obtain ⟨hLow, hHigh⟩ := hd
  obtain ⟨hLow', hHigh'⟩ := hr
  rw [lt_iff, ns, ns]
  omega

theorem Normal.eq_iff_ns_eq {d rhs : DurationBase} (hd : d.Normal) (hr : rhs.Normal) :
    d.eq rhs = true ↔ d.ns = rhs.ns := by
  obtain ⟨hLow, hHigh⟩ := hd
  obtain ⟨hLow', hHigh'⟩ := hr
  rw [eq_iff, ns, ns]
  omega

end DurationBase

namespace TimeBase

def ns (t : TimeBase) : Int := t.sec.toNat * 1000000000 + t.nsec.toNat

theorem toNat_toNSec (t : TimeBase) : (t.toNSec.toNat : Int) = t.ns := by
  have hSec := t.sec.toNat_lt
  have hNsec := t.nsec.toNat_lt
  have hMul : (t.sec.toUInt64 * 1000000000).toNat = t.sec.toNat * 1000000000 := by
    rw [UInt64.toNat_mul, UInt32.toNat_toUInt64]
    exact Nat.mod_eq_of_lt (by simp only [UInt64.reduceToNat]; omega)
  rw [toNSec, UInt64.toNat_add, hMul, UInt32.toNat_toUInt64, Nat.mod_eq_of_lt (by omega), ns]
  omega

theorem ns_bounds (t : TimeBase) : 0 ≤ t.ns ∧ t.ns < 4294967296 * 1000000000 + 4294967296 := by
  have hSec := t.sec.toNat_lt
  have hNsec := t.nsec.toNat_lt
  rw [ns]
  omega

theorem toInt_toNSec (t : TimeBase) : t.toNSec.toInt64.toInt = t.ns := by
  have hBounds := t.ns_bounds
  calc t.toNSec.toInt64.toInt = (t.toNSec.toNat : Int).bmod (2 ^ 64) :=
        BitVec.toInt_eq_toNat_bmod t.toNSec.toBitVec
    _ = t.ns.bmod (2 ^ 64) := by rw [toNat_toNSec]
    _ = t.ns := Int.bmod_eq_of_le (by omega) (by omega)

theorem toInt_toNSec_sub (t rhs : TimeBase) :
    (t.toNSec - rhs.toNSec).toInt64.toInt = t.ns - rhs.ns := by
  have hFirst := t.ns_bounds
  have hSecond := rhs.ns_bounds
  rw [UInt64.toInt64_sub, toInt_sub_of_fits] <;> rw [toInt_toNSec, toInt_toNSec] <;> omega

end TimeBase

/-! ## What a program can compute -/

/-- How a duration is obtained. The assignments stand for the value that their left side gets. -/
inductive Computation where
  | ofSecNSec (sec nsec : Int32)
  | fromNSec (t : Int64)
  | add (first second : Computation)
  | sub (first second : Computation)
  | neg (operand : Computation)
  | addAssign (first second : Computation)
  | subAssign (first second : Computation)
  | timeSub (t rhs : TimeBase)

namespace Computation

def run : Computation → Except String DurationBase
  | ofSecNSec sec nsec => DurationBase.ofSecNSec sec nsec
  | fromNSec t => DurationBase.fromNSec t
  | add first second => do (← first.run).add (← second.run)
  | sub first second => do (← first.run).sub (← second.run)
  | neg operand => do (← operand.run).neg
  | addAssign first second => do (← first.run).addAssign (← second.run)
  | subAssign first second => do (← first.run).subAssign (← second.run)
  | timeSub t rhs => t.sub rhs

def meaning : Computation → Int
  | ofSecNSec sec nsec => sec.toInt * 1000000000 + nsec.toInt
  | fromNSec t => t.toInt
  | add first second => first.meaning + second.meaning
  | sub first second => first.meaning - second.meaning
  | neg operand => -operand.meaning
  | addAssign first second => first.meaning + second.meaning
  | subAssign first second => first.meaning - second.meaning
  | timeSub t rhs => t.ns - rhs.ns

/-- The last step is the constructor, or what is meant is not negative or a whole number of seconds. -/
def StaysNormal : Computation → Prop
  | ofSecNSec _ _ => True
  | c => 0 ≤ c.meaning ∨ 1000000000 ∣ c.meaning

theorem of_run {c : Computation} {d : DurationBase} (h : c.run = .ok d) :
    d.ns = c.meaning ∧ (d.Normal ↔ c.StaysNormal) := by
  have hLast : ∀ {t : Int64} {d : DurationBase} {n : Int}, DurationBase.fromNSec t = .ok d →
      t.toInt = n → d.ns = n ∧ (d.Normal ↔ 0 ≤ n ∨ 1000000000 ∣ n) := by
    rintro t d n hFrom rfl
    exact ⟨(DurationBase.of_fromNSec hFrom).1, DurationBase.normal_iff_of_fromNSec hFrom⟩
  induction c generalizing d with
  | ofSecNSec sec nsec =>
    obtain ⟨hNormal, hNs⟩ := DurationBase.of_ofSecNSec h
    exact ⟨hNs, iff_of_true hNormal trivial⟩
  | fromNSec t => exact hLast h rfl
  | timeSub t rhs => exact hLast h (t.toInt_toNSec_sub rhs)
  | neg operand ih =>
    obtain ⟨a, hOperand, hNeg⟩ := exists_of_bind h
    exact hLast hNeg (by rw [DurationBase.toInt_neg_toNSec, (ih hOperand).1, meaning])
  | add first second ihFirst ihSecond =>
    obtain ⟨a, hFirst, hRest⟩ := exists_of_bind h
    obtain ⟨b, hSecond, hSum⟩ := exists_of_bind hRest
    exact hLast hSum (by
      rw [DurationBase.toInt_toNSec_add, (ihFirst hFirst).1, (ihSecond hSecond).1, meaning])
  | sub first second ihFirst ihSecond =>
    obtain ⟨a, hFirst, hRest⟩ := exists_of_bind h
    obtain ⟨b, hSecond, hDifference⟩ := exists_of_bind hRest
    exact hLast hDifference (by
      rw [DurationBase.toInt_toNSec_sub, (ihFirst hFirst).1, (ihSecond hSecond).1, meaning])
  | addAssign first second ihFirst ihSecond =>
    obtain ⟨a, hFirst, hRest⟩ := exists_of_bind h
    obtain ⟨b, hSecond, hSum⟩ := exists_of_bind hRest
    exact hLast hSum (by
      rw [DurationBase.toInt_toNSec_add, (ihFirst hFirst).1, (ihSecond hSecond).1, meaning])
  | subAssign first second ihFirst ihSecond =>
    obtain ⟨a, hFirst, hRest⟩ := exists_of_bind h
    obtain ⟨b, hSecond, hSubtract⟩ := exists_of_bind hRest
    obtain ⟨opposite, hNeg, hSum⟩ := exists_of_bind hSubtract
    have hOpposite := (hLast hNeg (DurationBase.toInt_neg_toNSec b)).1
    exact hLast hSum (by
      rw [DurationBase.toInt_toNSec_add, hOpposite, (ihFirst hFirst).1, (ihSecond hSecond).1,
        meaning, Int.sub_eq_add_neg])

/-- Any two durations that a program obtains are in normal form and compare as the numbers they
denote exactly when neither comes from `fromNSec` with a fraction below zero. -/
theorem normal_and_ordered_iff {c c' : Computation} {d d' : DurationBase} (h : c.run = .ok d)
    (h' : c'.run = .ok d') :
    (d.Normal ∧ d'.Normal ∧ (d.eq d' = true ↔ d.ns = d'.ns) ∧ (d.lt d' = true ↔ d.ns < d'.ns)) ↔
      c.StaysNormal ∧ c'.StaysNormal := by
  rw [← (of_run h).2, ← (of_run h').2]
  constructor
  · rintro ⟨hd, hd', -, -⟩
    exact ⟨hd, hd'⟩
  · rintro ⟨hd, hd'⟩
    exact ⟨hd, hd', hd.eq_iff_ns_eq hd', hd.lt_iff_ns_lt hd'⟩

/-- Half a second before zero, subtracted and written down: one number, two pairs. -/
theorem half_second_before_zero :
    ∃ d d' : DurationBase,
      (sub (ofSecNSec 0 0) (ofSecNSec 0 500000000)).run = .ok d ∧
        (ofSecNSec 0 (-500000000)).run = .ok d' ∧ ¬ d.Normal ∧ d.ns = d'.ns ∧ d.eq d' = false := by
  refine ⟨⟨0, -500000000⟩, ⟨-1, 500000000⟩, rfl, rfl, by decide, ?_, by decide⟩
  simp [DurationBase.ns]

theorem normal_and_ordered_whole_second :
    (DurationBase.mk 1 0).Normal ∧ (DurationBase.mk (-1) 0).Normal ∧
      ((DurationBase.mk 1 0).eq ⟨-1, 0⟩ = true ↔ (DurationBase.mk 1 0).ns = (DurationBase.mk (-1) 0).ns) ∧
      ((DurationBase.mk 1 0).lt ⟨-1, 0⟩ = true ↔ (DurationBase.mk 1 0).ns < (DurationBase.mk (-1) 0).ns) :=
  (@normal_and_ordered_iff (ofSecNSec 0 1000000000) (neg (ofSecNSec 1 0)) _ _ rfl rfl).mpr
    ⟨trivial, .inr ⟨-1, by simp [meaning]⟩⟩

end Computation

end XcRos.Rostime
