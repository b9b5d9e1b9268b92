import XcRos.Rostime.Duration

/-! # Durations in seconds

What `DurationBase` makes of a `double`, with every floating-point number taken as exact, and the sum of a `TimeBase`
and a duration. A square root is told by its square.
-/

namespace XcRos.Rostime

/-- To the nearest integer, and of two the even one. -/
def nearbyint (d : ℚ) : Int :=
  if d - d.floor < 1 / 2 then d.floor
  else if 1 / 2 < d - d.floor then d.floor + 1
  else if d.floor % 2 = 0 then d.floor
  else d.floor + 1

/-- `(int64_t)floor(sqrt(v))` -/
def floorSqrt (v : ℚ) : Nat := v.floor.toNat.sqrt

/-- `nearbyint(sqrt(v))` -/
def nearbyintSqrt (v : ℚ) : Int :=
  if v < (floorSqrt v + 1 / 2) ^ 2 then floorSqrt v
  else if (floorSqrt v + 1 / 2) ^ 2 < v then floorSqrt v + 1
  else if floorSqrt v % 2 = 0 then floorSqrt v
  else floorSqrt v + 1

namespace DurationBase

def zero : DurationBase := ⟨0, 0⟩

def toSec (d : DurationBase) : ℚ := d.sec.toInt + d.nsec.toInt / 1000000000

def fromSec (d : ℚ) : Except String DurationBase :=
  if d.floor < -2147483648 ∨ 2147483647 < d.floor then .error outOfRange
  else .ok ⟨.ofInt d.floor, .ofInt (nearbyint ((d - d.floor) * 1000000000))⟩

/-- `fromSec(sqrt(v))` -/
def fromSqrt (v : ℚ) : Except String DurationBase :=
  if 2147483647 < floorSqrt v then .error outOfRange
  else .ok ⟨.ofNat (floorSqrt v), .ofInt (nearbyintSqrt (v * 1000000000 ^ 2) - floorSqrt v * 1000000000)⟩

/-- `operator*=` -/
def mulAssign (d : DurationBase) (scale : ℚ) : Except String DurationBase := fromSec (d.toSec * scale)

end DurationBase

namespace TimeBase

def outOfRange : String := "Time is out of dual 32-bit range"

def zero : TimeBase := ⟨0, 0⟩

/-- `normalizeSecNSec` on `uint64_t` -/
def normalizeSecNSec (sec nsec : UInt64) : Except String (UInt64 × UInt64) :=
  if 4294967295 < sec + nsec / 1000000000 then .error outOfRange
  else .ok (sec + nsec / 1000000000, nsec % 1000000000)

/-- The constructor `TimeBase(_sec, _nsec)`. -/
def ofSecNSec (sec nsec : UInt32) : Except String TimeBase :=
  (normalizeSecNSec sec.toUInt64 nsec.toUInt64).map fun (sec, nsec) => ⟨sec.toUInt32, nsec.toUInt32⟩

def normalizeSecNSecUnsigned (sec nsec : Int64) : Except String (Int64 × Int64) :=
  let nsecPart := nsec % 1000000000
  let secPart := sec + nsec / 1000000000
  let (secPart, nsecPart) :=
    if nsecPart < 0 then (secPart - 1, nsecPart + 1000000000) else (secPart, nsecPart)
  if secPart < 0 ∨ 4294967295 < secPart then .error outOfRange
  else .ok (secPart, nsecPart)

/-- `operator+` -/
def add (t : TimeBase) (rhs : DurationBase) : Except String TimeBase :=
  (normalizeSecNSecUnsigned (t.sec.toUInt64.toInt64 + rhs.sec.toInt64) (t.nsec.toUInt64.toInt64 + rhs.nsec.toInt64)).bind
    fun (sec, nsec) => ofSecNSec sec.toUInt64.toUInt32 nsec.toUInt64.toUInt32

/-- `operator<` -/
def lt (t rhs : TimeBase) : Bool :=
  if t.sec < rhs.sec then true
  else if t.sec = rhs.sec ∧ t.nsec < rhs.nsec then true
  else false

def isZero (t : TimeBase) : Bool := t.sec = 0 ∧ t.nsec = 0

end TimeBase

/-! ## Rounding -/

theorem nearbyint_bounds (d : ℚ) : d.floor ≤ nearbyint d ∧ nearbyint d ≤ d.floor + 1 := by
  rw [nearbyint]
  split_ifs <;> omega

theorem le_floorSqrt_iff {v : ℚ} (hv : 0 ≤ v) (n : Nat) : n ≤ floorSqrt v ↔ (n : ℚ) ^ 2 ≤ v := by
  have hFloor : 0 ≤ v.floor := Rat.le_floor_iff.mpr (by exact_mod_cast hv)
  rw [floorSqrt, Nat.le_sqrt', Int.le_toNat hFloor, Rat.le_floor_iff]
  push_cast
  rfl

/-! ## When a duration is in range -/

/-- What `fromNSec` takes. -/
def Fits (t : Int) : Prop := -2147483649 * 1000000000 < t ∧ t < 2147483648 * 1000000000

instance (t : Int) : Decidable (Fits t) := inferInstanceAs (Decidable (_ ∧ _))

namespace DurationBase

theorem exists_fromNSec_iff {t : Int64} : (∃ d, fromNSec t = .ok d) ↔ Fits t.toInt := by
  obtain ⟨hSum, hLow, hHigh, hPos, hNeg⟩ := truncating_division t
  have hRange := inRange_iff (t / 1000000000)
  rw [fromNSec, Fits]
  split
  · rename_i hOut
    have hOut := mt hRange.mpr (not_not.mpr hOut)
    constructor
    · rintro ⟨d, h⟩
      cases h
    · omega
  · rename_i hIn
    have hIn := hRange.mp hIn
    constructor
    · omega
    · exact fun _ => ⟨_, rfl⟩

theorem exists_addAssign_iff {d rhs : DurationBase} : (∃ r, d.addAssign rhs = .ok r) ↔ Fits (d.ns + rhs.ns) := by
  rw [← toInt_toNSec_add]
  exact exists_fromNSec_iff

theorem ns_of_addAssign {d rhs r : DurationBase} (h : d.addAssign rhs = .ok r) : r.ns = d.ns + rhs.ns := by
  rw [← toInt_toNSec_add]
  exact (of_fromNSec h).1

theorem exists_sub_iff {d rhs : DurationBase} : (∃ r, d.sub rhs = .ok r) ↔ Fits (d.ns - rhs.ns) := by
  rw [← toInt_toNSec_sub]
  exact exists_fromNSec_iff

theorem ns_of_sub {d rhs r : DurationBase} (h : d.sub rhs = .ok r) : r.ns = d.ns - rhs.ns := by
  rw [← toInt_toNSec_sub]
  exact (of_fromNSec h).1

theorem toSec_eq (d : DurationBase) : d.toSec = d.ns / 1000000000 := by
  rw [toSec, ns]
  push_cast
  ring

def nsOfSec (d : ℚ) : Int := d.floor * 1000000000 + nearbyint ((d - d.floor) * 1000000000)

theorem exists_fromSec_iff {d : ℚ} : (∃ r, fromSec d = .ok r) ↔ -2147483648 ≤ d ∧ d < 2147483648 := by
  have hLow : (-2147483648 : Int) ≤ d.floor ↔ -2147483648 ≤ d := by
    rw [Rat.le_floor_iff]
    norm_num
  have hHigh : d.floor < (2147483648 : Int) ↔ d < 2147483648 := by
    rw [Rat.floor_lt_iff]
    norm_num
  rw [← hLow, ← hHigh, fromSec]
  split
  · rename_i hOut
    constructor
    · rintro ⟨r, h⟩
      cases h
    · omega
  · rename_i hIn
    constructor
    · omega
    · exact fun _ => ⟨_, rfl⟩

theorem fraction_bounds (d : ℚ) :
    0 ≤ nearbyint ((d - d.floor) * 1000000000) ∧ nearbyint ((d - d.floor) * 1000000000) ≤ 1000000000 := by
  have hFloor : (d.floor : ℚ) ≤ d := Rat.floor_le d
  have hNext : d - 1 < d.floor := Rat.lt_floor
  have hLow : (0 : Int) ≤ ((d - d.floor) * 1000000000).floor := by
    rw [Rat.le_floor_iff]
    push_cast
    linarith
  have hHigh : ((d - d.floor) * 1000000000).floor < (1000000000 : Int) := by
    rw [Rat.floor_lt_iff]
    push_cast
    linarith
  have hBounds := nearbyint_bounds ((d - d.floor) * 1000000000)
  omega

theorem ns_of_fromSec {d : ℚ} {r : DurationBase} (h : fromSec d = .ok r) : r.ns = nsOfSec d := by
  obtain ⟨hLow, hHigh⟩ := fraction_bounds d
  rw [fromSec] at h
  split at h
  · cases h
  · rename_i hIn
    cases h
    rw [ns, nsOfSec, Int32.toInt_ofInt_of_le (by omega) (by omega), Int32.toInt_ofInt_of_le (by omega) (by omega)]

theorem exists_fromSqrt_iff {v : ℚ} (hv : 0 ≤ v) : (∃ r, fromSqrt v = .ok r) ↔ v < 2147483648 ^ 2 := by
  have hFloor := le_floorSqrt_iff hv 2147483648
  rw [fromSqrt]
  split
  · rename_i hOut
    constructor
    · rintro ⟨r, h⟩
      cases h
    · intro h
      have hSquare := hFloor.mp hOut
      push_cast at hSquare
      exact absurd h (not_lt.mpr hSquare)
  · rename_i hIn
    constructor
    · intro _
      by_contra h
      have hSquare := hFloor.mpr (by push_cast; exact not_lt.mp h)
      omega
    · exact fun _ => ⟨_, rfl⟩

end DurationBase

namespace TimeBase

theorem lt_iff (t rhs : TimeBase) : t.lt rhs = true ↔
    t.sec.toNat < rhs.sec.toNat ∨ t.sec.toNat = rhs.sec.toNat ∧ t.nsec.toNat < rhs.nsec.toNat := by
  rw [← UInt32.lt_iff_toNat_lt, ← UInt32.lt_iff_toNat_lt, UInt32.toNat_inj, lt]
  split
  · rename_i hSec
    simp only [hSec, true_or]
  · rename_i hSec
    simp only [hSec, false_or, Bool.if_false_right, Bool.and_true, decide_eq_true_iff]

theorem exists_sub_iff {t rhs : TimeBase} : (∃ d, t.sub rhs = .ok d) ↔ Fits (t.ns - rhs.ns) := by
  rw [← toInt_toNSec_sub]
  exact DurationBase.exists_fromNSec_iff

theorem ns_of_sub {t rhs : TimeBase} {d : DurationBase} (h : t.sub rhs = .ok d) : d.ns = t.ns - rhs.ns := by
  rw [← toInt_toNSec_sub]
  exact (DurationBase.of_fromNSec h).1

theorem of_normalizeSecNSecUnsigned {sec nsec : Int64} (hSec : -2 ^ 33 ≤ sec.toInt ∧ sec.toInt ≤ 2 ^ 33)
    (hNsec : -2 ^ 33 ≤ nsec.toInt ∧ nsec.toInt ≤ 2 ^ 33) {total : Int}
    (hTotal : sec.toInt * 1000000000 + nsec.toInt = total) :
    ((∃ r, normalizeSecNSecUnsigned sec nsec = .ok r) ↔ 0 ≤ total ∧ total < 4294967296 * 1000000000) ∧
    ∀ s n, normalizeSecNSecUnsigned sec nsec = .ok (s, n) →
      0 ≤ s.toInt ∧ s.toInt < 4294967296 ∧ 0 ≤ n.toInt ∧ n.toInt < 1000000000 ∧
        s.toInt * 1000000000 + n.toInt = total := by
  obtain ⟨hSum, hLow, hHigh, -, -⟩ := truncating_division nsec
  have hCarried : (sec + nsec / 1000000000).toInt = sec.toInt + (nsec / 1000000000).toInt := by
    rw [toInt_add_of_fits] <;> omega
  have hMax : (4294967295 : Int64).toInt = 4294967295 := rfl
  rw [normalizeSecNSecUnsigned]
  by_cases hNeg : nsec % 1000000000 < 0
  · simp only [if_pos hNeg]
    rw [Int64.lt_iff_toInt_lt, Int64.toInt_zero] at hNeg
    have hBorrow : (sec + nsec / 1000000000 - 1).toInt = sec.toInt + (nsec / 1000000000).toInt - 1 := by
      rw [toInt_sub_of_fits] <;> rw [hCarried, Int64.toInt_one] <;> omega
    have hNsecPart : (nsec % 1000000000 + 1000000000).toInt = (nsec % 1000000000).toInt + 1000000000 := by
      rw [toInt_add_of_fits] <;> rw [toInt_billion] <;> omega
    split
    · rename_i hOut
      rw [Int64.lt_iff_toInt_lt, Int64.lt_iff_toInt_lt, Int64.toInt_zero, hMax, hBorrow] at hOut
      exact ⟨⟨(fun ⟨_, h⟩ => by cases h), (fun h => by omega)⟩, fun _ _ h => by cases h⟩
    · rename_i hIn
      rw [Int64.lt_iff_toInt_lt, Int64.lt_iff_toInt_lt, Int64.toInt_zero, hMax, hBorrow] at hIn
      refine ⟨⟨fun _ => by omega, fun _ => ⟨_, rfl⟩⟩, fun s n h => ?_⟩
      cases h
      rw [hBorrow, hNsecPart]
      omega
  · simp only [if_neg hNeg]
    rw [Int64.lt_iff_toInt_lt, Int64.toInt_zero] at hNeg
    split
    · rename_i hOut
      rw [Int64.lt_iff_toInt_lt, Int64.lt_iff_toInt_lt, Int64.toInt_zero, hMax, hCarried] at hOut
      exact ⟨⟨(fun ⟨_, h⟩ => by cases h), (fun h => by omega)⟩, fun _ _ h => by cases h⟩
    · rename_i hIn
      rw [Int64.lt_iff_toInt_lt, Int64.lt_iff_toInt_lt, Int64.toInt_zero, hMax, hCarried] at hIn
      refine ⟨⟨fun _ => by omega, fun _ => ⟨_, rfl⟩⟩, fun s n h => ?_⟩
      cases h
      rw [hCarried]
      omega

theorem toInt_word (n : UInt32) : n.toUInt64.toInt64.toInt = n.toNat := by
  have hBound := n.toNat_lt
  calc n.toUInt64.toInt64.toInt = (n.toUInt64.toNat : Int).bmod (2 ^ 64) :=
        BitVec.toInt_eq_toNat_bmod n.toUInt64.toBitVec
    _ = (n.toNat : Int).bmod (2 ^ 64) := by rw [UInt32.toNat_toUInt64]
    _ = n.toNat := Int.bmod_eq_of_le (by omega) (by omega)

theorem ofSecNSec_of_lt {sec nsec : UInt32} (h : nsec.toNat < 1000000000) : ofSecNSec sec nsec = .ok ⟨sec, nsec⟩ := by
  have hSec := sec.toNat_lt
  have hDiv : nsec.toUInt64 / 1000000000 = 0 := by
    apply UInt64.toNat_inj.mp
    rw [UInt64.toNat_div, UInt32.toNat_toUInt64]
    exact Nat.div_eq_of_lt h
  have hMod : nsec.toUInt64 % 1000000000 = nsec.toUInt64 := by
    apply UInt64.toNat_inj.mp
    rw [UInt64.toNat_mod, UInt32.toNat_toUInt64]
    exact Nat.mod_eq_of_lt h
  have hIn : ¬ (4294967295 : UInt64) < sec.toUInt64 + 0 := by
    rw [UInt64.lt_iff_toNat_lt, UInt64.add_zero, UInt32.toNat_toUInt64]
    change ¬ 4294967295 < sec.toNat
    omega
  rw [ofSecNSec, normalizeSecNSec, hDiv, hMod, if_neg hIn, UInt64.add_zero]
  simp only [Except.map, UInt32.toUInt32_toUInt64]

theorem toNat_of_toInt {w : Int64} {n : Nat} (hw : w.toInt = n) (hn : n < 2 ^ 32) : w.toUInt64.toUInt32.toNat = n := by
  have hWord : w.toUInt64.toNat = n := by
    have hBits : w.toInt = (w.toUInt64.toNat : Int).bmod (2 ^ 64) := BitVec.toInt_eq_toNat_bmod w.toBitVec
    have hLess := w.toUInt64.toNat_lt
    rw [Int.bmod_def] at hBits
    split at hBits <;> omega
  rw [UInt64.toNat_toUInt32, hWord]
  exact Nat.mod_eq_of_lt hn

theorem of_add (t : TimeBase) (rhs : DurationBase) :
    ((∃ r, t.add rhs = .ok r) ↔ 0 ≤ t.ns + rhs.ns ∧ t.ns + rhs.ns < 4294967296 * 1000000000) ∧
    ∀ r, t.add rhs = .ok r → r.ns = t.ns + rhs.ns ∧ r.nsec.toNat < 1000000000 := by
  have hSec := t.sec.toNat_lt
  have hNsec := t.nsec.toNat_lt
  have hSec' := rhs.sec.le_toInt
  have hSec'' := rhs.sec.toInt_lt
  have hNsec' := rhs.nsec.le_toInt
  have hNsec'' := rhs.nsec.toInt_lt
  have hSecSum : (t.sec.toUInt64.toInt64 + rhs.sec.toInt64).toInt = t.sec.toNat + rhs.sec.toInt := by
    rw [toInt_add_of_fits] <;> rw [toInt_word, Int32.toInt_toInt64] <;> omega
  have hNsecSum : (t.nsec.toUInt64.toInt64 + rhs.nsec.toInt64).toInt = t.nsec.toNat + rhs.nsec.toInt := by
    rw [toInt_add_of_fits] <;> rw [toInt_word, Int32.toInt_toInt64] <;> omega
  obtain ⟨hOk, hValue⟩ := @of_normalizeSecNSecUnsigned (t.sec.toUInt64.toInt64 + rhs.sec.toInt64)
    (t.nsec.toUInt64.toInt64 + rhs.nsec.toInt64) (by rw [hSecSum]; omega) (by rw [hNsecSum]; omega)
    (t.ns + rhs.ns) (by rw [hSecSum, hNsecSum, ns, DurationBase.ns]; ring)
  rw [← hOk, add]
  cases hNormal : normalizeSecNSecUnsigned (t.sec.toUInt64.toInt64 + rhs.sec.toInt64)
      (t.nsec.toUInt64.toInt64 + rhs.nsec.toInt64) with
  | error text =>
    refine ⟨⟨?_, ?_⟩, fun _ h => by cases h⟩
    · rintro ⟨_, h⟩
      cases h
    · rintro ⟨_, h⟩
      cases h
  | ok pair =>
    obtain ⟨s, n⟩ := pair
    obtain ⟨hs, hs', hn, hn', hSum⟩ := hValue s n hNormal
    obtain ⟨sNat, hsNat⟩ := Int.eq_ofNat_of_zero_le hs
    obtain ⟨nNat, hnNat⟩ := Int.eq_ofNat_of_zero_le hn
    have hsWord := toNat_of_toInt hsNat (by omega)
    have hnWord := toNat_of_toInt hnNat (by omega)
    have hLess : n.toUInt64.toUInt32.toNat < 1000000000 := by omega
    have hResult := @ofSecNSec_of_lt s.toUInt64.toUInt32 _ hLess
    simp only [Except.bind, hResult]
    refine ⟨⟨fun _ => ⟨_, rfl⟩, fun _ => ⟨_, rfl⟩⟩, fun r h => ?_⟩
    cases h
    refine ⟨?_, hLess⟩
    rw [← hSum, ns, hsWord, hnWord, hsNat, hnNat]

end TimeBase

end XcRos.Rostime
