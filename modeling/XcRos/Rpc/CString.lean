import XcRos.Rpc.Socket
import Mathlib.Data.List.TakeWhile

/-! # The C library on byte strings

`isspace` of the C locale, `strtol` to base ten, `atoi`, and decimal printing. `printInt` followed
by a letter that is no digit is read back by `strtol` exactly.
-/

namespace XcRos.Rpc

def isspace (c : UInt8) : Bool := c == 32 || (9 ≤ c && c ≤ 13)

def isdigit (c : UInt8) : Bool := 48 ≤ c && c ≤ 57

/-- Text up to its first zero byte: what remains when it is passed as `const char*`. -/
def cStr (s : Bytes) : Bytes := s.takeWhile (· ≠ 0)

def digitsValue (ds : Bytes) : Nat := ds.foldl (fun value d => 10 * value + (d.toNat - 48)) 0

def longMax : Int := 9223372036854775807

def clampLong (n : Int) : Int := max (-longMax - 1) (min longMax n)

/-- The optional sign of a number: whether it is a minus, and how many letters it takes. -/
def signOf : Bytes → Bool × Nat
  | 45 :: _ => (true, 1)
  | 43 :: _ => (false, 1)
  | _ => (false, 0)

/-- `strtol(s, &end, 10)`: the value, and how far `end` is from `s` (0 if nothing was converted). -/
def strtol (s : Bytes) : Int × Nat :=
  let blanks := s.takeWhile isspace
  let rest := s.drop blanks.length
  let sign := signOf rest
  let ds := (rest.drop sign.2).takeWhile isdigit
  if ds = [] then (0, 0)
  else
    let n : Int := digitsValue ds
    (clampLong (if sign.1 then -n else n), blanks.length + sign.2 + ds.length)

def atoi (s : Bytes) : Int32 := Int32.ofInt (strtol s).1

def charByte (c : Char) : UInt8 := UInt8.ofNat c.toNat

def printNat (n : Nat) : Bytes := (Nat.toDigits 10 n).map charByte

/-- `printf("%d")` -/
def printInt (n : Int) : Bytes :=
  if n < 0 then 45 :: printNat n.natAbs else printNat n.natAbs

theorem isDigit_bounds {c : Char} (h : c.isDigit) : 48 ≤ c.toNat ∧ c.toNat ≤ 57 :=
  Char.isDigit_iff_toNat.mp h

theorem charByte_toNat {c : Char} (h : c.isDigit) : (charByte c).toNat = c.toNat := by
  have hBounds := isDigit_bounds h
  rw [charByte, UInt8.toNat_ofNat']
  omega

theorem printNat_isdigit (n : Nat) : ∀ c ∈ printNat n, isdigit c = true := by
  intro c hc
  obtain ⟨d, hd, rfl⟩ := List.mem_map.mp hc
  have hDigit : d.isDigit := Nat.isDigit_of_mem_toDigits (by decide) (by decide) hd
  have hBounds := isDigit_bounds hDigit
  simp only [isdigit, Bool.and_eq_true, decide_eq_true_eq, UInt8.le_iff_toNat_le, charByte_toNat hDigit]
  exact hBounds

theorem printNat_ne_nil (n : Nat) : printNat n ≠ [] := by
  simp [printNat, Nat.toDigits_ne_nil]

theorem digitsValue_printNat (n : Nat) : digitsValue (printNat n) = n := by
  have hFold : ∀ (cs : List Char) (value : Nat), (∀ c ∈ cs, c.isDigit) →
      (cs.map charByte).foldl (fun value d => 10 * value + (d.toNat - 48)) value =
        Nat.ofDigitChars 10 cs value := by
    intro cs
    induction cs with
    | nil => simp
    | cons c cs ih =>
      intro value hDigits
      have hc : c.isDigit := hDigits c List.mem_cons_self
      rw [List.map_cons, List.foldl_cons, charByte_toNat hc, ih _ (fun d hd => hDigits d (List.mem_cons_of_mem c hd)),
        Nat.ofDigitChars_cons]
      rfl
  rw [digitsValue, printNat, hFold _ 0 (fun c hc => Nat.isDigit_of_mem_toDigits (by decide) (by decide) hc),
    Nat.ofDigitChars_ten_toDigits]

theorem takeWhile_append_stop {p : UInt8 → Bool} {front : Bytes} {c : UInt8} {rest : Bytes}
    (hFront : ∀ d ∈ front, p d = true) (hStop : p c = false) :
    (front ++ c :: rest).takeWhile p = front := by
  rw [List.takeWhile_append_of_pos hFront, List.takeWhile_cons_of_neg (by simp [hStop]), List.append_nil]

theorem signOf_digit {d : UInt8} (h : isdigit d = true) (rest : Bytes) :
    signOf (d :: rest) = (false, 0) := by
  have hMinus : d ≠ 45 := by rintro rfl; exact absurd h (by decide)
  have hPlus : d ≠ 43 := by rintro rfl; exact absurd h (by decide)
  unfold signOf
  split <;> simp_all

theorem isdigit_not_isspace {c : UInt8} (h : isdigit c = true) : isspace c = false := by
  simp only [isdigit, isspace, Bool.and_eq_true, decide_eq_true_eq, Bool.or_eq_false_iff,
    Bool.and_eq_false_iff, beq_eq_false_iff_ne, decide_eq_false_iff_not, UInt8.le_iff_toNat_le, ne_eq,
    ← UInt8.toNat_inj] at h ⊢
  simp only [UInt8.reduceToNat] at h ⊢
  omega

theorem strtol_digits (ds : Bytes) {c : UInt8} (rest : Bytes) (hDigits : ∀ d ∈ ds, isdigit d = true)
    (hNonempty : ds ≠ []) (hStop : isdigit c = false) :
    strtol (ds ++ c :: rest) = (clampLong (digitsValue ds), ds.length) := by
  obtain ⟨d, tail, rfl⟩ := List.exists_cons_of_ne_nil hNonempty
  have hd : isdigit d = true := hDigits d List.mem_cons_self
  have hBlanks : (d :: tail ++ c :: rest).takeWhile isspace = [] := by
    rw [List.cons_append, List.takeWhile_cons_of_neg (by simp [isdigit_not_isspace hd])]
  have hTake : (d :: tail ++ c :: rest).takeWhile isdigit = d :: tail :=
    takeWhile_append_stop hDigits hStop
  have hSign : signOf (d :: tail ++ c :: rest) = (false, 0) := signOf_digit hd _
  simp only [strtol, hBlanks, List.length_nil, List.drop_zero, hSign, hTake, reduceCtorEq, if_false,
    Bool.false_eq_true, Nat.zero_add]

theorem strtol_minus_digits {ds : Bytes} {c : UInt8} (rest : Bytes)
    (hDigits : ∀ d ∈ ds, isdigit d = true) (hNonempty : ds ≠ []) (hStop : isdigit c = false) :
    strtol (45 :: (ds ++ c :: rest)) = (clampLong (-digitsValue ds), 1 + ds.length) := by
  have hBlanks : (45 :: (ds ++ c :: rest)).takeWhile isspace = [] := by
    rw [List.takeWhile_cons_of_neg (by decide)]
  have hTake : (ds ++ c :: rest).takeWhile isdigit = ds := takeWhile_append_stop hDigits hStop
  simp [strtol, hBlanks, signOf, hTake, hNonempty]

theorem strtol_printInt (i : Int32) {c : UInt8} (rest : Bytes) (hStop : isdigit c = false) :
    strtol (printInt i.toInt ++ c :: rest) = (i.toInt, (printInt i.toInt).length) := by
  have hLow : -2147483648 ≤ i.toInt := Int32.le_toInt i
  have hHigh : i.toInt < 2147483648 := Int32.toInt_lt i
  have hClamp : clampLong i.toInt = i.toInt := by
    simp only [clampLong, longMax]
    omega
  have hDigits := printNat_isdigit i.toInt.natAbs
  have hNonempty := printNat_ne_nil i.toInt.natAbs
  rw [printInt]
  split
  · rename_i hNegative
    have hAbs : -((i.toInt.natAbs : Nat) : Int) = i.toInt := by omega
    rw [List.cons_append, strtol_minus_digits rest hDigits hNonempty hStop, digitsValue_printNat, hAbs,
      hClamp, List.length_cons, Nat.add_comm]
  · rename_i hPositive
    have hAbs : ((i.toInt.natAbs : Nat) : Int) = i.toInt := by omega
    rw [strtol_digits _ rest hDigits hNonempty hStop, digitsValue_printNat, hAbs, hClamp]

end XcRos.Rpc
