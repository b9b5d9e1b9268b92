import XcRos.Msg.Loader

/-! # Integer constants

The limits of a constant are powers of two less one, taken as doubles: for 64 bits the one gets lost.
What is accepted becomes an enumerator of the generated C++ struct.
-/

namespace XcRos.Msg

/-- The integers of `MSG_TYPE_TO_CPP`: whether the C++ type is unsigned, and its bits. -/
def cppIntegers : List (Str × Bool × Nat) :=
  [(str "byte", false, 8), (str "char", true, 8), (str "uint8", true, 8), (str "int8", false, 8),
    (str "uint16", true, 16), (str "int16", false, 16), (str "uint32", true, 32), (str "int32", false, 32),
    (str "uint64", true, 64), (str "int64", false, 64)]

def Represents (unsigned : Bool) (bits : Nat) (n : Int) : Prop :=
  if unsigned then 0 ≤ n ∧ n < 2 ^ bits else -2 ^ (bits - 1) ≤ n ∧ n < 2 ^ (bits - 1)

instance (unsigned : Bool) (bits : Nat) (n : Int) : Decidable (Represents unsigned bits n) := by
  unfold Represents
  infer_instance

/-! ## Enumerators -/

/-- What stands behind the equals sign of an enumerator: a sign, a decimal literal, and its suffix `u`. -/
structure Enumerator where
  minus : Bool
  literal : Nat
  suffixed : Bool
deriving DecidableEq, Repr

def suffixedTypes : List Str := [str "uint8", str "uint16", str "uint32", str "uint64"]

/-- `@(int(constant.val))`, with the suffix in the branch of the suffixed types. -/
def enumerator (type : Str) (n : Int) : Enumerator := ⟨decide (n < 0), n.natAbs, suffixedTypes.contains type⟩

/-- The value in C++; nothing is a literal that no type holds. A suffixed literal wraps around when negated. -/
def Enumerator.value (e : Enumerator) : Option Int :=
  if e.suffixed then
    if e.literal < 2 ^ 64 then
      let width := if e.literal < 2 ^ 32 then 32 else 64
      some (if e.minus then (-e.literal) % 2 ^ width else e.literal)
    else none
  else if e.literal < 2 ^ 63 then some (if e.minus then -e.literal else e.literal)
  else none

/-- How the types are told apart: by their suffix, their sign, and `int64` for its bits. -/
inductive Row (type : Str) (unsigned : Bool) (bits : Nat) : Prop where
  | suffixed (hSuffix : suffixedTypes.contains type = true) (hUnsigned : unsigned = true) (hSome : 0 < bits)
      (hBits : bits ≤ 32 ∧ type ≠ str "uint64" ∨ bits = 64 ∧ type = str "uint64") (hOther : type ≠ str "int64")
  | char (hType : type = str "char") (hUnsigned : unsigned = true) (hBits : bits = 8)
  | signed (hSuffix : suffixedTypes.contains type = false) (hSigned : unsigned = false) (hSome : 0 < bits)
      (hBits : bits ≤ 32 ∧ type ≠ str "int64" ∨ bits = 64 ∧ type = str "int64") (hOther : type ≠ str "uint64")

section

variable {type : Str} {unsigned : Bool} {bits : Nat} {n : Int}

theorem row_of_mem (hRow : (type, unsigned, bits) ∈ cppIntegers) : Row type unsigned bits := by
  simp only [cppIntegers, List.mem_cons, Prod.mk.injEq, List.not_mem_nil, or_false] at hRow
  obtain ⟨rfl, rfl, rfl⟩ | ⟨rfl, rfl, rfl⟩ | ⟨rfl, rfl, rfl⟩ | ⟨rfl, rfl, rfl⟩ | ⟨rfl, rfl, rfl⟩ | ⟨rfl, rfl, rfl⟩ |
    ⟨rfl, rfl, rfl⟩ | ⟨rfl, rfl, rfl⟩ | ⟨rfl, rfl, rfl⟩ | ⟨rfl, rfl, rfl⟩ := hRow
  · exact .signed (by decide) rfl (by decide) (by decide) (by decide)
  · exact .char rfl rfl rfl
  · exact .suffixed (by decide) rfl (by decide) (by decide) (by decide)
  · exact .signed (by decide) rfl (by decide) (by decide) (by decide)
  · exact .suffixed (by decide) rfl (by decide) (by decide) (by decide)
  · exact .signed (by decide) rfl (by decide) (by decide) (by decide)
  · exact .suffixed (by decide) rfl (by decide) (by decide) (by decide)
  · exact .signed (by decide) rfl (by decide) (by decide) (by decide)
  · exact .suffixed (by decide) rfl (by decide) (by decide) (by decide)
  · exact .signed (by decide) rfl (by decide) (by decide) (by decide)

theorem value_suffixed (hSuffix : suffixedTypes.contains type = true) (hSign : 0 ≤ n) (hFits : n < 2 ^ 64) :
    (enumerator type n).value = some n := by
  have hLiteral : n.natAbs < 2 ^ 64 := by omega
  have hMinus : ¬ n < 0 := by omega
  have hAbs : (n.natAbs : Int) = n := by omega
  simp only [enumerator, Enumerator.value, hSuffix, if_true, if_pos hLiteral, hMinus, decide_false,
    Bool.false_eq_true, if_false, hAbs]

theorem value_plain (hSuffix : suffixedTypes.contains type = false) :
    (enumerator type n).value = some n ↔ -2 ^ 63 < n ∧ n < 2 ^ 63 := by
  simp only [enumerator, Enumerator.value, hSuffix, Bool.false_eq_true, if_false]
  by_cases hLiteral : n.natAbs < 2 ^ 63
  · refine iff_of_true ?_ (by omega)
    rw [if_pos hLiteral]
    split
    · rename_i hMinus
      have := of_decide_eq_true hMinus
      exact congrArg some (by omega)
    · rename_i hPlus
      have : ¬ n < 0 := fun h => hPlus (decide_eq_true h)
      exact congrArg some (by omega)
  · rw [if_neg hLiteral]
    exact iff_of_false (Option.some_ne_none n).symm (by omega)

theorem value_enumerator (hRow : (type, unsigned, bits) ∈ cppIntegers) (h : Represents unsigned bits n) :
    (enumerator type n).value = some n ↔ ¬ (type = str "int64" ∧ n = -2 ^ 63) := by
  cases row_of_mem hRow with
  | suffixed hSuffix hUnsigned hSome hBits hOther =>
    subst hUnsigned
    obtain ⟨hSign, hFits⟩ : 0 ≤ n ∧ n < 2 ^ bits := h
    have hPow : (2 : Int) ^ bits ≤ 2 ^ 64 := pow_le_pow_right₀ (by decide) (by omega)
    exact iff_of_true (value_suffixed hSuffix hSign (by omega)) fun hLeast => hOther hLeast.1
  | char hType hUnsigned hBits =>
    subst hType hUnsigned hBits
    obtain ⟨hSign, hFits⟩ : 0 ≤ n ∧ n < 2 ^ 8 := h
    exact iff_of_true ((value_plain (by decide)).mpr (by omega)) fun hLeast => absurd hLeast.1 (by decide)
  | signed hSuffix hSigned hSome hBits hOther =>
    subst hSigned
    obtain ⟨hLow, hHigh⟩ : -2 ^ (bits - 1) ≤ n ∧ n < 2 ^ (bits - 1) := h
    rw [value_plain hSuffix]
    obtain ⟨hSmall, hType⟩ | ⟨rfl, rfl⟩ := hBits
    · have hPow : (2 : Int) ^ (bits - 1) ≤ 2 ^ 62 := pow_le_pow_right₀ (by decide) (by omega)
      exact iff_of_true (by omega) fun hLeast => hType hLeast.1
    · have hWide : 64 - 1 = 63 := rfl
      rw [hWide] at hLow hHigh
      constructor
      · rintro hFits ⟨-, rfl⟩
        omega
      · intro hNot
        have : n ≠ -2 ^ 63 := fun hEq => hNot ⟨rfl, hEq⟩
        omega

end

/-! ## Acceptance -/

section

variable {F : Type} (py : Python F) {type : Str} {unsigned : Bool} {bits : Nat}

def upperLimit (unsigned : Bool) (bits : Nat) : Int := if unsigned then powMinusOne bits else powMinusOne (bits - 1)

def lowerLimit (unsigned : Bool) (bits : Nat) : Int := if unsigned then 0 else -upperLimit unsigned bits - 1

theorem convertConstantValue_bits {unsigned : Bool} (hFloat : ¬ (type = str "float32" ∨ type = str "float64"))
    (hText : type ≠ str "string") (hLookup : constantBits.lookup type = some bits)
    (hUnsigned : (type.head? = some 'u' ∨ type = str "char") ↔ unsigned = true) (val : Str) :
    convertConstantValue py type val = (int val).bind fun n =>
      if n > upperLimit unsigned bits ∨ n < lowerLimit unsigned bits then none else some (.int n) := by
  rw [convertConstantValue, if_neg hFloat, if_neg hText, hLookup]
  simp only [hUnsigned, upperLimit, lowerLimit]
  rfl

theorem convertConstantValue_integer (hRow : (type, unsigned, bits) ∈ cppIntegers) (val : Str) :
    convertConstantValue py type val = (int val).bind fun n =>
      if n > upperLimit unsigned bits ∨ n < lowerLimit unsigned bits then none else some (.int n) := by
  simp only [cppIntegers, List.mem_cons, Prod.mk.injEq, List.not_mem_nil, or_false] at hRow
  obtain ⟨rfl, rfl, rfl⟩ | ⟨rfl, rfl, rfl⟩ | ⟨rfl, rfl, rfl⟩ | ⟨rfl, rfl, rfl⟩ | ⟨rfl, rfl, rfl⟩ | ⟨rfl, rfl, rfl⟩ |
    ⟨rfl, rfl, rfl⟩ | ⟨rfl, rfl, rfl⟩ | ⟨rfl, rfl, rfl⟩ | ⟨rfl, rfl, rfl⟩ := hRow <;>
  exact convertConstantValue_bits py (by decide) (by decide) (by decide) (by decide) val

theorem powMinusOne_of_le {e : Nat} (h : e ≤ 53) : powMinusOne e = 2 ^ e - 1 := if_pos h

theorem limits_narrow (hBits : bits ≤ 32) (n : Int) :
    n > upperLimit unsigned bits ∨ n < lowerLimit unsigned bits ↔ ¬ Represents unsigned bits n := by
  cases unsigned with
  | true =>
    simp only [upperLimit, lowerLimit, Represents, if_true, powMinusOne_of_le (show bits ≤ 53 by omega)]
    omega
  | false =>
    simp only [upperLimit, lowerLimit, Represents, Bool.false_eq_true, if_false,
      powMinusOne_of_le (show bits - 1 ≤ 53 by omega)]
    omega

theorem limits_unsigned (n : Int) :
    n > upperLimit true 64 ∨ n < lowerLimit true 64 ↔ ¬ (Represents true 64 n ∨ n = 2 ^ 64) := by
  have hUpper : upperLimit true 64 = 2 ^ 64 := rfl
  have hLower : lowerLimit true 64 = 0 := rfl
  rw [hUpper, hLower, Represents, if_pos rfl]
  omega

theorem limits_signed (n : Int) :
    n > upperLimit false 64 ∨ n < lowerLimit false 64 ↔
      ¬ (Represents false 64 n ∨ n = 2 ^ 63 ∨ n = -2 ^ 63 - 1) := by
  have hUpper : upperLimit false 64 = 2 ^ 63 := rfl
  have hLower : lowerLimit false 64 = -2 ^ 63 - 1 := rfl
  have hWide : 64 - 1 = 63 := rfl
  rw [hUpper, hLower, Represents, if_neg Bool.false_ne_true, hWide]
  omega

/-- A literal is accepted just when the type holds it, and an accepted one is the value of its enumerator. -/
def AcceptsExactly (type : Str) (unsigned : Bool) (bits : Nat) (val : Str) (n : Int) : Prop :=
  (convertConstantValue py type val = if Represents unsigned bits n then some (.int n) else none) ∧
    ∀ accepted, convertConstantValue py type val = some (.int accepted) →
      Represents unsigned bits accepted ∧ (enumerator type accepted).value = some accepted

theorem acceptsExactly_of_limits (hRow : (type, unsigned, bits) ∈ cppIntegers) {val : Str} {n : Int}
    (hVal : int val = some n) {Beyond : Prop} (hApart : Beyond → ¬ Represents unsigned bits n)
    (hLimits : n > upperLimit unsigned bits ∨ n < lowerLimit unsigned bits ↔
      ¬ (Represents unsigned bits n ∨ Beyond)) :
    AcceptsExactly py type unsigned bits val n ↔ ¬ Beyond ∧ ¬ (type = str "int64" ∧ n = -2 ^ 63) := by
  have hConvert := convertConstantValue_integer py hRow val
  rw [hVal, Option.bind_some] at hConvert
  rw [AcceptsExactly, hConvert]
  by_cases hHeld : Represents unsigned bits n
  · have hNot : ¬ Beyond := fun h => hApart h hHeld
    rw [if_neg fun h => hLimits.mp h (.inl hHeld), if_pos hHeld, and_iff_right rfl, and_iff_right hNot,
      ← value_enumerator hRow hHeld]
    constructor
    · exact fun h => (h n rfl).2
    · rintro hValue _ ⟨⟩
      exact ⟨hHeld, hValue⟩
  · have hLeast : ¬ (type = str "int64" ∧ n = -2 ^ 63) := by
      rintro ⟨rfl, rfl⟩
      simp only [cppIntegers, List.mem_cons, Prod.mk.injEq, List.not_mem_nil, or_false] at hRow
      obtain ⟨h, -⟩ | ⟨h, -⟩ | ⟨h, -⟩ | ⟨h, -⟩ | ⟨h, -⟩ | ⟨h, -⟩ | ⟨h, -⟩ | ⟨h, -⟩ | ⟨h, -⟩ | ⟨-, rfl, rfl⟩ := hRow
      iterate 9 exact absurd h (by decide)
      exact hHeld (by decide)
    rw [and_iff_left hLeast, if_neg hHeld]
    by_cases hBeyond : Beyond
    · rw [if_neg fun h => hLimits.mp h (.inr hBeyond)]
      refine iff_of_false ?_ fun h => h hBeyond
      rintro ⟨hSame, -⟩
      cases hSame
    · rw [if_pos (hLimits.mpr (not_or.mpr ⟨hHeld, hBeyond⟩))]
      refine iff_of_true ⟨rfl, ?_⟩ hBeyond
      rintro _ ⟨⟩

/-- The limits of 64 bits are one off. -/
theorem acceptsExactly_iff (hRow : (type, unsigned, bits) ∈ cppIntegers) {val : Str} {n : Int}
    (hVal : int val = some n) :
    AcceptsExactly py type unsigned bits val n ↔
      ¬ (type = str "int64" ∧ (n = 2 ^ 63 ∨ n = -2 ^ 63 ∨ n = -2 ^ 63 - 1)) ∧
        ¬ (type = str "uint64" ∧ n = 2 ^ 64) := by
  have hNarrow (hBits : bits ≤ 32) (hSigned : type ≠ str "int64") (hUnsigned : type ≠ str "uint64") :
      AcceptsExactly py type unsigned bits val n ↔
        ¬ (type = str "int64" ∧ (n = 2 ^ 63 ∨ n = -2 ^ 63 ∨ n = -2 ^ 63 - 1)) ∧
          ¬ (type = str "uint64" ∧ n = 2 ^ 64) := by
    have hLimits : n > upperLimit unsigned bits ∨ n < lowerLimit unsigned bits ↔ ¬ Represents unsigned bits n :=
      limits_narrow hBits n
    rw [← or_false (Represents unsigned bits n)] at hLimits
    rw [acceptsExactly_of_limits py hRow hVal False.elim hLimits]
    simp only [hSigned, hUnsigned, false_and, not_false_iff, and_self]
  cases row_of_mem hRow with
  | suffixed hSuffix hUnsigned hSome hBits hOther =>
    obtain ⟨hSmall, hType⟩ | ⟨rfl, rfl⟩ := hBits
    · exact hNarrow hSmall hOther hType
    · subst hUnsigned
      rw [acceptsExactly_of_limits py hRow hVal (fun hEq h => absurd h.2 (by rw [hEq]; decide)) (limits_unsigned n)]
      simp only [hOther, false_and, not_false_iff, true_and, and_true]
  | char hType hUnsigned hBits =>
    subst hType hBits
    exact hNarrow (by decide) (by decide) (by decide)
  | signed hSuffix hSigned hSome hBits hOther =>
    obtain ⟨hSmall, hType⟩ | ⟨rfl, rfl⟩ := hBits
    · exact hNarrow hSmall hType hOther
    · subst hSigned
      have hApart : n = 2 ^ 63 ∨ n = -2 ^ 63 - 1 → ¬ Represents false 64 n := by
        rintro (rfl | rfl)
        · decide
        · decide
      rw [acceptsExactly_of_limits py hRow hVal hApart (limits_signed n)]
      simp only [hOther, false_and, not_false_iff, and_true, true_and]
      rw [← not_or, or_assoc, or_comm (a := n = -2 ^ 63 - 1)]

theorem acceptsExactly_byte : AcceptsExactly asciiPython (str "byte") false 8 (str "-128") (-128) :=
  (acceptsExactly_iff asciiPython (by decide) (by decide)).mpr (by decide)

/-- Two literals that no type of 64 bits holds are accepted, and the least constant has no enumerator. -/
theorem accepts_beyond :
    convertConstantValue asciiPython (str "int64") (str "9223372036854775808") = some (.int 9223372036854775808) ∧
      ¬ Represents false 64 9223372036854775808 ∧
      convertConstantValue asciiPython (str "uint64") (str "18446744073709551616") =
        some (.int 18446744073709551616) ∧
      ¬ Represents true 64 18446744073709551616 ∧
      convertConstantValue asciiPython (str "int64") (str "-9223372036854775808") =
        some (.int (-9223372036854775808)) ∧
      (enumerator (str "int64") (-9223372036854775808)).value = none := by
  decide

end

end XcRos.Msg
