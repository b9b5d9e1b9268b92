import Mathlib.Tactic.IntervalCases
import XcRos.Rpc.Base64

/-! # Round trip of base64

The decoder undoes the encoder. The bits of three bytes go through four letters, whichever of the eighteen places of
a line they stand at.
-/

namespace XcRos.Rpc

namespace ThreeToFour

theorem eq_of_bits {a b : UInt8} (h : ∀ i < 8, a.toBitVec.getLsbD i = b.toBitVec.getLsbD i) : a = b :=
  UInt8.eq_of_toBitVec_eq (BitVec.eq_of_getLsbD_eq h)

theorem add_eq_or {a b : UInt8} (h : a &&& b = 0) : a + b = a ||| b := by
  apply UInt8.eq_of_toBitVec_eq
  rw [UInt8.toBitVec_add, UInt8.toBitVec_or]
  exact BitVec.add_eq_or_of_and_eq_zero _ _ (by rw [← UInt8.toBitVec_and, h]; rfl)

theorem b64_1_eq (t : ThreeToFour) : t.b64_1 = (t.data0 &&& 0x03) <<< 4 ||| (t.data1 &&& 0xF0) >>> 4 := by
  refine add_eq_or (eq_of_bits fun i hi => ?_)
  interval_cases i <;> simp

theorem b64_2_eq (t : ThreeToFour) : t.b64_2 = (t.data1 &&& 0x0F) <<< 2 ||| (t.data2 &&& 0xC0) >>> 6 := by
  refine add_eq_or (eq_of_bits fun i hi => ?_)
  interval_cases i <;> simp

theorem first_two (t : ThreeToFour) :
    (zero.set_b64_0 t.b64_0).set_b64_1 t.b64_1 = ⟨t.data0, (t.data1 &&& 0xF0), 0⟩ := by
  simp only [set_b64_1, set_b64_0, zero, b64_1_eq, b64_0, ThreeToFour.mk.injEq, and_true]
  constructor
  · refine eq_of_bits fun i hi => ?_
    interval_cases i <;> simp
  · refine eq_of_bits fun i hi => ?_
    interval_cases i <;> simp

theorem third (t : ThreeToFour) :
    (⟨t.data0, (t.data1 &&& 0xF0), 0⟩ : ThreeToFour).set_b64_2 t.b64_2 = ⟨t.data0, t.data1, (t.data2 &&& 0xC0)⟩ := by
  simp only [set_b64_2, b64_2_eq, ThreeToFour.mk.injEq, true_and]
  constructor
  · refine eq_of_bits fun i hi => ?_
    interval_cases i <;> simp
  · refine eq_of_bits fun i hi => ?_
    interval_cases i <;> simp

theorem fourth (t : ThreeToFour) :
    (⟨t.data0, t.data1, (t.data2 &&& 0xC0)⟩ : ThreeToFour).set_b64_3 t.b64_3 = t := by
  obtain ⟨data0, data1, data2⟩ := t
  simp only [set_b64_3, b64_3, ThreeToFour.mk.injEq, true_and]
  refine eq_of_bits fun i hi => ?_
  interval_cases i <;> simp

theorem six_bits {a : UInt8} (h : a &&& 0x3F = a) : a.toNat < 64 := by
  have hAnd := congrArg UInt8.toNat h
  rw [UInt8.toNat_and] at hAnd
  have hLe : a.toNat &&& (0x3F : UInt8).toNat ≤ (0x3F : UInt8).toNat := Nat.and_le_right
  have hSize : (0x3F : UInt8).toNat = 63 := rfl
  omega

theorem b64_lt (t : ThreeToFour) : t.b64_0.toNat < 64 ∧ t.b64_1.toNat < 64 ∧ t.b64_2.toNat < 64 ∧ t.b64_3.toNat < 64 := by
  refine ⟨six_bits ?_, six_bits ?_, six_bits ?_, six_bits ?_⟩
  · refine eq_of_bits fun i hi => ?_
    interval_cases i <;> simp [b64_0]
  · refine eq_of_bits fun i hi => ?_
    interval_cases i <;> simp [b64_1_eq]
  · refine eq_of_bits fun i hi => ?_
    interval_cases i <;> simp [b64_2_eq]
  · refine eq_of_bits fun i hi => ?_
    interval_cases i <;> simp [b64_3]

end ThreeToFour

namespace Base64

theorem getCharType_base64Char {index : UInt8} (h : index.toNat < 64) :
    getCharType (base64Char index) = .value index ∧ base64Char index ≠ 60 := by
  have hAll : ∀ n < 64, getCharType (base64Chars.getD n 0) = .value (UInt8.ofNat n) ∧ base64Chars.getD n 0 ≠ 60 := by
    decide +kernel
  have := hAll index.toNat h
  rwa [UInt8.ofNat_toNat] at this

section

variable {index : UInt8} (h : index.toNat < 64) (t : ThreeToFour) (rest : Bytes)

include h

theorem getLoop_first :
    getLoop .first t (base64Char index :: rest) = getLoop .second (ThreeToFour.zero.set_b64_0 index) rest := by
  simp only [getLoop, (getCharType_base64Char h).1]

theorem getLoop_second :
    getLoop .second t (base64Char index :: rest) = getLoop .third (t.set_b64_1 index) rest := by
  simp only [getLoop, (getCharType_base64Char h).1]

theorem getLoop_third :
    getLoop .third t (base64Char index :: rest) = getLoop .fourth (t.set_b64_2 index) rest := by
  simp only [getLoop, (getCharType_base64Char h).1]

theorem getLoop_fourth :
    getLoop .fourth t (base64Char index :: rest) =
      (t.set_b64_3 index).data0 :: (t.set_b64_3 index).data1 :: (t.set_b64_3 index).data2 ::
        getLoop .first .zero rest := by
  simp only [getLoop, (getCharType_base64Char h).1]

end

theorem getLoop_first_two (t : ThreeToFour) (rest : Bytes) :
    getLoop .first .zero (base64Char t.b64_0 :: base64Char t.b64_1 :: rest) =
      getLoop .third ⟨t.data0, (t.data1 &&& 0xF0), 0⟩ rest := by
  obtain ⟨hFirst, hSecond, _⟩ := t.b64_lt
  rw [getLoop_first hFirst, getLoop_second hSecond, t.first_two]

theorem getLoop_group (t : ThreeToFour) (rest : Bytes) :
    getLoop .first .zero
        (base64Char t.b64_0 :: base64Char t.b64_1 :: base64Char t.b64_2 :: base64Char t.b64_3 :: rest) =
      t.data0 :: t.data1 :: t.data2 :: getLoop .first .zero rest := by
  obtain ⟨_, _, hThird, hFourth⟩ := t.b64_lt
  rw [getLoop_first_two, getLoop_third hThird, t.third, getLoop_fourth hFourth, t.fourth]

theorem getLoop_newline (rest : Bytes) : getLoop .first .zero (10 :: rest) = getLoop .first .zero rest := by
  have hUnknown : getCharType 10 = .unknownChar := by decide
  rw [getLoop, hUnknown]

theorem getLoop_put (lineOctets : Nat) (data : Bytes) : getLoop .first .zero (put lineOctets data) = data := by
  induction lineOctets, data using put.induct with
  | case1 => rfl
  | case2 lineOctets a =>
    have hEqual : getCharType 61 = .equalChar := by decide
    rw [put, getLoop_first_two, getLoop, hEqual]
    simp [ThreeToFour.set_b64_2, ThreeToFour.set_b64_3]
  | case3 lineOctets a b =>
    have hEqual : getCharType 61 = .equalChar := by decide
    obtain ⟨_, _, hThird, _⟩ := (⟨a, b, 0⟩ : ThreeToFour).b64_lt
    have hData := (⟨a, b, 0⟩ : ThreeToFour).third
    simp only at hData
    rw [put, getLoop_first_two, getLoop_third hThird, hData, getLoop, hEqual]
    simp [ThreeToFour.set_b64_3]
  | case4 lineOctets a b c rest ihLine ih =>
    rw [put, getLoop_group]
    split
    · rw [getLoop_newline, ihLine]
    · rw [ih]

theorem get_put (data : Bytes) : get (put 0 data) = data := getLoop_put 0 data

theorem put_no_tag (lineOctets : Nat) (data : Bytes) : 60 ∉ put lineOctets data := by
  have hLetter (index : UInt8) (h : index.toNat < 64) : 60 ≠ base64Char index := (getCharType_base64Char h).2.symm
  induction lineOctets, data using put.induct with
  | case1 => simp [put]
  | case2 lineOctets a =>
    obtain ⟨h₀, h₁, _⟩ := (⟨a, 0, 0⟩ : ThreeToFour).b64_lt
    simp [put, hLetter _ h₀, hLetter _ h₁]
  | case3 lineOctets a b =>
    obtain ⟨h₀, h₁, h₂, _⟩ := (⟨a, b, 0⟩ : ThreeToFour).b64_lt
    simp [put, hLetter _ h₀, hLetter _ h₁, hLetter _ h₂]
  | case4 lineOctets a b c rest ihLine ih =>
    obtain ⟨h₀, h₁, h₂, h₃⟩ := (⟨a, b, c⟩ : ThreeToFour).b64_lt
    have hRest : 60 ∉ if lineOctets = 17 then 10 :: put 0 rest else put (lineOctets + 1) rest := by
      split
      · simpa using ihLine
      · exact ih
    simp [put, hLetter _ h₀, hLetter _ h₁, hLetter _ h₂, hLetter _ h₃, hRest]

/-! ## Lines -/

/-- No line of the text is longer than 72 letters; `used` letters stand in front of it on its first line. -/
def LinesFit (used : Nat) (text : Bytes) : Prop :=
  ∃ line lines, text.splitOn 10 = line :: lines ∧ used + line.length ≤ 72 ∧ ∀ next ∈ lines, next.length ≤ 72

theorem linesFit_nil {used : Nat} (h : used ≤ 72) : LinesFit used [] := ⟨[], [], rfl, h, by simp⟩

theorem LinesFit.cons {used : Nat} {c : UInt8} {text : Bytes} (hc : c ≠ 10) (h : LinesFit (used + 1) text) :
    LinesFit used (c :: text) := by
  obtain ⟨line, lines, hSplit, hFirst, hRest⟩ := h
  refine ⟨c :: line, lines, ?_, ?_, hRest⟩
  · rw [List.splitOn_cons_eq_if_modifyHead, if_neg (by simpa using hc), hSplit]
    rfl
  · rw [List.length_cons]
    omega

theorem LinesFit.newline {used : Nat} {text : Bytes} (hUsed : used ≤ 72) (h : LinesFit 0 text) :
    LinesFit used (10 :: text) := by
  obtain ⟨line, lines, hSplit, hFirst, hRest⟩ := h
  refine ⟨[], line :: lines, ?_, hUsed, ?_⟩
  · rw [List.splitOn_cons_eq_if_modifyHead, if_pos (by rfl), hSplit]
  · intro next hNext
    rcases List.mem_cons.mp hNext with rfl | hNext
    · omega
    · exact hRest next hNext

theorem LinesFit.length_le {used : Nat} {text : Bytes} (h : LinesFit used text) :
    ∀ line ∈ text.splitOn 10, line.length ≤ 72 := by
  obtain ⟨line, lines, hSplit, hFirst, hRest⟩ := h
  intro next hNext
  rw [hSplit] at hNext
  rcases List.mem_cons.mp hNext with rfl | hNext
  · omega
  · exact hRest next hNext

theorem base64Char_ne_newline {index : UInt8} (h : index.toNat < 64) : base64Char index ≠ 10 := by
  intro hEq
  have hType := (getCharType_base64Char h).1
  rw [hEq] at hType
  exact absurd hType (by simp [getCharType])

theorem LinesFit.group {used : Nat} {c₀ c₁ c₂ c₃ : UInt8} {text : Bytes} (h₀ : c₀ ≠ 10) (h₁ : c₁ ≠ 10) (h₂ : c₂ ≠ 10)
    (h₃ : c₃ ≠ 10) (h : LinesFit (used + 4) text) : LinesFit used (c₀ :: c₁ :: c₂ :: c₃ :: text) :=
  .cons h₀ (.cons h₁ (.cons h₂ (.cons h₃ h)))

theorem put_linesFit {lineOctets : Nat} (data : Bytes) (h : lineOctets ≤ 17) :
    LinesFit (4 * lineOctets) (put lineOctets data) := by
  have hEqual : (61 : UInt8) ≠ 10 := by decide
  induction lineOctets, data using put.induct with
  | case1 => exact linesFit_nil (by omega)
  | case2 lineOctets a =>
    obtain ⟨h₀, h₁, _⟩ := (⟨a, 0, 0⟩ : ThreeToFour).b64_lt
    exact .group (base64Char_ne_newline h₀) (base64Char_ne_newline h₁) hEqual hEqual (linesFit_nil (by omega))
  | case3 lineOctets a b =>
    obtain ⟨h₀, h₁, h₂, _⟩ := (⟨a, b, 0⟩ : ThreeToFour).b64_lt
    exact .group (base64Char_ne_newline h₀) (base64Char_ne_newline h₁) (base64Char_ne_newline h₂) hEqual
      (linesFit_nil (by omega))
  | case4 lineOctets a b c rest ihLine ih =>
    obtain ⟨h₀, h₁, h₂, h₃⟩ := (⟨a, b, c⟩ : ThreeToFour).b64_lt
    rw [put]
    refine .group (base64Char_ne_newline h₀) (base64Char_ne_newline h₁) (base64Char_ne_newline h₂)
      (base64Char_ne_newline h₃) ?_
    split
    · -- the eighteenth group fills the line
      exact .newline (by omega) (ihLine (by omega))
    · exact ih (by omega)

/-- Binary data comes back from its text, whose lines are of at most 72 letters, none of which starts a tag. -/
theorem decoded_and_wrapped (data : Bytes) :
    get (put 0 data) = data ∧ (∀ line ∈ (put 0 data).splitOn 10, line.length ≤ 72) ∧ 60 ∉ put 0 data :=
  ⟨get_put data, (put_linesFit data (Nat.zero_le 17)).length_le, put_no_tag 0 data⟩

end Base64

end XcRos.Rpc
