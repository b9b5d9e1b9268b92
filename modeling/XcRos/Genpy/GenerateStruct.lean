import XcRos.Genpy.Struct

/-! # Struct patterns

The simple types of a message with their letters, and the pattern that is emitted for several of them.
`reducePattern` writes a run of one letter as a count. It takes a run of nines for letters as well.
-/

namespace XcRos.Genpy

open XcRos.Foundation XcRos.Msg

/-- The keys of `SIMPLE_TYPES_DICT`. -/
inductive Simple where
  | int8 | uint8 | bool | int16 | uint16 | int32 | uint32 | int64 | uint64 | float32 | float64 | char | byte
deriving DecidableEq, Repr

namespace Simple

def all : List Simple :=
  [.int8, .uint8, .bool, .int16, .uint16, .int32, .uint32, .int64, .uint64, .float32, .float64, .char, .byte]

def name : Simple → Str
  | .int8 => str "int8"
  | .uint8 => str "uint8"
  | .bool => str "bool"
  | .int16 => str "int16"
  | .uint16 => str "uint16"
  | .int32 => str "int32"
  | .uint32 => str "uint32"
  | .int64 => str "int64"
  | .uint64 => str "uint64"
  | .float32 => str "float32"
  | .float64 => str "float64"
  | .char => str "char"
  | .byte => str "byte"

/-- `SIMPLE_TYPES_DICT` -/
def letter : Simple → Char
  | .int8 => 'b'
  | .uint8 => 'B'
  | .bool => 'B'
  | .int16 => 'h'
  | .uint16 => 'H'
  | .int32 => 'i'
  | .uint32 => 'I'
  | .int64 => 'q'
  | .uint64 => 'Q'
  | .float32 => 'f'
  | .float64 => 'd'
  | .char => 'B'
  | .byte => 'b'

def code : Simple → Code
  | .int8 | .byte => .int true 1
  | .uint8 | .bool | .char => .int false 1
  | .int16 => .int true 2
  | .uint16 => .int false 2
  | .int32 => .int true 4
  | .uint32 => .int false 4
  | .int64 => .int true 8
  | .uint64 => .int false 8
  | .float32 => .single
  | .float64 => .double

theorem ofLetter_letter (s : Simple) : Code.ofLetter s.letter = some s.code := by
  cases s <;> rfl

end Simple

def simpleOf (type : Str) : Option Simple := Simple.all.find? fun s => s.name = type

/-- `is_simple` -/
def isSimple (type : Str) : Bool := (simpleOf type).isSome

def computeStructPattern (types : List Str) : Option Str :=
  if types = [] then none else types.mapM fun type => (simpleOf type).map Simple.letter

/-! ## reduce_pattern -/

/-- `nums`, which stops short of the nine. -/
def nums : List Char := ['0', '1', '2', '3', '4', '5', '6', '7', '8']

def counted (count : Nat) (c : Char) : Str := if count > 1 then decimal count ++ [c] else [c]

/-- The loop of `reduce_pattern`: what it adds to the new pattern. -/
def reduceFrom (prev : Char) (count : Nat) : Str → Str
  | [] => counted count prev
  | c :: rest =>
    if c = prev ∧ c ∉ nums then reduceFrom prev (count + 1) rest
    else counted count prev ++ reduceFrom c 1 rest

def reducePattern : Str → Str
  | [] => []
  | c :: rest => if rest = [] ∨ '%' ∈ c :: rest then c :: rest else reduceFrom c 1 rest

/-! ## Formats in parts -/

theorem itemsFrom_append {front : Str} {count : Option Nat} {items : List Item} (h : itemsFrom count front = some items)
    (rest : Str) : itemsFrom count (front ++ rest) = (formatItems rest).map (items ++ ·) := by
  induction front generalizing count items with
  | nil =>
    cases count with
    | none =>
      cases h
      simp [formatItems]
    | some n => cases h
  | cons c front ih =>
    rw [List.cons_append, itemsFrom]
    rw [itemsFrom] at h
    split at h
    · rename_i hDigit
      rw [if_pos hDigit, ih h]
    · rename_i hDigit
      obtain ⟨head, hHead, hRest⟩ := Option.bind_eq_some_iff.mp h
      obtain ⟨tail, hTail, rfl⟩ := Option.map_eq_some_iff.mp hRest
      rw [if_neg hDigit, hHead, Option.bind_some, ih hTail, Option.map_map]
      congr 1
      funext more
      simp

theorem itemsFrom_digits {ds : Str} (hDigits : ∀ d ∈ ds, d.isDigit = true) (n : Nat) (rest : Str) :
    itemsFrom (some n) (ds ++ rest) = itemsFrom (some (Nat.ofDigitChars 10 ds n)) rest := by
  induction ds generalizing n with
  | nil => rw [Nat.ofDigitChars_nil]; rfl
  | cons d ds ih =>
    rw [List.cons_append, itemsFrom, if_pos (hDigits d List.mem_cons_self), Nat.ofDigitChars_cons]
    exact ih (fun e he => hDigits e (List.mem_cons_of_mem d he)) _

theorem formatItems_counted {ds : Str} (hNonempty : ds ≠ []) (hDigits : ∀ d ∈ ds, d.isDigit = true) {c : Char}
    (hLetter : c.isDigit = false) (rest : Str) :
    formatItems (ds ++ c :: rest) =
      (countedItems (Nat.ofDigitChars 10 ds 0) c).bind fun front => (formatItems rest).map (front ++ ·) := by
  obtain ⟨d, ds, rfl⟩ := List.exists_cons_of_ne_nil hNonempty
  rw [List.cons_append, formatItems, itemsFrom, if_pos (hDigits d List.mem_cons_self), Option.getD_none,
    itemsFrom_digits (fun e he => hDigits e (List.mem_cons_of_mem d he)), itemsFrom, hLetter, if_neg Bool.false_ne_true,
    Nat.ofDigitChars_cons]
  rfl

theorem decimal_digits (n : Nat) : ∀ d ∈ decimal n, d.isDigit = true :=
  fun _ hd => Nat.isDigit_of_mem_toDigits (by decide) (by decide) hd

theorem decimal_ne_nil (n : Nat) : decimal n ≠ [] := Nat.toDigits_ne_nil

theorem formatItems_decimal (n : Nat) {c : Char} (hLetter : c.isDigit = false) (rest : Str) :
    formatItems (decimal n ++ c :: rest) =
      (countedItems n c).bind fun front => (formatItems rest).map (front ++ ·) := by
  rw [formatItems_counted (decimal_ne_nil n) (decimal_digits n) hLetter, decimal, Nat.ofDigitChars_ten_toDigits]

theorem formatItems_letter {c : Char} (hLetter : c.isDigit = false) (rest : Str) :
    formatItems (c :: rest) = (countedItems 1 c).bind fun front => (formatItems rest).map (front ++ ·) := by
  rw [formatItems, itemsFrom, hLetter, if_neg Bool.false_ne_true]
  rfl

theorem formatItems_countedLetter (n : Nat) (hn : 1 ≤ n) {c : Char} (hLetter : c.isDigit = false) (rest : Str) :
    formatItems (counted n c ++ rest) =
      (countedItems n c).bind fun front => (formatItems rest).map (front ++ ·) := by
  rw [counted]
  split
  · rw [List.append_assoc, List.singleton_append, formatItems_decimal n hLetter]
  · have hOne : n = 1 := by omega
    rw [hOne, List.singleton_append, formatItems_letter hLetter]

/-! ## Patterns of letters -/

theorem letter_not_digit {c : Char} {code : Code} (h : Code.ofLetter c = some code) : c.isDigit = false ∧ c ≠ 's' := by
  unfold Code.ofLetter at h
  split at h <;> first | exact ⟨by decide, by decide⟩ | cases h

theorem countedItems_letter {c : Char} {code : Code} (h : Code.ofLetter c = some code) (n : Nat) :
    countedItems n c = some (List.replicate n (.value code)) := by
  rw [countedItems, if_neg (letter_not_digit h).2, h, Option.map_some]

theorem formatItems_letters {letters : Str} {codes : List Code}
    (h : List.Forall₂ (fun c code => Code.ofLetter c = some code) letters codes) :
    formatItems letters = some (codes.map .value) := by
  induction h with
  | nil => rfl
  | cons hHead _ ih =>
    rw [formatItems_letter (letter_not_digit hHead).1, countedItems_letter hHead, ih]
    rfl

theorem formatItems_reduceFrom {prev : Char} {code : Code} (hPrev : Code.ofLetter prev = some code) {letters : Str}
    {codes : List Code} (h : List.Forall₂ (fun c code => Code.ofLetter c = some code) letters codes) {count : Nat}
    (hCount : 1 ≤ count) :
    formatItems (reduceFrom prev count letters) = some (List.replicate count (.value code) ++ codes.map .value) := by
  induction h generalizing prev code count with
  | nil =>
    have := formatItems_countedLetter count hCount (letter_not_digit hPrev).1 []
    rw [List.append_nil, countedItems_letter hPrev] at this
    rw [reduceFrom, this]
    rfl
  | @cons c code' letters codes hHead _ ih =>
    rw [reduceFrom]
    split
    · rename_i hSame
      obtain ⟨rfl, _⟩ := hSame
      obtain rfl := Option.some.inj (hPrev.symm.trans hHead)
      rw [ih hPrev (by omega), List.replicate_succ', List.append_assoc]
      rfl
    · rw [formatItems_countedLetter count hCount (letter_not_digit hPrev).1, countedItems_letter hPrev,
        ih hHead (Nat.le_refl 1)]
      rfl

theorem formatItems_reducePattern {letters : Str} {codes : List Code}
    (h : List.Forall₂ (fun c code => Code.ofLetter c = some code) letters codes) :
    formatItems (reducePattern letters) = some (codes.map .value) := by
  have hPlain := formatItems_letters h
  cases h with
  | nil => rfl
  | cons hHead hTail =>
    rw [reducePattern]
    split
    · exact hPlain
    · exact formatItems_reduceFrom hHead hTail (Nat.le_refl 1)

/-! ## Patterns of one count and one letter -/

def reducedCount (n : Nat) : Nat := Nat.ofDigitChars 10 (reducePattern (decimal n)) 0

theorem counted_digits {d : Char} (hd : d.isDigit = true) (count : Nat) : ∀ e ∈ counted count d, e.isDigit = true := by
  intro e he
  rw [counted] at he
  split at he
  · rcases List.mem_append.mp he with he | he
    · exact decimal_digits count e he
    · rw [List.mem_singleton.mp he, hd]
  · rw [List.mem_singleton.mp he, hd]

theorem counted_ne_nil (count : Nat) (c : Char) : counted count c ≠ [] := by
  rw [counted]
  split <;> simp

theorem reduceFrom_ne_nil (prev : Char) (count : Nat) (rest : Str) : reduceFrom prev count rest ≠ [] := by
  induction rest generalizing prev count with
  | nil => exact counted_ne_nil count prev
  | cons c rest ih =>
    rw [reduceFrom]
    split
    · exact ih prev (count + 1)
    · exact List.append_ne_nil_of_left_ne_nil (counted_ne_nil count prev) _

theorem reduceFrom_digits {prev : Char} (hPrev : prev.isDigit = true) (count : Nat) {ds : Str}
    (hDigits : ∀ d ∈ ds, d.isDigit = true) : ∀ e ∈ reduceFrom prev count ds, e.isDigit = true := by
  induction ds generalizing prev count with
  | nil => exact counted_digits hPrev count
  | cons d ds ih =>
    have hTail : ∀ e ∈ ds, e.isDigit = true := fun e he => hDigits e (List.mem_cons_of_mem d he)
    rw [reduceFrom]
    split
    · exact ih hPrev (count + 1) hTail
    · intro e he
      rcases List.mem_append.mp he with he | he
      · exact counted_digits hPrev count e he
      · exact ih (hDigits d List.mem_cons_self) 1 hTail e he

theorem reduceFrom_append {prev : Char} (hPrev : prev.isDigit = true) (count : Nat) {ds : Str}
    (hDigits : ∀ d ∈ ds, d.isDigit = true) {c : Char} (hLetter : c.isDigit = false) (rest : Str) :
    reduceFrom prev count (ds ++ c :: rest) = reduceFrom prev count ds ++ reduceFrom c 1 rest := by
  induction ds generalizing prev count with
  | nil =>
    have hNe : c ≠ prev := by
      rintro rfl
      rw [hLetter] at hPrev
      cases hPrev
    exact if_neg fun h => hNe h.1
  | cons d ds ih =>
    have hTail : ∀ e ∈ ds, e.isDigit = true := fun e he => hDigits e (List.mem_cons_of_mem d he)
    rw [List.cons_append, reduceFrom, reduceFrom]
    split
    · exact ih hPrev (count + 1) hTail
    · rw [ih (hDigits d List.mem_cons_self) 1 hTail, List.append_assoc]

theorem reducePattern_decimal (n : Nat) :
    ∃ d ds, decimal n = d :: ds ∧ reducePattern (decimal n) = reduceFrom d 1 ds := by
  have hPercents : '%' ∉ decimal n := fun hMem => absurd (decimal_digits n _ hMem) (by decide)
  obtain ⟨d, ds, hEq⟩ := List.exists_cons_of_ne_nil (decimal_ne_nil n)
  rw [hEq] at hPercents
  refine ⟨d, ds, hEq, ?_⟩
  rw [hEq, reducePattern]
  split
  · rename_i h
    rcases h with rfl | h
    · rfl
    · exact absurd h hPercents
  · rfl

theorem formatItems_reducePattern_counted (n : Nat) {c : Char} (hLetter : c.isDigit = false) (hPercent : c ≠ '%') :
    formatItems (reducePattern (decimal n ++ [c])) = countedItems (reducedCount n) c := by
  have hDecimal := decimal_digits n
  have hPercents : '%' ∉ decimal n ++ [c] := by
    intro hMem
    rcases List.mem_append.mp hMem with h | h
    · exact absurd (hDecimal _ h) (by decide)
    · exact hPercent (List.mem_singleton.mp h).symm
  obtain ⟨d, ds, hEq, hReduced⟩ := reducePattern_decimal n
  rw [reducedCount, hReduced]
  rw [hEq] at hDecimal hPercents ⊢
  have hHead := hDecimal d List.mem_cons_self
  have hTail : ∀ e ∈ ds, e.isDigit = true := fun e he => hDecimal e (List.mem_cons_of_mem d he)
  have hWhole : reducePattern (d :: ds ++ [c]) = reduceFrom d 1 ds ++ [c] := by
    have hOnly : ¬ (ds ++ [c] = [] ∨ '%' ∈ d :: (ds ++ [c])) := by
      rintro (h | h)
      · simp at h
      · exact hPercents h
    rw [List.cons_append, reducePattern, if_neg hOnly, reduceFrom_append hHead 1 hTail hLetter]
    rfl
  rw [hWhole, formatItems_counted (reduceFrom_ne_nil d 1 ds) (reduceFrom_digits hHead 1 hTail) hLetter]
  cases countedItems (Nat.ofDigitChars 10 (reduceFrom d 1 ds) 0) c with
  | none => rfl
  | some items => simp [formatItems, itemsFrom]

/-! ## Runs of nines -/

def digitsValue (ds : Str) : Nat := Nat.ofDigitChars 10 ds 0

theorem digitsValue_append (ds es : Str) : digitsValue (ds ++ es) = 10 ^ es.length * digitsValue ds + digitsValue es := by
  rw [digitsValue, Nat.ofDigitChars_append, Nat.ofDigitChars_eq_ofDigitChars_zero]
  rfl

theorem digitsValue_nines (k : Nat) : digitsValue (List.replicate k '9') + 1 = 10 ^ k := by
  induction k with
  | zero => rfl
  | succ k ih =>
    have hNine : digitsValue ['9'] = 9 := rfl
    rw [List.replicate_succ', digitsValue_append, hNine, List.length_singleton, Nat.pow_succ]
    omega

theorem ten_mul_lt_pow {k : Nat} (hk : 2 ≤ k) : 10 * k + 10 < 10 ^ k := by
  induction k, hk using Nat.le_induction with
  | base => decide
  | succ k _ ih =>
    rw [Nat.pow_succ]
    omega

theorem digitsValue_counted_lt {k : Nat} (hk : 2 ≤ k) :
    digitsValue (counted k '9') < digitsValue (List.replicate k '9') := by
  have hNines := digitsValue_nines k
  have hPow := ten_mul_lt_pow hk
  have hValue : digitsValue (counted k '9') = 10 * k + 9 := by
    have hNine : digitsValue ['9'] = 9 := rfl
    rw [counted, if_pos (show k > 1 from hk), digitsValue_append, hNine, List.length_singleton, digitsValue, decimal,
      Nat.ofDigitChars_ten_toDigits, Nat.pow_one]
  omega

theorem counted_length {k : Nat} (hk : 1 ≤ k) (c : Char) : (counted k c).length ≤ k := by
  rw [counted]
  split
  · rename_i hTwo
    have hDigits : (decimal k).length ≤ k - 1 := by
      rw [decimal, Nat.length_toDigits_le_iff (by decide) (by omega)]
      have := @ten_mul_lt_pow k hTwo
      obtain ⟨m, rfl⟩ : ∃ m, k = m + 1 := ⟨k - 1, by omega⟩
      rw [Nat.pow_succ] at this
      rw [Nat.add_sub_cancel]
      omega
    rw [List.length_append, List.length_singleton]
    omega
  · exact hk

theorem mem_nums_of_ne {d : Char} (hDigit : d.isDigit = true) (hNine : d ≠ '9') : d ∈ nums := by
  simp only [Char.isDigit, Bool.and_eq_true, decide_eq_true_eq, UInt32.le_iff_toNat_le] at hDigit
  have hLow : 48 ≤ d.toNat := hDigit.1
  have hHigh : d.toNat ≤ 57 := hDigit.2
  have hNot : d.toNat ≠ 57 := fun h => hNine (Char.toNat_inj.mp h)
  have hAll : ∀ m < 9, Char.ofNat (48 + m) ∈ nums := by decide
  have hMem := hAll (d.toNat - 48) (by omega)
  rwa [show 48 + (d.toNat - 48) = d.toNat by omega, Char.ofNat_toNat] at hMem

theorem reduceFrom_bounds {prev : Char} (hPrev : prev.isDigit = true) {count : Nat} (hCount : 1 ≤ count)
    (hRun : count = 1 ∨ prev = '9') {ds : Str} (hDigits : ∀ d ∈ ds, d.isDigit = true) :
    (reduceFrom prev count ds).length ≤ count + ds.length ∧
      digitsValue (reduceFrom prev count ds) ≤ digitsValue (List.replicate count prev ++ ds) ∧
      (2 ≤ count ∨ ['9', '9'] <:+: prev :: ds →
        digitsValue (reduceFrom prev count ds) < digitsValue (List.replicate count prev ++ ds)) := by
  have hFront : digitsValue (counted count prev) ≤ digitsValue (List.replicate count prev) ∧
      (2 ≤ count → digitsValue (counted count prev) < digitsValue (List.replicate count prev)) := by
    rcases hRun with rfl | rfl
    · exact ⟨Nat.le_refl _, fun h => absurd h (by decide)⟩
    · refine ⟨?_, digitsValue_counted_lt⟩
      rcases Nat.lt_or_ge count 2 with h | h
      · rw [show count = 1 by omega]
        exact Nat.le_refl _
      · exact (digitsValue_counted_lt h).le
  induction ds generalizing prev count with
  | nil =>
    rw [List.append_nil]
    refine ⟨counted_length hCount prev, hFront.1, ?_⟩
    rintro (h | h)
    · exact hFront.2 h
    · exact absurd h.length_le (by simp)
  | cons d ds ih =>
    have hDigit := hDigits d List.mem_cons_self
    have hTail : ∀ e ∈ ds, e.isDigit = true := fun e he => hDigits e (List.mem_cons_of_mem d he)
    rw [reduceFrom]
    split
    · rename_i hSame
      obtain ⟨rfl, hNums⟩ := hSame
      have hNine : d = '9' := by
        by_contra h
        exact hNums (mem_nums_of_ne hDigit h)
      subst hNine
      obtain ⟨hLength, hLe, hLt⟩ := ih hDigit (Nat.le_add_left 1 count) (.inr rfl) hTail
        ⟨(digitsValue_counted_lt (by omega)).le, fun h => digitsValue_counted_lt h⟩
      rw [List.replicate_succ', List.append_assoc, List.singleton_append] at hLe hLt
      rw [List.length_cons]
      exact ⟨by omega, hLe, fun _ => hLt (.inl (by omega))⟩
    · rename_i hOther
      have hBegins : ¬ ['9', '9'] <+: prev :: d :: ds := by
        intro h
        obtain ⟨rfl, hNext⟩ := List.cons_prefix_cons.mp h
        obtain ⟨rfl, _⟩ := List.cons_prefix_cons.mp hNext
        exact hOther ⟨rfl, by decide⟩
      obtain ⟨hLength, hLe, hLt⟩ := ih hDigit (Nat.le_refl 1) (.inl rfl) hTail ⟨Nat.le_refl _, fun h => absurd h (by decide)⟩
      rw [List.replicate_one, List.singleton_append] at hLe hLt
      have hPow : 10 ^ (reduceFrom d 1 ds).length ≤ 10 ^ (d :: ds).length :=
        Nat.pow_le_pow_right (by decide) (by rw [List.length_cons]; omega)
      have hShift := Nat.mul_le_mul hPow hFront.1
      rw [digitsValue_append, digitsValue_append, List.length_append, List.length_cons]
      refine ⟨?_, Nat.add_le_add hShift hLe, ?_⟩
      · have := counted_length hCount prev
        omega
      · rintro (h | h)
        · have hLess : 10 ^ (reduceFrom d 1 ds).length * digitsValue (counted count prev) <
              10 ^ (d :: ds).length * digitsValue (List.replicate count prev) :=
            Nat.lt_of_le_of_lt (Nat.mul_le_mul_right _ hPow) (Nat.mul_lt_mul_of_pos_left (hFront.2 h) (Nat.pow_pos (by decide)))
          exact Nat.add_lt_add_of_lt_of_le hLess hLe
        · rcases List.infix_cons_iff.mp h with h | h
          · exact absurd h hBegins
          · exact Nat.add_lt_add_of_le_of_lt hShift (hLt (.inr h))

theorem reduceFrom_eq {prev : Char} {ds : Str} (hPrev : prev.isDigit = true) (hDigits : ∀ d ∈ ds, d.isDigit = true)
    (h : ¬ ['9', '9'] <:+: prev :: ds) : reduceFrom prev 1 ds = prev :: ds := by
  induction ds generalizing prev with
  | nil => rfl
  | cons d ds ih =>
    have hDigit := hDigits d List.mem_cons_self
    have hTail : ∀ e ∈ ds, e.isDigit = true := fun e he => hDigits e (List.mem_cons_of_mem d he)
    rw [reduceFrom, if_neg, ih hDigit hTail fun hInfix => h (List.infix_cons_iff.mpr (.inr hInfix))]
    · rfl
    · rintro ⟨rfl, hNums⟩
      have hNine : d = '9' := by
        by_contra hNe
        exact hNums (mem_nums_of_ne hDigit hNe)
      subst hNine
      exact h ⟨[], ds, rfl⟩

theorem reducedCount_le (n : Nat) : reducedCount n ≤ n := by
  obtain ⟨d, ds, hEq, hReduced⟩ := reducePattern_decimal n
  have hDigits := decimal_digits n
  rw [hEq] at hDigits
  have hValue : digitsValue (d :: ds) = n := by rw [← hEq]; exact Nat.ofDigitChars_ten_toDigits
  have hBounds := reduceFrom_bounds (hDigits d List.mem_cons_self) (Nat.le_refl 1) (.inl rfl)
    fun e he => hDigits e (List.mem_cons_of_mem d he)
  rw [List.replicate_one, List.singleton_append, hValue] at hBounds
  rw [reducedCount, hReduced]
  exact hBounds.2.1

theorem reducedCount_eq_iff (n : Nat) : reducedCount n = n ↔ ¬ ['9', '9'] <:+: decimal n := by
  obtain ⟨d, ds, hEq, hReduced⟩ := reducePattern_decimal n
  have hDigits := decimal_digits n
  rw [hEq] at hDigits
  have hHead := hDigits d List.mem_cons_self
  have hTail : ∀ e ∈ ds, e.isDigit = true := fun e he => hDigits e (List.mem_cons_of_mem d he)
  have hValue : digitsValue (d :: ds) = n := by rw [← hEq]; exact Nat.ofDigitChars_ten_toDigits
  rw [reducedCount, hReduced, hEq]
  constructor
  · intro h hNines
    have hLess := (reduceFrom_bounds hHead (Nat.le_refl 1) (.inl rfl) hTail).2.2 (.inr hNines)
    rw [List.replicate_one, List.singleton_append, hValue] at hLess
    exact hLess.ne h
  · intro h
    rw [reduceFrom_eq hHead hTail h]
    exact hValue

end XcRos.Genpy
