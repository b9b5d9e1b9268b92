import XcRos.Genpy.GenerateStruct

/-! # What a reduced pattern describes

A format is read as letters with their repeat counts. It consists of blocks: digits, one letter some times, and behind
it either digits or another letter. `reducePattern` changes a block by itself, so what becomes of a format is put
together from its blocks.
-/

namespace XcRos.Genpy

open XcRos.Foundation XcRos.Msg

/-- The format letters that `struct` knows behind `<`. -/
def formatLetters : List Char := ['x', 'c', 'b', 'B', '?', 'h', 'H', 'i', 'I', 'l', 'L', 'q', 'Q', 'e', 'f', 'd', 's', 'p']

def isBlob (c : Char) : Bool := c == 's' || c == 'p'

/-- The letters behind a repeat count that has been read so far, each with its count. -/
def tokensFrom : Option Nat → Str → Option (List (Nat × Char))
  | none, [] => some []
  | some _, [] => none
  | count, c :: rest =>
    if c.isDigit then tokensFrom (some (10 * count.getD 0 + (c.toNat - '0'.toNat))) rest
    else (tokensFrom none rest).map ((count.getD 1, c) :: ·)

def tokens (format : Str) : Option (List (Nat × Char)) := tokensFrom none format

/-- The format items: a letter, and the length of the bytes that it takes or one. -/
def describe (ts : List (Nat × Char)) : List (Char × Nat) :=
  ts.flatMap fun t => if isBlob t.2 then [(t.2, t.1)] else List.replicate t.1 (t.2, 1)

/-- What a format describes; `none` if a count is not followed by a letter. -/
def described (format : Str) : Option (List (Char × Nat)) := (tokens format).map describe

def IsFormat (format : Str) : Prop :=
  (tokens format).isSome = true ∧ (format.all fun c => c.isDigit || formatLetters.contains c) = true

/-! ## What is counted wrong -/

/-- Two nines stand side by side. -/
def HasNines (format : Str) : Prop := ['9', '9'] <:+: format

/-- Behind a letter with a count stands the same letter. -/
def HasCountedRun (format : Str) : Prop := ∃ d c, d.isDigit = true ∧ c.isDigit = false ∧ [d, c, c] <:+: format

def HasBlobRun (format : Str) : Prop := ∃ c, isBlob c = true ∧ [c, c] <:+: format

/-- None of the runs that are not a repeated letter. -/
def Reducible (format : Str) : Prop := ¬ HasNines format ∧ ¬ HasCountedRun format ∧ ¬ HasBlobRun format

/-! ## The meaning of the counted letters -/

def expandItems : List (Nat × Char) → Option (List Item)
  | [] => some []
  | t :: ts => (countedItems t.1 t.2).bind fun front => (expandItems ts).map (front ++ ·)

theorem itemsFrom_eq (count : Option Nat) (format : Str) :
    itemsFrom count format = (tokensFrom count format).bind expandItems := by
  induction format generalizing count with
  | nil => cases count <;> rfl
  | cons c rest ih =>
    rw [itemsFrom, tokensFrom]
    split
    · exact ih _
    · rw [ih, Option.bind_map]
      cases tokensFrom none rest with
      | none => cases countedItems (count.getD 1) c <;> rfl
      | some ts => rfl

theorem formatItems_eq (format : Str) : formatItems format = (tokens format).bind expandItems := itemsFrom_eq none format

theorem describe_cons (t : Nat × Char) (ts : List (Nat × Char)) :
    describe (t :: ts) = (if isBlob t.2 then [(t.2, t.1)] else List.replicate t.1 (t.2, 1)) ++ describe ts := rfl

def lengths : List (Char × Nat) → Nat
  | [] => 0
  | item :: items => item.2 + lengths items

theorem lengths_append (items more : List (Char × Nat)) : lengths (items ++ more) = lengths items + lengths more := by
  induction items with
  | nil => exact (Nat.zero_add _).symm
  | cons item items ih => rw [List.cons_append, lengths, lengths, ih, Nat.add_assoc]

theorem lengths_replicate (n : Nat) (c : Char) : lengths (List.replicate n (c, 1)) = n := by
  induction n with
  | zero => rfl
  | succ n ih => rw [List.replicate_succ, lengths, ih, Nat.add_comm]

theorem lengths_describe_cons (t : Nat × Char) (ts : List (Nat × Char)) :
    lengths (describe (t :: ts)) = t.1 + lengths (describe ts) := by
  rw [describe_cons, lengths_append]
  split
  · rfl
  · rw [lengths_replicate]

theorem lengths_describe_letters (n : Nat) (c : Char) (ts : List (Nat × Char)) :
    lengths (describe (List.replicate n (1, c) ++ ts)) = n + lengths (describe ts) := by
  induction n with
  | zero => rw [List.replicate_zero, List.nil_append, Nat.zero_add]
  | succ n ih =>
    rw [List.replicate_succ, List.cons_append, lengths_describe_cons, ih]
    omega

/-! ## Runs of a letter -/

/-- The digits and the letter of a run, how often the letter stands there, and what stands behind. -/
structure LetterRun (digits : Str) (c : Char) (k : Nat) (rest : Str) : Prop where
  digits : ∀ d ∈ digits, d.isDigit = true
  letter : c.isDigit = false
  pos : 1 ≤ k
  stop : rest.head? ≠ some c

def countOf (digits : Str) : Nat := if digits = [] then 1 else digitsValue digits

theorem tokens_letter {c : Char} (hLetter : c.isDigit = false) (rest : Str) :
    tokens (c :: rest) = (tokens rest).map ((1, c) :: ·) := by
  rw [tokens, tokensFrom, hLetter, if_neg Bool.false_ne_true]
  rfl

theorem tokensFrom_digits {ds : Str} (hDigits : ∀ d ∈ ds, d.isDigit = true) (n : Nat) (rest : Str) :
    tokensFrom (some n) (ds ++ rest) = tokensFrom (some (Nat.ofDigitChars 10 ds n)) rest := by
  induction ds generalizing n with
  | nil => rw [Nat.ofDigitChars_nil, List.nil_append]
  | cons d ds ih =>
    rw [List.cons_append, tokensFrom, if_pos (hDigits d List.mem_cons_self), Nat.ofDigitChars_cons]
    exact ih (fun e he => hDigits e (List.mem_cons_of_mem d he)) _

theorem tokens_counted {digits : Str} (hDigits : ∀ d ∈ digits, d.isDigit = true) {c : Char} (hLetter : c.isDigit = false)
    (rest : Str) : tokens (digits ++ c :: rest) = (tokens rest).map ((countOf digits, c) :: ·) := by
  cases digits with
  | nil => exact tokens_letter hLetter rest
  | cons d ds =>
    rw [countOf, if_neg (List.cons_ne_nil d ds), List.cons_append, tokens, tokensFrom, if_pos (hDigits d List.mem_cons_self),
      tokensFrom_digits fun e he => hDigits e (List.mem_cons_of_mem d he), tokensFrom, hLetter, if_neg Bool.false_ne_true,
      digitsValue, Nat.ofDigitChars_cons]
    rfl

theorem tokens_letters {c : Char} (hLetter : c.isDigit = false) (k : Nat) (rest : Str) :
    tokens (List.replicate k c ++ rest) = (tokens rest).map (List.replicate k (1, c) ++ ·) := by
  induction k with
  | zero => simp
  | succ k ih =>
    rw [List.replicate_succ, List.cons_append, tokens_letter hLetter, ih, Option.map_map, List.replicate_succ]
    rfl

section

variable {digits : Str} {c : Char} {k : Nat} {rest : Str} (h : LetterRun digits c k rest)

include h

theorem LetterRun.tokens_eq :
    tokens (digits ++ (List.replicate k c ++ rest)) =
      (tokens rest).map fun ts => (countOf digits, c) :: (List.replicate (k - 1) (1, c) ++ ts) := by
  obtain ⟨k, rfl⟩ : ∃ m, k = m + 1 := ⟨k - 1, (Nat.sub_add_cancel h.pos).symm⟩
  rw [List.replicate_succ, List.cons_append, tokens_counted h.digits h.letter, tokens_letters h.letter, Option.map_map]
  rfl

end

/-- `reducePattern` for a pattern without `%`. -/
def reduceText : Str → Str
  | [] => []
  | c :: rest => reduceFrom c 1 rest

theorem reducePattern_eq {format : Str} (h : '%' ∉ format) : reducePattern format = reduceText format := by
  cases format with
  | nil => rfl
  | cons c rest =>
    rw [reducePattern, reduceText]
    split
    · rename_i hOne
      obtain rfl | hPercent := hOne
      · rfl
      · exact absurd hPercent h
    · rfl

theorem reduceFrom_letters {c : Char} (hLetter : c.isDigit = false) (count k : Nat) {rest : Str}
    (hStop : rest.head? ≠ some c) :
    reduceFrom c count (List.replicate k c ++ rest) = counted (count + k) c ++ reduceText rest := by
  have hNums : c ∉ nums := by
    intro h
    have hDigits : ∀ d ∈ nums, d.isDigit = true := by decide
    rw [hDigits c h] at hLetter
    cases hLetter
  induction k generalizing count with
  | zero =>
    cases rest with
    | nil => rw [List.replicate_zero, List.nil_append, reduceFrom, reduceText, List.append_nil, Nat.add_zero]
    | cons d rest =>
      have hOther : d ≠ c := fun h => hStop (congrArg some h)
      rw [List.replicate_zero, List.nil_append, reduceFrom, if_neg fun h => hOther h.1, Nat.add_zero]
      rfl
  | succ k ih =>
    rw [List.replicate_succ, List.cons_append, reduceFrom, if_pos ⟨rfl, hNums⟩, ih, Nat.add_assoc, Nat.add_comm 1]

theorem reduceText_digits {digits : Str} (hDigits : ∀ d ∈ digits, d.isDigit = true) {c : Char} (hLetter : c.isDigit = false)
    (rest : Str) : reduceText (digits ++ c :: rest) = reduceText digits ++ reduceFrom c 1 rest := by
  cases digits with
  | nil => rfl
  | cons d ds =>
    exact reduceFrom_append (hDigits d List.mem_cons_self) 1 (fun e he => hDigits e (List.mem_cons_of_mem d he)) hLetter rest

section

variable {digits : Str} {c : Char} {k : Nat} {rest : Str} (h : LetterRun digits c k rest)

include h

theorem LetterRun.reduceText_eq :
    reduceText (digits ++ (List.replicate k c ++ rest)) = reduceText digits ++ (counted k c ++ reduceText rest) := by
  obtain ⟨k, rfl⟩ : ∃ m, k = m + 1 := ⟨k - 1, (Nat.sub_add_cancel h.pos).symm⟩
  rw [List.replicate_succ, List.cons_append, reduceText_digits h.digits h.letter, reduceFrom_letters h.letter 1 k h.stop,
    Nat.add_comm 1]

def reducedDigits (digits : Str) (k : Nat) : Str := reduceText digits ++ if k > 1 then decimal k else []

theorem LetterRun.tokens_reduceText :
    tokens (reduceText (digits ++ (List.replicate k c ++ rest))) =
      (tokens (reduceText rest)).map ((countOf (reducedDigits digits k), c) :: ·) := by
  have hDigits : ∀ d ∈ reducedDigits digits k, d.isDigit = true := by
    intro d hd
    obtain hd | hd := List.mem_append.mp hd
    · cases digits with
      | nil => cases hd
      | cons e es =>
        exact reduceFrom_digits (h.digits e List.mem_cons_self) 1 (fun e' he => h.digits e' (List.mem_cons_of_mem e he)) d hd
    · split at hd
      · exact decimal_digits k d hd
      · cases hd
  have hCounted : counted k c = (if k > 1 then decimal k else []) ++ [c] := by
    rw [counted]
    split <;> rfl
  rw [h.reduceText_eq, hCounted, List.append_assoc, List.singleton_append, ← List.append_assoc]
  exact tokens_counted hDigits h.letter _

end

@[elab_as_elim]
theorem block_induction {motive : Str → Prop} {format : Str} (h : (tokens format).isSome) (nil : motive [])
    (block : ∀ {digits c k rest}, LetterRun digits c k rest → motive rest →
      motive (digits ++ (List.replicate k c ++ rest))) : motive format := by
  induction hLength : format.length using Nat.strongRecOn generalizing format with
  | ind n ih =>
    subst hLength
    by_cases hEmpty : format = []
    · rw [hEmpty]
      exact nil
    obtain ⟨digits, back, rfl, hDigits, hBack⟩ : ∃ digits back, format = digits ++ back ∧
        (∀ d ∈ digits, d.isDigit = true) ∧ ∀ c, back.head? = some c → c.isDigit = false :=
      ⟨format.takeWhile Char.isDigit, format.dropWhile Char.isDigit, List.takeWhile_append_dropWhile.symm,
        fun d hd => List.mem_takeWhile_imp hd, fun c hc => by
          have hNot := List.head?_dropWhile_not Char.isDigit format
          rw [hc] at hNot
          simpa using hNot⟩
    cases back with
    | nil =>
      -- digits alone are no format
      cases digits with
      | nil => exact absurd rfl hEmpty
      | cons d ds =>
        rw [List.append_nil, ← List.append_nil ds, tokens, tokensFrom, if_pos (hDigits d List.mem_cons_self),
          tokensFrom_digits fun e he => hDigits e (List.mem_cons_of_mem d he)] at h
        cases h
    | cons c more =>
      have hLetter := hBack c rfl
      have hRun : more = List.replicate (more.takeWhile (· == c)).length c ++ more.dropWhile (· == c) := by
        have hSame : more.takeWhile (· == c) = List.replicate (more.takeWhile (· == c)).length c :=
          List.eq_replicate_iff.mpr ⟨rfl, fun d hd => by simpa using List.mem_takeWhile_imp hd⟩
        rw [← hSame, List.takeWhile_append_dropWhile]
      have hStop : (more.dropWhile (· == c)).head? ≠ some c := by
        intro hHead
        have hNot := List.head?_dropWhile_not (· == c) more
        rw [hHead] at hNot
        simp at hNot
      generalize (more.takeWhile (· == c)).length = m at hRun
      generalize more.dropWhile (· == c) = rest at hRun hStop
      subst hRun
      have hBlock : LetterRun digits c (m + 1) rest := ⟨hDigits, hLetter, Nat.le_add_left 1 m, hStop⟩
      have hText : digits ++ c :: (List.replicate m c ++ rest) = digits ++ (List.replicate (m + 1) c ++ rest) := by
        rw [List.replicate_succ, List.cons_append]
      rw [hText] at h ⊢
      have hRest : (tokens rest).isSome := by
        rw [hBlock.tokens_eq, Option.isSome_map] at h
        exact h
      refine block hBlock (ih rest.length ?_ hRest rfl)
      simp only [List.length_append, List.length_cons, List.length_replicate]
      omega

/-! ## Runs in blocks -/

theorem pair_infix_append_iff {x y : Char} {front back : Str} :
    [x, y] <:+: front ++ back ↔
      [x, y] <:+: front ∨ [x, y] <:+: back ∨ (front.getLast? = some x ∧ back.head? = some y) := by
  rw [List.infix_append_iff_ne_nil]
  refine or_congr_right (or_congr_right ⟨?_, ?_⟩)
  · rintro ⟨l₁, l₂, h₁, h₂, hSplit, hSuffix, hPrefix⟩
    obtain ⟨a, l₁, rfl⟩ := List.exists_cons_of_ne_nil h₁
    cases l₁ with
    | cons b l₁ =>
      have hLength := congrArg List.length hSplit
      have hPos := List.length_pos_iff.mpr h₂
      simp only [List.length_cons, List.length_append, List.length_nil] at hLength
      omega
    | nil =>
      cases hSplit
      exact ⟨List.singleton_suffix_iff_getLast?_eq_some.mp hSuffix, List.singleton_prefix_iff_head?_eq_some.mp hPrefix⟩
  · rintro ⟨hLast, hHead⟩
    exact ⟨[x], [y], List.cons_ne_nil _ _, List.cons_ne_nil _ _, rfl,
      List.singleton_suffix_iff_getLast?_eq_some.mpr hLast, List.singleton_prefix_iff_head?_eq_some.mpr hHead⟩

section

variable {digits : Str} {c : Char} {k : Nat} {rest : Str} (h : LetterRun digits c k rest)

include h

theorem LetterRun.ne_of_digit {d : Char} (hd : d.isDigit = true) : c ≠ d := by
  rintro rfl
  have hLetter := h.letter
  rw [hd] at hLetter
  cases hLetter

theorem LetterRun.head? : (List.replicate k c ++ rest).head? = some c := by
  obtain ⟨m, rfl⟩ : ∃ m, k = m + 1 := ⟨k - 1, (Nat.sub_add_cancel h.pos).symm⟩
  rfl

theorem LetterRun.getLast? : (List.replicate k c).getLast? = some c := by
  obtain ⟨m, rfl⟩ : ∃ m, k = m + 1 := ⟨k - 1, (Nat.sub_add_cancel h.pos).symm⟩
  rw [List.replicate_succ', List.getLast?_concat]

theorem LetterRun.pair_iff {x : Char} :
    [x, x] <:+: digits ++ (List.replicate k c ++ rest) ↔
      [x, x] <:+: digits ∨ (x = c ∧ 2 ≤ k) ∨ [x, x] <:+: rest := by
  have hRun : [x, x] <:+: List.replicate k c ↔ x = c ∧ 2 ≤ k := by
    rw [List.infix_replicate_iff]
    constructor
    · rintro ⟨hLength, hEq⟩
      exact ⟨(List.cons.inj hEq).1, hLength⟩
    · rintro ⟨rfl, hTwo⟩
      exact ⟨hTwo, rfl⟩
  rw [pair_infix_append_iff, pair_infix_append_iff, hRun, h.head?, h.getLast?]
  constructor
  · rintro (hDigits | (hLetters | hRest | ⟨hSame, hHead⟩) | ⟨hLast, hSame⟩)
    · exact .inl hDigits
    · exact .inr (.inl hLetters)
    · exact .inr (.inr hRest)
    · exact absurd (hHead.trans hSame.symm) h.stop
    · exact absurd (Option.some.inj hSame) (h.ne_of_digit (h.digits x (List.mem_of_getLast? hLast)))
  · rintro (hDigits | hLetters | hRest)
    · exact .inl hDigits
    · exact .inr (.inl (.inl hLetters))
    · exact .inr (.inl (.inr (.inl hRest)))

theorem LetterRun.hasNines_iff :
    HasNines (digits ++ (List.replicate k c ++ rest)) ↔ HasNines digits ∨ HasNines rest := by
  rw [HasNines, h.pair_iff]
  refine or_congr_right (or_iff_right ?_)
  rintro ⟨hNine, -⟩
  exact h.ne_of_digit (d := '9') rfl hNine.symm

theorem LetterRun.hasBlobRun_iff :
    HasBlobRun (digits ++ (List.replicate k c ++ rest)) ↔ (isBlob c = true ∧ 2 ≤ k) ∨ HasBlobRun rest := by
  constructor
  · rintro ⟨x, hBlob, hInfix⟩
    obtain hDigits | ⟨rfl, hTwo⟩ | hRest := h.pair_iff.mp hInfix
    · have hDigit := h.digits x (hDigits.subset List.mem_cons_self)
      simp only [isBlob, Bool.or_eq_true, beq_iff_eq] at hBlob
      obtain rfl | rfl := hBlob <;> cases hDigit
    · exact .inl ⟨hBlob, hTwo⟩
    · exact .inr ⟨x, hBlob, hRest⟩
  · rintro (⟨hBlob, hTwo⟩ | ⟨x, hBlob, hRest⟩)
    · exact ⟨c, hBlob, h.pair_iff.mpr (.inr (.inl ⟨rfl, hTwo⟩))⟩
    · exact ⟨x, hBlob, h.pair_iff.mpr (.inr (.inr hRest))⟩

theorem LetterRun.hasCountedRun_iff :
    HasCountedRun (digits ++ (List.replicate k c ++ rest)) ↔ (digits ≠ [] ∧ 2 ≤ k) ∨ HasCountedRun rest := by
  constructor
  · rintro ⟨d, x, hd, hx, hInfix⟩
    have hNotDigit : x ∉ digits := by
      intro hMem
      rw [h.digits x hMem] at hx
      cases hx
    rw [List.infix_append_iff_ne_nil] at hInfix
    obtain hDigits | hBack | ⟨l₁, l₂, h₁, h₂, hSplit, hSuffix, hPrefix⟩ := hInfix
    · exact absurd (hDigits.subset (by simp)) hNotDigit
    · -- the first of the three is a digit, so it does not stand among the letters of the block
      refine .inr ⟨d, x, hd, hx, ?_⟩
      have hLetters : ∀ n, [d, x, x] <:+: List.replicate n c ++ rest → [d, x, x] <:+: rest := by
        intro n hInfix
        induction n with
        | zero => exact hInfix
        | succ n ih =>
          rw [List.replicate_succ, List.cons_append, List.infix_cons_iff] at hInfix
          obtain hPrefix | hInfix := hInfix
          · exact absurd (List.cons_prefix_cons.mp hPrefix).1.symm (h.ne_of_digit hd)
          · exact ih hInfix
      exact hLetters k hBack
    · obtain ⟨e, l₁, rfl⟩ := List.exists_cons_of_ne_nil h₁
      obtain ⟨rfl, hTail⟩ := List.cons.inj hSplit
      cases l₁ with
      | cons e l₁ =>
        obtain ⟨rfl, -⟩ := List.cons.inj hTail
        exact absurd (hSuffix.subset (by simp)) hNotDigit
      | nil =>
        cases hTail
        have hNonempty : digits ≠ [] := by
          rintro rfl
          exact absurd hSuffix.length_le (by simp)
        refine .inl ⟨hNonempty, ?_⟩
        by_contra hOne
        obtain rfl : k = 1 := by have := h.pos; omega
        obtain ⟨rfl, hNext⟩ := List.cons_prefix_cons.mp hPrefix
        exact h.stop (List.singleton_prefix_iff_head?_eq_some.mp hNext)
  · rintro (⟨hNonempty, hTwo⟩ | ⟨d, x, hd, hx, hRest⟩)
    · obtain ⟨m, rfl⟩ : ∃ m, k = m + 2 := ⟨k - 2, (Nat.sub_add_cancel hTwo).symm⟩
      have hLast : digits.getLast hNonempty ∈ digits := List.getLast_mem hNonempty
      refine ⟨digits.getLast hNonempty, c, h.digits _ hLast, h.letter, digits.dropLast, List.replicate m c ++ rest, ?_⟩
      calc
        digits.dropLast ++ [digits.getLast hNonempty, c, c] ++ (List.replicate m c ++ rest)
            = digits.dropLast ++ [digits.getLast hNonempty] ++ (c :: c :: (List.replicate m c ++ rest)) := by simp
        _ = digits ++ (List.replicate (m + 2) c ++ rest) := by
            rw [List.dropLast_append_getLast, List.replicate_succ, List.replicate_succ, List.cons_append, List.cons_append]
    · exact ⟨d, x, hd, hx, hRest.trans ((List.suffix_append _ _).trans (List.suffix_append _ _)).isInfix⟩

end

/-! ## The counts of a block -/

theorem reduceText_of_not_nines {digits : Str} (hDigits : ∀ d ∈ digits, d.isDigit = true) (h : ¬ HasNines digits) :
    reduceText digits = digits := by
  cases digits with
  | nil => rfl
  | cons d ds => exact reduceFrom_eq (hDigits d List.mem_cons_self) (fun e he => hDigits e (List.mem_cons_of_mem d he)) h

theorem reducedDigits_one (digits : Str) : reducedDigits digits 1 = reduceText digits := List.append_nil _

theorem countOf_reducedDigits {digits : Str} {k : Nat} (hk : 2 ≤ k) :
    countOf (reducedDigits digits k) = 10 ^ (decimal k).length * digitsValue (reduceText digits) + k := by
  have hValue : digitsValue (decimal k) = k := Nat.ofDigitChars_ten_toDigits
  have hText : reducedDigits digits k = reduceText digits ++ decimal k := by rw [reducedDigits, if_pos (show k > 1 from hk)]
  rw [countOf, hText, if_neg (List.append_ne_nil_of_right_ne_nil _ (decimal_ne_nil k)), digitsValue_append, hValue]

theorem countOf_reducedDigits_nil {k : Nat} (hk : 1 ≤ k) : countOf (reducedDigits [] k) = k := by
  obtain rfl | hTwo := Nat.eq_or_lt_of_le hk
  · rfl
  · have hZero : digitsValue (reduceText []) = 0 := rfl
    rw [countOf_reducedDigits hTwo, hZero, Nat.mul_zero, Nat.zero_add]

theorem countOf_reducedDigits_ge {digits : Str} (hDigits : ∀ d ∈ digits, d.isDigit = true) (hNines : ¬ HasNines digits)
    {k : Nat} (hk : 1 ≤ k) :
    countOf digits + (k - 1) ≤ countOf (reducedDigits digits k) ∧
      (digits ≠ [] ∧ 2 ≤ k → countOf digits + (k - 1) < countOf (reducedDigits digits k)) := by
  by_cases hEmpty : digits = []
  · rw [hEmpty, countOf_reducedDigits_nil hk]
    refine ⟨?_, fun h => absurd rfl h.1⟩
    show 1 + (k - 1) ≤ k
    omega
  · have hSame := reduceText_of_not_nines hDigits hNines
    obtain rfl | hTwo := Nat.eq_or_lt_of_le hk
    · rw [reducedDigits_one, hSame]
      exact ⟨Nat.le_refl _, fun h => absurd h.2 (by decide)⟩
    · have hPow : 1 * digitsValue digits ≤ 10 ^ (decimal k).length * digitsValue digits :=
        Nat.mul_le_mul_right _ (Nat.pow_pos (by decide))
      rw [countOf_reducedDigits hTwo, hSame, countOf, if_neg hEmpty]
      exact ⟨by omega, fun _ => by omega⟩

theorem countOf_reducedDigits_le {digits : Str} (hDigits : ∀ d ∈ digits, d.isDigit = true) {k : Nat} (hk : 1 ≤ k)
    (hRun : ¬ (digits ≠ [] ∧ 2 ≤ k)) :
    countOf (reducedDigits digits k) ≤ countOf digits + (k - 1) ∧
      (HasNines digits → countOf (reducedDigits digits k) < countOf digits + (k - 1)) := by
  cases digits with
  | nil =>
    rw [countOf_reducedDigits_nil hk]
    refine ⟨?_, fun h => absurd h.length_le (by decide)⟩
    show k ≤ 1 + (k - 1)
    omega
  | cons d ds =>
    have hOne : k = 1 := by
      by_contra hMore
      exact hRun ⟨List.cons_ne_nil d ds, by omega⟩
    have hBounds := reduceFrom_bounds (hDigits d List.mem_cons_self) (Nat.le_refl 1) (.inl rfl)
      fun e he => hDigits e (List.mem_cons_of_mem d he)
    rw [List.replicate_one, List.singleton_append] at hBounds
    have hReduced : countOf (reduceText (d :: ds)) = digitsValue (reduceFrom d 1 ds) := if_neg (reduceFrom_ne_nil d 1 ds)
    rw [hOne, reducedDigits_one, hReduced, countOf, if_neg (List.cons_ne_nil d ds)]
    exact ⟨hBounds.2.1, fun h => hBounds.2.2 (.inr h)⟩

/-! ## The items of a reduced format -/

structure Reduces (format : Str) (ts ts' : List (Nat × Char)) : Prop where
  before : tokens format = some ts
  after : tokens (reduceText format) = some ts'

theorem reduces_nil : Reduces [] [] [] := ⟨rfl, rfl⟩

theorem Reduces.block {digits : Str} {c : Char} {k : Nat} {rest : Str} (h : LetterRun digits c k rest)
    {ts ts' : List (Nat × Char)} (hRest : Reduces rest ts ts') :
    Reduces (digits ++ (List.replicate k c ++ rest)) ((countOf digits, c) :: (List.replicate (k - 1) (1, c) ++ ts))
      ((countOf (reducedDigits digits k), c) :: ts') :=
  ⟨by rw [h.tokens_eq, hRest.before]; rfl, by rw [h.tokens_reduceText, hRest.after]; rfl⟩

theorem lengths_block (n k : Nat) (c : Char) (ts : List (Nat × Char)) :
    lengths (describe ((n, c) :: (List.replicate k (1, c) ++ ts))) = n + k + lengths (describe ts) := by
  rw [lengths_describe_cons, lengths_describe_letters, Nat.add_assoc]

theorem lengths_ge {format : Str} (h : (tokens format).isSome) : ¬ HasNines format →
    ∃ ts ts', Reduces format ts ts' ∧ lengths (describe ts) ≤ lengths (describe ts') ∧
      (HasCountedRun format → lengths (describe ts) < lengths (describe ts')) := by
  refine block_induction h ?_ ?_
  · refine fun _ => ⟨[], [], reduces_nil, Nat.le_refl _, ?_⟩
    rintro ⟨d, c, -, -, hInfix⟩
    exact absurd hInfix.length_le (by simp)
  · intro digits c k rest hBlock ih hNines
    obtain ⟨hDigits, hRest⟩ := not_or.mp (mt hBlock.hasNines_iff.mpr hNines)
    obtain ⟨ts, ts', hReduces, hLe, hLt⟩ := ih hRest
    obtain ⟨hCount, hMore⟩ := countOf_reducedDigits_ge hBlock.digits hDigits hBlock.pos
    refine ⟨_, _, hReduces.block hBlock, ?_⟩
    rw [lengths_block, lengths_describe_cons]
    refine ⟨Nat.add_le_add hCount hLe, fun hRun => ?_⟩
    obtain hHere | hThere := hBlock.hasCountedRun_iff.mp hRun
    · exact Nat.add_lt_add_of_lt_of_le (hMore hHere) hLe
    · exact Nat.add_lt_add_of_le_of_lt hCount (hLt hThere)

theorem lengths_le {format : Str} (h : (tokens format).isSome) : ¬ HasCountedRun format →
    ∃ ts ts', Reduces format ts ts' ∧ lengths (describe ts') ≤ lengths (describe ts) ∧
      (HasNines format → lengths (describe ts') < lengths (describe ts)) := by
  refine block_induction h ?_ ?_
  · exact fun _ => ⟨[], [], reduces_nil, Nat.le_refl _, fun hNines => absurd hNines.length_le (by decide)⟩
  · intro digits c k rest hBlock ih hRun
    obtain ⟨hHere, hThere⟩ := not_or.mp (mt hBlock.hasCountedRun_iff.mpr hRun)
    obtain ⟨ts, ts', hReduces, hLe, hLt⟩ := ih hThere
    obtain ⟨hCount, hLess⟩ := countOf_reducedDigits_le hBlock.digits hBlock.pos hHere
    refine ⟨_, _, hReduces.block hBlock, ?_⟩
    rw [lengths_block, lengths_describe_cons]
    refine ⟨Nat.add_le_add hCount hLe, fun hNines => ?_⟩
    obtain hDigits | hRest := hBlock.hasNines_iff.mp hNines
    · exact Nat.add_lt_add_of_lt_of_le (hLess hDigits) hLe
    · exact Nat.add_lt_add_of_le_of_lt hCount (hLt hRest)

/-! ## Repeated letters -/

theorem describe_letters {c : Char} (hPlain : isBlob c = false) (n : Nat) (ts : List (Nat × Char)) :
    describe (List.replicate n (1, c) ++ ts) = List.replicate n (c, 1) ++ describe ts := by
  induction n with
  | zero => rfl
  | succ n ih =>
    rw [List.replicate_succ, List.cons_append, describe_cons, ih, hPlain, if_neg Bool.false_ne_true]
    rfl

theorem cons_replicate {c : Char} {k : Nat} (hk : 1 ≤ k) (ts : List (Nat × Char)) :
    (1, c) :: (List.replicate (k - 1) (1, c) ++ ts) = List.replicate k (1, c) ++ ts := by
  obtain ⟨m, rfl⟩ : ∃ m, k = m + 1 := ⟨k - 1, (Nat.sub_add_cancel hk).symm⟩
  rfl

theorem describe_run {c : Char} (hPlain : isBlob c = false) {k : Nat} (hk : 1 ≤ k) (ts : List (Nat × Char)) :
    describe ((1, c) :: (List.replicate (k - 1) (1, c) ++ ts)) = describe ((k, c) :: ts) := by
  rw [cons_replicate hk, describe_letters hPlain, describe_cons, hPlain, if_neg Bool.false_ne_true]

theorem expandItems_letters {c : Char} (hPlain : isBlob c = false) {k : Nat} (hk : 1 ≤ k) (ts : List (Nat × Char)) :
    expandItems (List.replicate k (1, c) ++ ts) = expandItems ((k, c) :: ts) := by
  have hNot : c ≠ 's' := by
    rintro rfl
    cases hPlain
  have hCounted : ∀ n, countedItems n c = (Code.ofLetter c).map fun code => List.replicate n (.value code) :=
    fun n => if_neg hNot
  induction k, hk using Nat.le_induction with
  | base => rfl
  | succ k hk ih =>
    rw [List.replicate_succ, List.cons_append, expandItems, ih, expandItems, expandItems]
    simp only [hCounted]
    cases Code.ofLetter c with
    | none => rfl
    | some code =>
      cases expandItems ts with
      | none => rfl
      | some items => rfl

theorem reduces_same {format : Str} (h : (tokens format).isSome) : Reducible format →
    ∃ ts ts', Reduces format ts ts' ∧ describe ts' = describe ts ∧ expandItems ts' = expandItems ts := by
  refine block_induction h ?_ ?_
  · exact fun _ => ⟨[], [], reduces_nil, rfl, rfl⟩
  · rintro digits c k rest hBlock ih ⟨hNines, hRun, hBlob⟩
    obtain ⟨hDigits, hNinesRest⟩ := not_or.mp (mt hBlock.hasNines_iff.mpr hNines)
    obtain ⟨hCount, hRunRest⟩ := not_or.mp (mt hBlock.hasCountedRun_iff.mpr hRun)
    obtain ⟨hLetter, hBlobRest⟩ := not_or.mp (mt hBlock.hasBlobRun_iff.mpr hBlob)
    obtain ⟨ts, ts', hReduces, hItems, hExpand⟩ := ih ⟨hNinesRest, hRunRest, hBlobRest⟩
    refine ⟨_, _, hReduces.block hBlock, ?_⟩
    have hPos := hBlock.pos
    obtain rfl | hTwo := Nat.eq_or_lt_of_le hPos
    · rw [reducedDigits_one, reduceText_of_not_nines hBlock.digits hDigits]
      refine ⟨?_, ?_⟩
      · rw [describe_cons, describe_cons, hItems]
        rfl
      · rw [expandItems, hExpand]
        rfl
    · have hNone : digits = [] := by
        by_contra hSome
        exact hCount ⟨hSome, hTwo⟩
      have hPlain : isBlob c = false := by
        rw [← Bool.not_eq_true]
        exact fun hTakes => hLetter ⟨hTakes, hTwo⟩
      subst hNone
      rw [countOf_reducedDigits_nil hPos]
      have hOne : countOf [] = 1 := rfl
      rw [hOne]
      refine ⟨?_, ?_⟩
      · rw [describe_run hPlain hPos, describe_cons, describe_cons, hItems]
      · rw [cons_replicate hPos, expandItems_letters hPlain hPos, expandItems, hExpand, expandItems]

theorem length_describe_letters (n : Nat) (c : Char) (ts : List (Nat × Char)) :
    (describe (List.replicate n (1, c) ++ ts)).length = n + (describe ts).length := by
  induction n with
  | zero => exact (Nat.zero_add _).symm
  | succ n ih =>
    have hOne : (if isBlob c then [(c, 1)] else List.replicate 1 (c, 1)).length = 1 := by split <;> rfl
    rw [List.replicate_succ, List.cons_append, describe_cons, List.length_append, ih]
    dsimp only
    rw [hOne]
    omega

theorem items_le {format : Str} (h : (tokens format).isSome) : ¬ HasNines format → ¬ HasCountedRun format →
    ∃ ts ts', Reduces format ts ts' ∧ (describe ts').length ≤ (describe ts).length ∧
      (HasBlobRun format → (describe ts').length < (describe ts).length) := by
  refine block_induction h ?_ ?_
  · refine fun _ _ => ⟨[], [], reduces_nil, Nat.le_refl _, ?_⟩
    rintro ⟨c, -, hInfix⟩
    exact absurd hInfix.length_le (by simp)
  · intro digits c k rest hBlock ih hNines hRun
    obtain ⟨hDigits, hNinesRest⟩ := not_or.mp (mt hBlock.hasNines_iff.mpr hNines)
    obtain ⟨hCount, hRunRest⟩ := not_or.mp (mt hBlock.hasCountedRun_iff.mpr hRun)
    obtain ⟨ts, ts', hReduces, hLe, hLt⟩ := ih hNinesRest hRunRest
    refine ⟨_, _, hReduces.block hBlock, ?_⟩
    obtain rfl | hTwo := Nat.eq_or_lt_of_le hBlock.pos
    · -- the letter stands there once, and nothing changes
      rw [reducedDigits_one, reduceText_of_not_nines hBlock.digits hDigits, describe_cons, describe_cons,
        List.length_append, List.length_append]
      refine ⟨Nat.add_le_add_left hLe _, fun hBlob => Nat.add_lt_add_left ?_ _⟩
      obtain hHere | hThere := hBlock.hasBlobRun_iff.mp hBlob
      · exact absurd hHere.2 (by decide)
      · exact hLt hThere
    · have hNone : digits = [] := by
        by_contra hSome
        exact hCount ⟨hSome, hTwo⟩
      have hOne : countOf [] = 1 := rfl
      subst hNone
      rw [countOf_reducedDigits_nil hBlock.pos, hOne, cons_replicate hBlock.pos, length_describe_letters, describe_cons, List.length_append]
      dsimp only
      cases hBlob : isBlob c with
      | true =>
        rw [if_pos rfl, List.length_singleton]
        exact ⟨by omega, fun _ => by omega⟩
      | false =>
        rw [if_neg Bool.false_ne_true, List.length_replicate]
        refine ⟨Nat.add_le_add_left hLe _, fun hRuns => Nat.add_lt_add_left ?_ _⟩
        obtain hHere | hThere := hBlock.hasBlobRun_iff.mp hRuns
        · rw [hBlob] at hHere
          exact absurd hHere.1 Bool.false_ne_true
        · exact hLt hThere

/-- What a format describes is kept without nines side by side, a run behind a count and a run of letters that take
lengths. With one of them it is not kept, unless a run behind a count makes up for nines. -/
theorem described_reducePattern {format : Str} (h : IsFormat format) :
    (Reducible format → described (reducePattern format) = described format ∧
      formatItems (reducePattern format) = formatItems format) ∧
    (¬ Reducible format → ¬ (HasNines format ∧ HasCountedRun format) →
      described (reducePattern format) ≠ described format) := by
  have hPercent : '%' ∉ format := fun hMem => absurd (List.all_eq_true.mp h.2 _ hMem) (by decide)
  rw [reducePattern_eq hPercent, described, described]
  refine ⟨fun hReducible => ?_, fun hNot hBoth hSame => ?_⟩
  · obtain ⟨ts, ts', hReduces, hItems, hExpand⟩ := reduces_same h.1 hReducible
    rw [formatItems_eq, formatItems_eq, hReduces.before, hReduces.after]
    exact ⟨congrArg some hItems, hExpand⟩
  · by_cases hNines : HasNines format
    · have hRun : ¬ HasCountedRun format := fun hRun => hBoth ⟨hNines, hRun⟩
      obtain ⟨ts, ts', hReduces, -, hLess⟩ := lengths_le h.1 hRun
      rw [hReduces.before, hReduces.after] at hSame
      exact (hLess hNines).ne (congrArg lengths (Option.some.inj hSame))
    · by_cases hRun : HasCountedRun format
      · obtain ⟨ts, ts', hReduces, -, hMore⟩ := lengths_ge h.1 hNines
        rw [hReduces.before, hReduces.after] at hSame
        exact (hMore hRun).ne' (congrArg lengths (Option.some.inj hSame))
      · have hBlob : HasBlobRun format := by
          by_contra hNone
          exact hNot ⟨hNines, hRun, hNone⟩
        obtain ⟨ts, ts', hReduces, -, hFewer⟩ := items_le h.1 hNines hRun
        rw [hReduces.before, hReduces.after] at hSame
        exact (hFewer hBlob).ne (congrArg List.length (Option.some.inj hSame))

-- seventy items are lost with the nines, and ten are won with each of the runs
example : described (reducePattern (str "99B1BB1BB1BB1BB1BB1BB1BB")) = described (str "99B1BB1BB1BB1BB1BB1BB1BB") := by
  decide

theorem described_reducePattern_run :
    ¬ Reducible (str "2BB") ∧ described (reducePattern (str "2BB")) ≠ described (str "2BB") := by
  have hRun : HasCountedRun (str "2BB") := ⟨'2', 'B', rfl, rfl, List.infix_rfl⟩
  have hNot : ¬ Reducible (str "2BB") := fun h => h.2.1 hRun
  have hNines : ¬ HasNines (str "2BB") := fun h => absurd (h.subset List.mem_cons_self) (by decide)
  exact ⟨hNot, (described_reducePattern ⟨rfl, rfl⟩).2 hNot fun h => hNines h.1⟩

/-- The count of a fixed array, a count in front of a run, and strings without lengths. -/
theorem described_reducePattern_differs :
    described (reducePattern (str "99B")) ≠ described (str "99B") ∧
      described (reducePattern (str "2BB")) ≠ described (str "2BB") ∧
      described (reducePattern (str "ss")) ≠ described (str "ss") := by decide

end XcRos.Genpy
