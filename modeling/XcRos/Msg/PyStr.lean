import Mathlib

/-! # Python strings

The methods of `str` that the message library uses, on lists of characters.
-/

namespace XcRos.Msg

abbrev Str := List Char

def str (s : String) : Str := s.toList

/-- Only the letters of the text are looked at, and not all that there are. -/
scoped instance (priority := high) decidableForallMem (s : Str) (p : Char → Prop) [DecidablePred p] :
    Decidable (∀ c ∈ s, p c) := List.decidableBAll p s

scoped instance (priority := high) decidableForallOption (p : Char → Prop) [DecidablePred p] :
    (o : Option Char) → Decidable (∀ c ∈ o, p c)
  | none => .isTrue nofun
  | some c => decidable_of_iff (p c) (by simp)

/-- `str.isspace` of one character. -/
def isspace (c : Char) : Bool :=
  let n := c.toNat
  (9 ≤ n && n ≤ 13) || (0x1C ≤ n && n ≤ 0x20) || n == 0x85 || n == 0xA0 || n == 0x1680 ||
    (0x2000 ≤ n && n ≤ 0x200A) || n == 0x2028 || n == 0x2029 || n == 0x202F || n == 0x205F || n == 0x3000

def lstrip (s : Str) : Str := s.dropWhile isspace

/-- `str.strip()` -/
def strip (s : Str) : Str := (lstrip s).rdropWhile isspace

/-- `str.split(sep)` for a separator of one character. -/
def split (sep : Char) : Str → List Str
  | [] => [[]]
  | c :: rest =>
    if c = sep then [] :: split sep rest
    else
      match split sep rest with
      | [] => [[c]]
      | part :: parts => (c :: part) :: parts

theorem split_eq_splitOn (sep : Char) (s : Str) : split sep s = s.splitOn sep := by
  induction s with
  | nil => rfl
  | cons c rest ih =>
    rw [split, List.splitOn_cons_eq_if_modifyHead, ih]
    by_cases hc : c = sep
    · rw [if_pos hc, if_pos (by simpa using hc)]
    · rw [if_neg hc, if_neg (by simpa using hc)]
      obtain ⟨part, parts, hSplit⟩ := List.exists_cons_of_ne_nil (List.splitOn_ne_nil sep rest)
      rw [hSplit]
      rfl

theorem split_append_cons {sep : Char} {front : Str} (h : sep ∉ front) (back : Str) :
    split sep (front ++ sep :: back) = front :: split sep back := by
  induction front with
  | nil => exact if_pos rfl
  | cons c front ih =>
    have hc : c ≠ sep := fun hEq => h (hEq ▸ List.mem_cons_self)
    rw [List.cons_append, split, if_neg hc, ih fun hMem => h (List.mem_cons_of_mem c hMem)]

theorem split_of_not_mem {sep : Char} {s : Str} (h : sep ∉ s) : split sep s = [s] := by
  rw [split_eq_splitOn, List.splitOn_eq_singleton h]

/-- `s.find(c)` -/
def find (c : Char) (s : Str) : Int :=
  match s.idxOf? c with
  | some i => i
  | none => -1

/-- `s[start:stop]`; negative places count from the end. -/
def slice (s : Str) (start stop : Int) : Str :=
  let place (i : Int) : Nat := (if i < 0 then i + s.length else i).toNat
  (s.take (place stop)).drop (place start)

/-- `\w` of a pattern; beyond ASCII the Unicode database decides. -/
def isWord (unicodeWord : Char → Bool) (c : Char) : Bool :=
  c.isAlphanum || c == '_' || (128 ≤ c.toNat && unicodeWord c)

/-- The code points of the digits zero: each starts a row of ten decimal digits. -/
def digitZeros : List Nat :=
  [0x30, 0x660, 0x6f0, 0x7c0, 0x966, 0x9e6, 0xa66, 0xae6, 0xb66, 0xbe6, 0xc66, 0xce6, 0xd66, 0xde6, 0xe50,
    0xed0, 0xf20, 0x1040, 0x1090, 0x17e0, 0x1810, 0x1946, 0x19d0, 0x1a80, 0x1a90, 0x1b50, 0x1bb0, 0x1c40,
    0x1c50, 0xa620, 0xa8d0, 0xa900, 0xa9d0, 0xa9f0, 0xaa50, 0xabf0, 0xff10, 0x104a0, 0x10d30, 0x11066,
    0x110f0, 0x11136, 0x111d0, 0x112f0, 0x11450, 0x114d0, 0x11650, 0x116c0, 0x11730, 0x118e0, 0x11950,
    0x11c50, 0x11d50, 0x11da0, 0x16a60, 0x16ac0, 0x16b50, 0x1d7ce, 0x1d7d8, 0x1d7e2, 0x1d7ec, 0x1d7f6,
    0x1e140, 0x1e2f0, 0x1e950, 0x1fbf0]

def decimalDigit (c : Char) : Option Nat :=
  (digitZeros.find? fun row => row ≤ c.toNat && c.toNat < row + 10).map fun row => c.toNat - row

/-- The digits of an integer literal behind its first; single underscores may stand between digits. -/
def digitsFrom (value : Nat) : Str → Option Nat
  | [] => some value
  | '_' :: c :: rest =>
    match decimalDigit c with
    | some d => digitsFrom (10 * value + d) rest
    | none => none
  | c :: rest =>
    match decimalDigit c with
    | some d => digitsFrom (10 * value + d) rest
    | none => none

def digits : Str → Option Nat
  | [] => none
  | c :: rest =>
    match decimalDigit c with
    | some d => digitsFrom d rest
    | none => none

/-- `int(s)` -/
def int (s : Str) : Option Int :=
  match strip s with
  | '-' :: rest => (digits rest).map fun n => -(n : Int)
  | '+' :: rest => (digits rest).map fun n => (n : Int)
  | rest => (digits rest).map fun n => (n : Int)

theorem strip_line {body : Str} {first last : Char} {inner : Str} (hFirst : body.head? = some first)
    (hLast : body = inner ++ [last]) (hFirstBlank : isspace first = false) (hLastBlank : isspace last = false) :
    strip (body ++ ['\n']) = body := by
  obtain ⟨tail, rfl⟩ : ∃ tail, body = first :: tail := by
    cases body with
    | nil => cases hFirst
    | cons c tail =>
      cases hFirst
      exact ⟨tail, rfl⟩
  have hLeft : lstrip (first :: tail ++ ['\n']) = first :: tail ++ ['\n'] := by
    rw [lstrip, List.cons_append, List.dropWhile_cons_of_neg (by simp [hFirstBlank])]
  rw [strip, hLeft, List.rdropWhile_concat_pos _ _ _ (by decide), hLast,
    List.rdropWhile_concat_neg _ _ _ (by simp [hLastBlank])]

/-! ## Blanks around a text -/

def Trimmed (s : Str) : Prop :=
  (∀ c ∈ s.head?, isspace c = false) ∧ ∀ c ∈ s.getLast?, isspace c = false

instance : DecidablePred Trimmed := fun s =>
  inferInstanceAs (Decidable ((∀ c ∈ s.head?, isspace c = false) ∧ ∀ c ∈ s.getLast?, isspace c = false))

theorem lstrip_append {lead : Str} (hLead : ∀ c ∈ lead, isspace c = true) (s : Str) :
    lstrip (lead ++ s) = lstrip s :=
  List.dropWhile_append_of_pos hLead

theorem lstrip_of_head {s : Str} (h : ∀ c ∈ s.head?, isspace c = false) : lstrip s = s := by
  cases s with
  | nil => rfl
  | cons c rest => exact List.dropWhile_cons_of_neg (by simp [h c rfl])

theorem rdropWhile_append {tail : Str} (hTail : ∀ c ∈ tail, isspace c = true) (s : Str) :
    (s ++ tail).rdropWhile isspace = s.rdropWhile isspace := by
  rw [List.rdropWhile, List.reverse_append, List.dropWhile_append_of_pos, List.rdropWhile]
  exact fun c hc => hTail c (List.mem_reverse.mp hc)

theorem rdropWhile_append_cons {c : Char} (hc : isspace c = false) (front back : Str) :
    (front ++ c :: back).rdropWhile isspace = front ++ c :: back.rdropWhile isspace := by
  induction back using List.reverseRecOn with
  | nil => exact List.rdropWhile_concat_neg _ _ _ (by simp [hc])
  | append_singleton back last ih =>
    cases hLast : isspace last with
    | true =>
      rw [List.rdropWhile_concat_pos _ _ _ hLast, ← List.cons_append, ← List.append_assoc,
        List.rdropWhile_concat_pos _ _ _ hLast, ih]
    | false =>
      rw [List.rdropWhile_concat_neg _ _ _ (by simp [hLast]), ← List.cons_append, ← List.append_assoc,
        List.rdropWhile_concat_neg _ _ _ (by simp [hLast])]

theorem rdropWhile_of_last {s : Str} (h : ∀ c ∈ s.getLast?, isspace c = false) :
    s.rdropWhile isspace = s := by
  cases s using List.reverseRecOn with
  | nil => rfl
  | append_singleton front last =>
    exact List.rdropWhile_concat_neg _ _ _ (by simp [h last (by simp)])

theorem Trimmed.strip {s : Str} (h : Trimmed s) : strip s = s := by
  rw [Msg.strip, lstrip_of_head h.1, rdropWhile_of_last h.2]

theorem strip_blanks_append {lead : Str} (hLead : ∀ c ∈ lead, isspace c = true) (s : Str) :
    strip (lead ++ s) = strip s := by
  rw [strip, lstrip_append hLead, strip]

theorem strip_append_blanks {tail : Str} (hTail : ∀ c ∈ tail, isspace c = true) (s : Str) :
    strip (s ++ tail) = strip s := by
  rw [strip, strip]
  by_cases hs : ∀ c ∈ s, isspace c = true
  · rw [lstrip_append hs, lstrip, List.dropWhile_eq_nil_iff.mpr hTail, lstrip, List.dropWhile_eq_nil_iff.mpr hs]
  · have hSome : lstrip s ≠ [] := fun h => hs (List.dropWhile_eq_nil_iff.mp h)
    have hSplit : lstrip (s ++ tail) = lstrip s ++ tail := by
      rw [lstrip, List.dropWhile_append, if_neg (by simpa [lstrip] using hSome), lstrip]
    rw [hSplit, rdropWhile_append hTail]

theorem trimmed_strip (s : Str) : Trimmed (strip s) := by
  constructor
  · intro c hc
    have hPrefix : strip s <+: lstrip s := List.rdropWhile_prefix _ _
    have hHead : (lstrip s).head? = some c := by
      obtain ⟨rest, hRest⟩ := hPrefix
      rw [← hRest, List.head?_append_of_ne_nil _ (by rintro h; rw [h] at hc; cases hc)]
      exact hc
    have hNot := List.head?_dropWhile_not isspace s
    rw [show s.dropWhile isspace = lstrip s from rfl, hHead] at hNot
    simpa using hNot
  · intro c hc
    obtain ⟨hSome, rfl⟩ := List.mem_getLast?_eq_getLast hc
    exact Bool.not_eq_true _ ▸ List.rdropWhile_last_not isspace (lstrip s) hSome

theorem exists_blanks (s : Str) : ∃ lead tail, (∀ c ∈ lead, isspace c = true) ∧
    (∀ c ∈ tail, isspace c = true) ∧ s = lead ++ strip s ++ tail := by
  refine ⟨s.takeWhile isspace, (lstrip s).rtakeWhile isspace, fun c hc => ?_, fun c hc => ?_, ?_⟩
  · exact List.mem_takeWhile_imp hc
  · exact List.mem_rtakeWhile_imp hc
  · rw [strip, List.append_assoc, List.rdropWhile_append_rtakeWhile, lstrip, List.takeWhile_append_dropWhile]

theorem mem_strip_iff {c : Char} (hc : isspace c = false) (s : Str) : c ∈ strip s ↔ c ∈ s := by
  obtain ⟨lead, tail, hLead, hTail, hText⟩ := exists_blanks s
  have hLeadNot : c ∉ lead := fun h => absurd (hLead c h) (by rw [hc]; decide)
  have hTailNot : c ∉ tail := fun h => absurd (hTail c h) (by rw [hc]; decide)
  conv_rhs => rw [hText]
  simp only [List.mem_append, hLeadNot, hTailNot, false_or, or_false]

end XcRos.Msg
