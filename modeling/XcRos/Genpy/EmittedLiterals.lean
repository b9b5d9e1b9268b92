import Mathlib.Algebra.Group.Nat.Even
import XcRos.Foundation.Outcome
import XcRos.Genpy.EscapedText
import XcRos.Msg.DeclaredNames
import XcRos.Msg.FullText

/-! # The literals of a message module

A message module holds the full text of its message between triple quotes, and the string constants of the message
in quotes that are chosen by what the constant contains.
-/

namespace XcRos.Genpy

open XcRos.Foundation XcRos.Msg Relation

/-- `compute_full_text_escaped` -/
def computeFullTextEscaped (ctx : DependContext) (fuel : Nat) (spec : MsgSpec) : Option (Except DependError Str) :=
  (computeFullText ctx fuel spec).map fun msgDefinition => msgDefinition.map (replaceAll tripleQuotes escapedQuotes 0)

/-- The literal of `_full_text`. Renaming fields and constants for Python leaves the text of the message. -/
def fullTextLiteral (ctx : DependContext) (fuel : Nat) (spec : MsgSpec) : Option (Except DependError Str) :=
  (computeFullTextEscaped ctx fuel spec).map fun fullText =>
    fullText.map fun fullText => literal false tripleQuotes (escapeTrailing fullText)

/-- `crude escaping of \ and "` -/
def escapedConstant (val : Str) : Str :=
  replaceAll [quotationMark] [backslash, quotationMark] 0 (replaceAll [backslash] [backslash, backslash] 0 val)

def constantLiteral (val : Str) : Str :=
  if quotationMark ∈ val ∧ apostrophe ∈ val then literal false [quotationMark] (escapedConstant val)
  else if quotationMark ∈ val then literal true [apostrophe] val
  else if apostrophe ∈ val then literal true [quotationMark] val
  else literal false [apostrophe] val

variable {names : CharNames}

/-! ## Line ends -/

theorem CodePoint.ofChar_injective : Function.Injective CodePoint.ofChar := by
  intro c d h
  have hNat : (CodePoint.ofChar c).val = (CodePoint.ofChar d).val := congrArg Fin.val h
  exact Char.toNat_inj.mp hNat

theorem not_mem_of_map_newlines {t : Str}
    (h : (newlines false t).map CodePoint.ofChar = t.map CodePoint.ofChar) : '\r' ∉ t := by
  rw [← CodePoint.ofChar_injective.list_map h]
  exact not_mem_newlines false t

theorem Faithful.eq_iff {t : Str} {result : Option (List CodePoint)}
    (h : Faithful (newlines false t) result (KeepsBackslashes (newlines false t))) :
    result = some (t.map CodePoint.ofChar) ↔ '\r' ∉ t ∧ KeepsBackslashes t := by
  constructor
  · intro hResult
    obtain ⟨hLess, hAll⟩ := h.less _ hResult
    rw [List.length_map] at hLess hAll
    have hKept := hAll (hLess.antisymm (newlines_length false t))
    have hReturn : '\r' ∉ t := not_mem_of_map_newlines (Option.some.inj ((h.back hKept).symm.trans hResult))
    rw [newlines_of_not_mem hReturn] at hKept
    exact ⟨hReturn, hKept⟩
  · rintro ⟨hReturn, hKept⟩
    rw [newlines_of_not_mem hReturn] at h
    exact h.back hKept

/-! ## The full text -/

structure Denotable (t : Str) : Prop where
  nul : nul ∉ t
  returns : '\r' ∉ t
  backslashes : KeepsBackslashes t

theorem evalLiteral_escapedText (t : Str) :
    evalLiteral names (literal false tripleQuotes (escapedText t)) = some (t.map CodePoint.ofChar) ↔ Denotable t := by
  have hIff := (faithful_escapedText names (newlines false t)).eq_iff
  rw [evalLiteral_eq_some_iff (by decide) fun h => absurd h (by decide), newlines_escapedText,
    if_neg Bool.false_ne_true, mem_escapedText ⟨by decide, by decide⟩, hIff]
  constructor
  · rintro ⟨hNul, -, hReturn, hKept⟩
    exact ⟨hNul, hReturn, hKept⟩
  · rintro ⟨hNul, hReturn, hKept⟩
    rw [newlines_of_not_mem hReturn]
    exact ⟨hNul, readBody_escapedText hKept, hReturn, hKept⟩

theorem denotable_append_newline {a b : Str} : Denotable (a ++ '\n' :: b) ↔ Denotable a ∧ Denotable b := by
  have hKept : KeepsBackslashes (a ++ '\n' :: b) ↔ KeepsBackslashes a ∧ KeepsBackslashes b := by
    induction a with
    | nil => exact (keepsBackslashes_cons (by decide)).trans (and_iff_right keepsBackslashes_nil).symm
    | cons c a ih =>
      rw [List.cons_append]
      by_cases hc : c = backslash
      · subst hc
        have hTriple : tripleQuotes <+: a ++ '\n' :: b ↔ tripleQuotes <+: a := prefix_append_cons_iff (by decide) a b
        have hHead : (a ++ '\n' :: b).head?.map beginsEscape = some false ↔ a.head?.map beginsEscape = some false := by
          cases a with
          | nil => exact iff_of_false (fun hSome => absurd (Option.some.inj hSome) (by decide)) (by decide)
          | cons d a => rfl
        rw [keepsBackslashes_backslash, keepsBackslashes_backslash, hTriple, hHead, ih, and_assoc]
      · rw [keepsBackslashes_cons hc, keepsBackslashes_cons hc, ih]
  constructor
  · rintro ⟨hNul, hReturn, hBoth⟩
    simp only [List.mem_append, List.mem_cons, not_or] at hNul hReturn
    obtain ⟨ha, hb⟩ := hKept.mp hBoth
    exact ⟨⟨hNul.1, hReturn.1, ha⟩, hNul.2.2, hReturn.2.2, hb⟩
  · rintro ⟨ha, hb⟩
    refine ⟨?_, ?_, hKept.mpr ⟨ha.backslashes, hb.backslashes⟩⟩
    · simp [ha.nul, hb.nul, show XcRos.Genpy.nul ≠ '\n' by decide]
    · simp [ha.returns, hb.returns]

theorem denotable_ruler : Denotable ruler :=
  ⟨by decide, by decide, fun back hBack => absurd (hBack.subset List.mem_cons_self) (by decide)⟩

theorem denotable_depMsg (d text : Str) : Denotable (depMsg d text) ↔ Denotable d ∧ Denotable text := by
  have hFront : Denotable (str "MSG: " ++ d) ↔ Denotable d := by
    have hNul : nul ∉ str "MSG: " := by decide
    have hReturn : '\r' ∉ str "MSG: " := by decide
    constructor
    · rintro ⟨hNoNul, hNoReturn, hKept⟩
      rw [List.mem_append, or_iff_right hNul] at hNoNul
      rw [List.mem_append, or_iff_right hReturn] at hNoReturn
      exact ⟨hNoNul, hNoReturn, (keepsBackslashes_append (by decide)).mp hKept⟩
    · rintro ⟨hNoNul, hNoReturn, hKept⟩
      refine ⟨?_, ?_, (keepsBackslashes_append (by decide)).mpr hKept⟩
      · rwa [List.mem_append, or_iff_right hNul]
      · rwa [List.mem_append, or_iff_right hReturn]
  rw [depMsg, denotable_append_newline, hFront]

theorem denotable_intercalate (text : Str) (parts : List Str) :
    Denotable (('\n' :: (ruler ++ ['\n'])).intercalate (text :: parts)) ↔
      Denotable text ∧ ∀ part ∈ parts, Denotable part := by
  induction parts generalizing text with
  | nil =>
    rw [List.intercalate_singleton]
    exact (and_iff_left fun part hPart => absurd hPart List.not_mem_nil).symm
  | cons next parts ih =>
    have hLines (back : Str) : text ++ '\n' :: (ruler ++ ['\n']) ++ back = text ++ '\n' :: (ruler ++ '\n' :: back) := by
      simp
    rw [List.intercalate_cons_cons, hLines, denotable_append_newline, denotable_append_newline, ih,
      and_iff_right denotable_ruler, List.forall_mem_cons]

/-! ## Constants with both quotes -/

def escapeChar (c : Char) : Str := if c = backslash ∨ c = quotationMark then [backslash, c] else [c]

theorem escapedConstant_eq (val : Str) : escapedConstant val = val.flatMap escapeChar := by
  rw [escapedConstant, replaceAll_singleton, replaceAll_singleton, List.flatMap_assoc]
  refine congrArg (val.flatMap ·) (funext fun c => ?_)
  by_cases hSlash : c = backslash
  · subst hSlash
    decide
  · by_cases hQuote : c = quotationMark
    · subst hQuote
      decide
    · simp [escapeChar, hSlash, hQuote]

theorem decode_escapeChar (val : Str) :
    decode names 0 (val.flatMap escapeChar) = some (val.map CodePoint.ofChar) := by
  induction val with
  | nil => rfl
  | cons c val ih =>
    rw [List.flatMap_cons, escapeChar]
    split
    · rename_i hEscaped
      exact (decode_escaped hEscaped (val.flatMap escapeChar)).trans (by rw [ih]; rfl)
    · rename_i hPlain
      exact (decode_cons (fun hc => hPlain (.inl hc)) (val.flatMap escapeChar)).trans (by rw [ih]; rfl)

theorem readBody_escapeChar {val : Str} (h : '\n' ∉ val) :
    readBody [quotationMark] (val.flatMap escapeChar ++ [quotationMark]) = some (val.flatMap escapeChar, []) := by
  induction val with
  | nil => exact readBody_quote (List.cons_ne_nil _ _) (by decide) []
  | cons c val ih =>
    have hRest := ih fun hMem => h (List.mem_cons_of_mem c hMem)
    rw [List.flatMap_cons, escapeChar]
    split
    · exact readBody_escaped hRest c
    · rename_i hPlain
      have hQuote : ¬ [quotationMark] <+: c :: (val.flatMap escapeChar ++ [quotationMark]) := fun hPrefix =>
        hPlain (.inr (List.cons_prefix_cons.mp hPrefix).1.symm)
      exact readBody_standing hRest (fun hc => hPlain (.inl hc)) hQuote fun hc => absurd (hc ▸ List.mem_cons_self) h

theorem newlines_escapeChar (returned : Bool) (val : Str) :
    newlines returned (val.flatMap escapeChar) = (newlines returned val).flatMap escapeChar := by
  have hLine : escapeChar '\n' = ['\n'] := by decide
  induction val generalizing returned with
  | nil => rfl
  | cons c val ih =>
    rw [List.flatMap_cons, newlines]
    by_cases hEscaped : c = backslash ∨ c = quotationMark
    · have hPlain : c ≠ '\r' ∧ c ≠ '\n' := by
        obtain rfl | rfl := hEscaped <;> decide
      have hSkip : ¬ (returned = true ∧ backslash = '\n') := fun hBoth => absurd hBoth.2 (by decide)
      rw [if_neg hPlain.1, if_neg fun hBoth => hPlain.2 hBoth.2, List.flatMap_cons, escapeChar, if_pos hEscaped,
        List.cons_append, List.singleton_append, newlines, if_neg (by decide), if_neg hSkip, newlines, if_neg hPlain.1,
        if_neg fun hBoth => hPlain.2 hBoth.2, ih]
      rfl
    · have hOne : escapeChar c = [c] := if_neg hEscaped
      rw [hOne, List.singleton_append, newlines]
      split
      · rw [List.flatMap_cons, hLine, ih]
        rfl
      · split
        · exact ih false
        · rw [List.flatMap_cons, hOne, ih]
          rfl

theorem mem_escapeChar {c : Char} (hc : Inert c) (val : Str) : c ∈ val.flatMap escapeChar ↔ c ∈ val := by
  have hOne : ∀ d, c ∈ escapeChar d ↔ d = c := by
    intro d
    rw [escapeChar]
    split
    · simp [hc.1, eq_comm]
    · simp [eq_comm]
  rw [List.mem_flatMap]
  simp only [hOne, exists_eq_right]

theorem evalLiteral_escapedConstant {val : Str} (h : '\n' ∉ val) :
    evalLiteral names (literal false [quotationMark] (escapedConstant val)) = some (val.map CodePoint.ofChar) ↔
      nul ∉ val ∧ '\r' ∉ val := by
  have hHead : (val.flatMap escapeChar).head? ≠ some quotationMark := by
    cases val with
    | nil => exact fun hEq => by cases hEq
    | cons c val =>
      rw [List.flatMap_cons, escapeChar]
      split
      · exact fun hEq => absurd (Option.some.inj hEq) (by decide)
      · rename_i hPlain
        exact fun hEq => hPlain (.inr (Option.some.inj hEq))
  rw [escapedConstant_eq, evalLiteral_eq_some_iff (by decide) fun _ => hHead, newlines_escapeChar,
    if_neg Bool.false_ne_true, decode_escapeChar, mem_escapeChar ⟨by decide, by decide⟩]
  constructor
  · rintro ⟨hNul, -, hSame⟩
    exact ⟨hNul, not_mem_of_map_newlines (Option.some.inj hSame)⟩
  · rintro ⟨hNul, hReturn⟩
    rw [newlines_of_not_mem hReturn]
    exact ⟨hNul, readBody_escapeChar h, rfl⟩

/-! ## Other constants -/

def trailingBackslashes (s : Str) : Nat := (s.reverse.takeWhile (· = backslash)).length

theorem trailingBackslashes_cons {c : Char} (hc : c ≠ backslash) (s : Str) :
    trailingBackslashes (c :: s) = trailingBackslashes s := by
  rw [trailingBackslashes, List.reverse_cons, List.takeWhile_append, trailingBackslashes]
  split
  · rename_i hAll
    rw [List.takeWhile_cons_of_neg (by simpa using hc), List.append_nil, hAll]
  · rfl

theorem even_trailingBackslashes (c : Char) (s : Str) :
    Even (trailingBackslashes (backslash :: c :: s)) ↔ Even (trailingBackslashes s) := by
  have hReverse : (backslash :: c :: s).reverse = s.reverse ++ [c, backslash] := by simp
  rw [trailingBackslashes, hReverse, List.takeWhile_append, trailingBackslashes]
  split
  · rename_i hAll
    rw [List.length_append, ← hAll]
    by_cases hc : c = backslash
    · subst hc
      exact Nat.even_add_one.trans (not_congr Nat.even_add_one) |>.trans not_not
    · rw [List.takeWhile_cons_of_neg (by simpa using hc)]
      rfl
  · rfl

theorem readBody_single {a : Char} (ha : a ≠ backslash) {s : Str} (hQuote : a ∉ s) (hLine : '\n' ∉ s) :
    readBody [a] (s ++ [a]) = some (s, []) ↔ Even (trailingBackslashes s) := by
  have hEmpty : readBody [a] [a] = some ([], []) :=
    readBody_quote (List.cons_ne_nil _ _) (fun h => ha (Option.some.inj h)) []
  have hNext : ∀ c s, c ≠ a → ¬ [a] <+: c :: s := fun c s hc hPrefix => hc (List.cons_prefix_cons.mp hPrefix).1.symm
  induction s using List.twoStepInduction with
  | nil => exact iff_of_true hEmpty Even.zero
  | singleton c =>
    by_cases hc : c = backslash
    · subst hc
      refine iff_of_false (fun hRead => ?_) (by decide)
      have hNone : readBody [a] ([backslash] ++ [a]) = none := readBody_pair [a] a []
      cases hNone.symm.trans hRead
    · rw [trailingBackslashes_cons hc]
      refine iff_of_true (readBody_standing hEmpty hc (hNext c [a] fun hEq => ?_) fun hEq => ?_) Even.zero
      · exact hQuote (hEq ▸ List.mem_cons_self)
      · exact absurd (hEq ▸ List.mem_cons_self) hLine
  | cons_cons c d s ih ihCons =>
    by_cases hc : c = backslash
    · subst hc
      rw [even_trailingBackslashes]
      refine Iff.trans ?_ (ih (fun hMem => hQuote (by simp [hMem])) fun hMem => hLine (by simp [hMem]))
      refine ⟨fun hRead => ?_, fun hRead => readBody_escaped hRead d⟩
      obtain ⟨⟨body, after⟩, hInner, hEq⟩ :=
        Option.map_eq_some_iff.mp ((readBody_pair [a] d (s ++ [a])).symm.trans hRead)
      cases hEq
      exact hInner
    · have hHere : ¬ [a] <+: c :: (d :: s ++ [a]) := hNext c _ fun hEq => hQuote (hEq ▸ List.mem_cons_self)
      have hLines : c = '\n' → [a].length ≠ 1 := fun hEq => absurd (hEq ▸ List.mem_cons_self) hLine
      rw [trailingBackslashes_cons hc]
      refine Iff.trans ?_ (ihCons d (fun hMem => hQuote (List.mem_cons_of_mem c hMem)) fun hMem =>
        hLine (List.mem_cons_of_mem c hMem))
      refine ⟨fun hRead => ?_, fun hRead => readBody_standing hRead hc hHere hLines⟩
      obtain ⟨⟨body, after⟩, hInner, hEq⟩ :=
        Option.map_eq_some_iff.mp ((readBody_cons hc hHere hLines).symm.trans hRead)
      cases hEq
      exact hInner

theorem evalLiteral_raw {a : Char} (ha : [a] ∈ quotes) {val : Str} (hQuote : a ∉ val) (hLine : '\n' ∉ val) :
    evalLiteral names (literal true [a] val) = some (val.map CodePoint.ofChar) ↔
      nul ∉ val ∧ '\r' ∉ val ∧ Even (trailingBackslashes val) := by
  have hSlash : a ≠ backslash := by
    rintro rfl
    exact absurd ha (by decide)
  have hHead : val.head? ≠ some a := fun hEq => hQuote (List.mem_of_head? hEq)
  rw [evalLiteral_eq_some_iff ha fun _ => hHead, if_pos rfl]
  constructor
  · rintro ⟨hNul, hRead, hSame⟩
    have hReturn := not_mem_of_map_newlines (Option.some.inj hSame)
    rw [newlines_of_not_mem hReturn] at hRead
    exact ⟨hNul, hReturn, (readBody_single hSlash hQuote hLine).mp hRead⟩
  · rintro ⟨hNul, hReturn, hEven⟩
    rw [newlines_of_not_mem hReturn]
    exact ⟨hNul, (readBody_single hSlash hQuote hLine).mpr hEven, rfl⟩

theorem trailingBackslashes_of_keeps {val : Str} (h : KeepsBackslashes val) : trailingBackslashes val = 0 := by
  rw [trailingBackslashes]
  cases hReverse : val.reverse with
  | nil => rfl
  | cons c front =>
    by_cases hc : c = backslash
    · have hEnd : [backslash] <:+ val :=
        ⟨front.reverse, by rw [← List.reverse_reverse val, hReverse, hc, List.reverse_cons]⟩
      obtain hTriple | hHead := h [] hEnd
      · exact absurd (List.prefix_nil.mp hTriple) (List.cons_ne_nil _ _)
      · cases hHead
    · rw [List.takeWhile_cons_of_neg (by simpa using hc)]
      rfl

theorem evalLiteral_plain {val : Str} (hQuotation : quotationMark ∉ val) (hApostrophe : apostrophe ∉ val)
    (hLine : '\n' ∉ val) :
    evalLiteral names (literal false [apostrophe] val) = some (val.map CodePoint.ofChar) ↔ Denotable val := by
  have hHead : val.head? ≠ some apostrophe := fun hEq => hApostrophe (List.mem_of_head? hEq)
  have hFaithful : ∀ t, quotationMark ∉ t → Faithful t (decode names 0 t) (KeepsBackslashes t) := by
    intro t ht
    have hText := faithful_escapedText names t
    rwa [escapedText_of_not_mem ht] at hText
  rw [evalLiteral_eq_some_iff (by decide) fun _ => hHead, if_neg Bool.false_ne_true]
  constructor
  · rintro ⟨hNul, -, hDecode⟩
    have hLines : quotationMark ∉ newlines false val := fun hMem => hQuotation (mem_of_newlines (by decide) hMem)
    obtain ⟨hReturn, hKept⟩ := (hFaithful _ hLines).eq_iff.mp hDecode
    exact ⟨hNul, hReturn, hKept⟩
  · rintro ⟨hNul, hReturn, hKept⟩
    have hEven : Even (trailingBackslashes val) := by
      rw [trailingBackslashes_of_keeps hKept]
      exact Even.zero
    rw [newlines_of_not_mem hReturn]
    exact ⟨hNul, (readBody_single (by decide) hApostrophe hLine).mpr hEven, (hFaithful val hQuotation).back hKept⟩

/-! ## The constants of a message -/

structure DenotableConstant (val : Str) : Prop where
  nul : nul ∉ val
  returns : '\r' ∉ val
  raw : (quotationMark ∈ val ↔ apostrophe ∉ val) → Even (trailingBackslashes val)
  plain : quotationMark ∉ val → apostrophe ∉ val → KeepsBackslashes val

theorem evalLiteral_constantLiteral {val : Str} (h : '\n' ∉ val) :
    evalLiteral names (constantLiteral val) = some (val.map CodePoint.ofChar) ↔ DenotableConstant val := by
  rw [constantLiteral]
  by_cases hQuotation : quotationMark ∈ val
  · by_cases hApostrophe : apostrophe ∈ val
    · rw [if_pos ⟨hQuotation, hApostrophe⟩, evalLiteral_escapedConstant h]
      constructor
      · rintro ⟨hNul, hReturn⟩
        exact ⟨hNul, hReturn, fun hOne => absurd hApostrophe (hOne.mp hQuotation), fun hNone => absurd hQuotation hNone⟩
      · exact fun hVal => ⟨hVal.nul, hVal.returns⟩
    · rw [if_neg fun hBoth => hApostrophe hBoth.2, if_pos hQuotation, evalLiteral_raw (by decide) hApostrophe h]
      constructor
      · rintro ⟨hNul, hReturn, hEven⟩
        exact ⟨hNul, hReturn, fun _ => hEven, fun hNone => absurd hQuotation hNone⟩
      · exact fun hVal => ⟨hVal.nul, hVal.returns, hVal.raw (iff_of_true hQuotation hApostrophe)⟩
  · rw [if_neg fun hBoth => hQuotation hBoth.1, if_neg hQuotation]
    by_cases hApostrophe : apostrophe ∈ val
    · rw [if_pos hApostrophe, evalLiteral_raw (by decide) hQuotation h]
      constructor
      · rintro ⟨hNul, hReturn, hEven⟩
        exact ⟨hNul, hReturn, fun _ => hEven, fun _ hNone => absurd hApostrophe hNone⟩
      · exact fun hVal => ⟨hVal.nul, hVal.returns, hVal.raw (iff_of_false hQuotation (not_not_intro hApostrophe))⟩
    · rw [if_neg hApostrophe, evalLiteral_plain hQuotation hApostrophe h]
      constructor
      · rintro ⟨hNul, hReturn, hKept⟩
        exact ⟨hNul, hReturn, fun hOne => absurd (hOne.mpr hApostrophe) hQuotation, fun _ _ => hKept⟩
      · exact fun hVal => ⟨hVal.nul, hVal.returns, hVal.plain hQuotation hApostrophe⟩

section

variable {F : Type} {py : Python F}

theorem exists_constantLine {package : Str} {lines : List Str} {ds : List (Declaration F)}
    (h : loadLines py package lines = .ok ds) {c : LoadedConstant F} (hc : c ∈ constantsOf ds) :
    ∃ line ∈ lines, loadConstantLine py line = .ok c := by
  induction lines generalizing ds with
  | nil =>
    cases h
    cases hc
  | cons line lines ih =>
    obtain ⟨fs, bs, hLine, hLines, rfl⟩ := loadLines_cons_eq_ok_iff.mp h
    rw [constantsOf, List.filterMap_append] at hc
    obtain hc | hc := List.mem_append.mp hc
    · refine ⟨line, List.mem_cons_self, ?_⟩
      rw [loadLine] at hLine
      split at hLine
      · cases hLine
        cases hc
      · split at hLine
        · obtain ⟨constant, hLoad, rfl⟩ := exists_of_map hLine
          cases List.mem_singleton.mp hc
          exact hLoad
        · obtain ⟨field, -, rfl⟩ := exists_of_map hLine
          cases hc
    · obtain ⟨other, hOther, hLoad⟩ := ih hLines hc
      exact ⟨other, List.mem_cons_of_mem line hOther, hLoad⟩

theorem mem_of_strip {c : Char} {s : Str} (h : c ∈ strip s) : c ∈ s := by
  obtain ⟨lead, tail, -, -, hSplit⟩ := exists_blanks s
  rw [hSplit]
  exact List.mem_append_left _ (List.mem_append_right _ h)

theorem mem_of_slice {c : Char} {s : Str} {start stop : Int} (h : c ∈ slice s start stop) : c ∈ s :=
  List.mem_of_mem_take (List.mem_of_mem_drop h)

theorem string_of_loadConstantLine {line : Str} {c : LoadedConstant F} (h : loadConstantLine py line = .ok c)
    (hType : c.type = str "string") : ∃ val, c.val = .text val ∧ ∀ d ∈ val, d ∈ line := by
  obtain ⟨-, hConstant, hValue⟩ := loadConstantLine_eq_ok_iff.mp h
  have hToken : typeToken line = str "string" := (congrArg Constant.type hConstant).symm.trans hType
  have hParts : (constantParts line).getD 1 [] = slice line (find '=' line + 1) line.length := by
    rw [constantParts, if_pos hToken]
    rfl
  rw [hToken, hParts, convertConstantValue, if_neg (by decide), if_pos rfl] at hValue
  exact ⟨_, (Option.some.inj hValue).symm, fun d hd => mem_of_slice (mem_of_strip hd)⟩

theorem string_of_constant {messages registered : MsgContext} {text fullName : Str} {loaded : LoadedSpec F}
    (hLoad : loadMsgFromString py messages text fullName = .ok (loaded, registered)) {c : Constant}
    {value : ConstantValue F} (hc : (c, value) ∈ loaded.spec.constants.zip loaded.values)
    (hType : c.type = str "string") : ∃ val, value = .text val ∧ '\n' ∉ val := by
  obtain ⟨package, shortName, ds, -, hLines, hSpec, -⟩ := loadMsgFromString_eq_ok_iff.mp hLoad
  obtain ⟨-, hDeclares, -⟩ := specOf_eq_ok_iff.mp hSpec
  rw [hDeclares.constants, hDeclares.values, List.zip_map'] at hc
  obtain ⟨constant, hConstant, hEq⟩ := List.mem_map.mp hc
  cases hEq
  obtain ⟨line, hLine, hLoaded⟩ := exists_constantLine hLines hConstant
  obtain ⟨val, hVal, hSub⟩ := string_of_loadConstantLine hLoaded hType
  exact ⟨val, hVal, fun hMem => not_mem_of_mem_split hLine (hSub _ hMem)⟩

/-! ## The module -/

/-- The literals of the module for a message denote its full text and the values of its string constants. -/
structure LiteralsDenote (names : CharNames) (ctx : DependContext) (fuel : Nat) (loaded : LoadedSpec F) (full : Str) :
    Prop where
  fullText : ∃ source, fullTextLiteral ctx fuel loaded.spec = some (.ok source) ∧
    evalLiteral names source = some (full.map CodePoint.ofChar)
  constants : ∀ c value, (c, value) ∈ loaded.spec.constants.zip loaded.values → c.type = str "string" →
    ∃ val, value = .text val ∧ evalLiteral names (constantLiteral val) = some (val.map CodePoint.ofChar)

/-- What the quotes keep: the text of the message, the name and the text of each dependency, and the string
constants. -/
structure QuotesKeep (ctx : DependContext) (loaded : LoadedSpec F) : Prop where
  text : Denotable loaded.spec.text
  dependencies : ∀ d, TransGen (Records ctx.dependencies) loaded.spec.fullName d →
    Denotable d ∧ Denotable (textOf ctx.messages d)
  constants : ∀ c val, (c, .text val) ∈ loaded.spec.constants.zip loaded.values → c.type = str "string" →
    DenotableConstant val

theorem denotable_computeFullText {ctx : DependContext} {fuel : Nat} {spec : MsgSpec} {full : Str}
    (h : computeFullText ctx fuel spec = some (.ok full)) :
    Denotable full ↔ Denotable spec.text ∧ ∀ d, TransGen (Records ctx.dependencies) spec.fullName d →
      Denotable d ∧ Denotable (textOf ctx.messages d) := by
  obtain ⟨ds, hMem, rfl⟩ := computeFullText_eq h
  rw [denotable_intercalate, List.forall_mem_map]
  refine and_congr_right fun _ => forall_congr' fun d => ?_
  rw [hMem, denotable_depMsg]

/-- The literals of an accepted message denote what they should exactly if the quotes keep the texts. -/
theorem literalsDenote_iff (names : CharNames) {messages registered : MsgContext} {text fullName : Str}
    {loaded : LoadedSpec F} (hLoad : loadMsgFromString py messages text fullName = .ok (loaded, registered))
    {ctx : DependContext} {fuel : Nat} {full : Str}
    (hFull : computeFullText ctx fuel loaded.spec = some (.ok full)) :
    LiteralsDenote names ctx fuel loaded full ↔ QuotesKeep ctx loaded := by
  have hSource : fullTextLiteral ctx fuel loaded.spec = some (.ok (literal false tripleQuotes (escapedText full))) := by
    rw [fullTextLiteral, computeFullTextEscaped, hFull]
    rfl
  have hParts := denotable_computeFullText hFull
  constructor
  · rintro ⟨⟨source, hSome, hEval⟩, hConstants⟩
    cases hSource.symm.trans hSome
    obtain ⟨hText, hDepends⟩ := hParts.mp ((evalLiteral_escapedText full).mp hEval)
    refine ⟨hText, hDepends, fun c val hMem hType => ?_⟩
    obtain ⟨val', hSame, hLine⟩ := string_of_constant hLoad hMem hType
    obtain ⟨val'', hOther, hConstant⟩ := hConstants c _ hMem hType
    cases hSame
    cases hOther
    exact (evalLiteral_constantLiteral hLine).mp hConstant
  · rintro ⟨hText, hDepends, hConstants⟩
    have hDenotable := hParts.mpr ⟨hText, hDepends⟩
    refine ⟨⟨_, hSource, (evalLiteral_escapedText full).mpr hDenotable⟩, fun c value hMem hType => ?_⟩
    obtain ⟨val, rfl, hLine⟩ := string_of_constant hLoad hMem hType
    exact ⟨val, rfl, (evalLiteral_constantLiteral hLine).mpr (hConstants c val hMem hType)⟩

/-! ## Two paths -/

def noNames : CharNames := ⟨fun _ => none, fun _ _ h => by cases h⟩

def independent (messages : MsgContext) : DependContext := ⟨messages, fun _ => some []⟩

instance (t : Str) : Decidable (Denotable t) :=
  decidable_of_iff (nul ∉ t ∧ '\r' ∉ t ∧ KeepsBackslashes t)
    ⟨fun h => ⟨h.1, h.2.1, h.2.2⟩, fun h => ⟨h.nul, h.returns, h.backslashes⟩⟩

theorem computeFullText_independent (messages : MsgContext) (spec : MsgSpec) :
    computeFullText (independent messages) 1 spec = some (.ok spec.text) := by
  have hAlone : computeFullText (independent messages) 1 spec = some (.ok (spec.text ++ ['\n']).dropLast) := rfl
  rw [hAlone, List.dropLast_concat]

/-- A backslash in front of a letter that begins no escape sequence is kept. -/
theorem literalsDenote_data :
    ∃ loaded registered,
      loadMsgFromString asciiPython .empty (str "string S=C:\\data") (str "p/M") = .ok (loaded, registered) ∧
      LiteralsDenote noNames (independent registered) 1 loaded (str "string S=C:\\data") := by
  have hLoad : ∃ loaded registered,
      loadMsgFromString asciiPython .empty (str "string S=C:\\data") (str "p/M") = .ok (loaded, registered) ∧
      loaded.spec.text = str "string S=C:\\data" ∧
      loaded.spec.constants.zip loaded.values = [(⟨str "string", str "S", str "C:\\data"⟩, .text (str "C:\\data"))] :=
    ⟨_, _, rfl, rfl, rfl⟩
  obtain ⟨loaded, registered, hOk, hText, hConstants⟩ := hLoad
  have hFull := computeFullText_independent registered loaded.spec
  rw [hText] at hFull
  refine ⟨loaded, registered, hOk, (literalsDenote_iff noNames hOk hFull).mpr ⟨?_, ?_, ?_⟩⟩
  · rw [hText]
    decide
  · intro d hd
    obtain ⟨c, ⟨depends, hDepends, hc⟩, -⟩ := TransGen.head'_iff.mp hd
    cases hDepends
    cases hc
  · intro c val hMem hType
    rw [hConstants] at hMem
    cases List.mem_singleton.mp hMem
    exact ⟨by decide, by decide, by decide, by decide⟩

/-- A path with a folder `temp` has a tab in it. -/
theorem literals_lose_backslash :
    ∃ loaded registered,
      loadMsgFromString asciiPython .empty (str "string S=C:\\temp") (str "p/M") = .ok (loaded, registered) ∧
      computeFullText (independent registered) 1 loaded.spec = some (.ok (str "string S=C:\\temp")) ∧
      evalLiteral noNames (constantLiteral (str "C:\\temp")) = some ((str "C:\temp").map CodePoint.ofChar) ∧
      ¬ LiteralsDenote noNames (independent registered) 1 loaded (str "string S=C:\\temp") := by
  have hLoad : ∃ loaded registered,
      loadMsgFromString asciiPython .empty (str "string S=C:\\temp") (str "p/M") = .ok (loaded, registered) ∧
      loaded.spec.text = str "string S=C:\\temp" ∧
      loaded.spec.constants.zip loaded.values = [(⟨str "string", str "S", str "C:\\temp"⟩, .text (str "C:\\temp"))] :=
    ⟨_, _, rfl, rfl, rfl⟩
  obtain ⟨loaded, registered, hOk, hText, hConstants⟩ := hLoad
  have hFull := computeFullText_independent registered loaded.spec
  rw [hText] at hFull
  have hTab : evalLiteral noNames (constantLiteral (str "C:\\temp")) = some ((str "C:\temp").map CodePoint.ofChar) := by
    decide +kernel
  refine ⟨loaded, registered, hOk, hFull, hTab, fun hDenote => ?_⟩
  obtain ⟨val, hVal, hEval⟩ := hDenote.constants _ _ (by rw [hConstants]; exact List.mem_singleton_self _) rfl
  cases hVal
  rw [hTab] at hEval
  have hSame : str "C:\temp" = str "C:\\temp" := CodePoint.ofChar_injective.list_map (Option.some.inj hEval)
  exact absurd hSame (by decide)

end

end XcRos.Genpy
