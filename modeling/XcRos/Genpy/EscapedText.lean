import XcRos.Foundation.Delimiter
import XcRos.Genpy.Literal

/-! # Text between triple quotes

In a text that is put between triple quotes, triple quotes are escaped, and so is a quote at its end. Its
backslashes are left as they are: what is read back is the text if none of them begins an escape sequence, and
shorter otherwise.
-/

namespace XcRos.Genpy

open XcRos.Foundation XcRos.Msg

def tripleQuotes : Str := List.replicate 3 quotationMark

/-- `r'\"\"\"'` -/
def escapedQuotes : Str := [backslash, quotationMark, backslash, quotationMark, backslash, quotationMark]

def escapeTrailing (fullText : Str) : Str :=
  if [quotationMark] <:+ fullText ∧ ¬ [backslash, quotationMark] <:+ fullText then
    fullText.dropLast ++ [backslash, quotationMark]
  else fullText

def escapedText (msgDefinition : Str) : Str := escapeTrailing (replaceAll tripleQuotes escapedQuotes 0 msgDefinition)

/-! ## The text from its front -/

theorem escapeTrailing_append (front : Str) {s : Str} (h : 2 ≤ s.length) :
    escapeTrailing (front ++ s) = front ++ escapeTrailing s := by
  have hSuffix : ∀ x : Str, x.length ≤ 2 → (x <:+ front ++ s ↔ x <:+ s) := fun x hx =>
    ⟨fun hBoth => List.suffix_of_suffix_length_le hBoth (List.suffix_append front s) (hx.trans h),
      fun hBack => hBack.trans (List.suffix_append front s)⟩
  have hSome : s ≠ [] := fun hNil => by
    rw [hNil] at h
    exact absurd h (by decide)
  have hEnd : [quotationMark] <:+ front ++ s ∧ ¬ [backslash, quotationMark] <:+ front ++ s ↔
      [quotationMark] <:+ s ∧ ¬ [backslash, quotationMark] <:+ s :=
    and_congr (hSuffix _ (by decide)) (not_congr (hSuffix _ (by decide)))
  rw [escapeTrailing, escapeTrailing]
  by_cases hBack : [quotationMark] <:+ s ∧ ¬ [backslash, quotationMark] <:+ s
  · rw [if_pos (hEnd.mpr hBack), if_pos hBack, List.dropLast_append_of_ne_nil hSome, List.append_assoc]
  · rw [if_neg fun hBoth => hBack (hEnd.mp hBoth), if_neg hBack]

theorem length_replaceQuotes (c d : Char) (t : Str) :
    2 ≤ (replaceAll tripleQuotes escapedQuotes 0 (c :: d :: t)).length := by
  rw [replaceAll]
  split
  · rw [List.length_append]
    exact Nat.le_add_right_of_le (by decide)
  · rw [replaceAll]
    split
    · simp [escapedQuotes]
    · simp

theorem replaceQuotes_triple (t : Str) : replaceAll tripleQuotes escapedQuotes 0 (tripleQuotes ++ t) =
    escapedQuotes ++ replaceAll tripleQuotes escapedQuotes 0 t := by
  have hPrefix : tripleQuotes <+: quotationMark :: quotationMark :: quotationMark :: t := List.prefix_append _ _
  show replaceAll tripleQuotes escapedQuotes 0 (quotationMark :: quotationMark :: quotationMark :: t) = _
  rw [replaceAll, if_pos hPrefix]
  rfl

theorem not_triple_single (c : Char) : ¬ tripleQuotes <+: [c] := fun h =>
  absurd (show 3 ≤ 1 from h.length_le) (by decide)

theorem escapedText_single {c : Char} (h : c ≠ quotationMark) : escapedText [c] = [c] := by
  have hEnd : ¬ [quotationMark] <:+ [c] := fun hSuffix => h (List.cons.inj (hSuffix.eq_of_length rfl)).1.symm
  rw [escapedText, replaceAll, if_neg (not_triple_single c), replaceAll, escapeTrailing,
    if_neg fun hBoth => hEnd hBoth.1]

theorem escapedText_triple (t : Str) : escapedText (tripleQuotes ++ t) = escapedQuotes ++ escapedText t := by
  rw [escapedText, replaceQuotes_triple, escapedText]
  cases t with
  | nil => decide
  | cons c t =>
    cases t with
    | cons d t => exact escapeTrailing_append _ (length_replaceQuotes c d t)
    | nil =>
      rw [replaceAll, if_neg (not_triple_single c), replaceAll]
      by_cases hc : c = quotationMark
      · subst hc
        decide
      · have hEnd : ¬ [quotationMark] <:+ escapedQuotes ++ [c] := by
          intro hSuffix
          have hLast := List.suffix_of_suffix_length_le hSuffix (List.suffix_append escapedQuotes [c]) (Nat.le_refl 1)
          exact hc (List.cons.inj (hLast.eq_of_length rfl)).1.symm
        have hShort : ¬ [quotationMark] <:+ [c] := fun hSuffix => hEnd (hSuffix.trans (List.suffix_append _ _))
        rw [escapeTrailing, if_neg fun hBoth => hEnd hBoth.1, escapeTrailing, if_neg fun hBoth => hShort hBoth.1]

/-- A character that is taken as it stands: no triple quotes begin at it, it is no quote at the end, and no backslash
in front of one. -/
structure Stands (c : Char) (t : Str) : Prop where
  triple : ¬ tripleQuotes <+: c :: t
  trailing : c = quotationMark → t ≠ []
  escaped : c = backslash → t ≠ [quotationMark]

theorem escapedText_cons {c : Char} {t : Str} (h : Stands c t) : escapedText (c :: t) = c :: escapedText t := by
  have hHere : replaceAll tripleQuotes escapedQuotes 0 (c :: t) = c :: replaceAll tripleQuotes escapedQuotes 0 t := by
    rw [replaceAll, if_neg h.triple]
  cases t with
  | nil => exact escapedText_single fun hc => h.trailing hc rfl
  | cons d t =>
    cases t with
    | cons e t =>
      rw [escapedText, hHere]
      exact escapeTrailing_append [c] (length_replaceQuotes d e t)
    | nil =>
      by_cases hd : d = quotationMark
      · subst hd
        have hSlash : c ≠ backslash := fun hc => h.escaped hc rfl
        have hEnd : ¬ [backslash, quotationMark] <:+ [c, quotationMark] := fun hSuffix =>
          hSlash (List.cons.inj (hSuffix.eq_of_length rfl)).1.symm
        rw [escapedText, hHere, replaceAll, if_neg (not_triple_single _), replaceAll, escapeTrailing,
          if_pos ⟨⟨[c], rfl⟩, hEnd⟩]
        rfl
      · have hEnd : ¬ [quotationMark] <:+ [c, d] := by
          intro hSuffix
          have hLast := List.suffix_of_suffix_length_le hSuffix (List.suffix_append [c] [d]) (Nat.le_refl 1)
          exact hd (List.cons.inj (hLast.eq_of_length rfl)).1.symm
        rw [escapedText_single hd, escapedText, hHere, replaceAll, if_neg (not_triple_single d), replaceAll,
          escapeTrailing, if_neg fun hBoth => hEnd hBoth.1]

theorem stands_of_inert {c : Char} (h : Inert c) (t : Str) : Stands c t := by
  refine ⟨?_, fun hc => absurd hc h.2, fun hc => absurd hc h.1⟩
  rintro ⟨rest, hRest⟩
  exact h.2 (List.cons.inj hRest).1.symm

theorem escapedText_induction {P : Str → Prop} (nil : P []) (trailing : P [quotationMark])
    (escaped : P [backslash, quotationMark]) (triple : ∀ t, P t → P (tripleQuotes ++ t))
    (cons : ∀ c t, Stands c t → (∀ s : Str, s.length ≤ t.length → P s) → P (c :: t)) (t : Str) : P t := by
  induction h : t.length using Nat.strong_induction_on generalizing t with
  | _ n ih =>
    subst h
    cases t with
    | nil => exact nil
    | cons c t =>
      by_cases hTriple : tripleQuotes <+: c :: t
      · obtain ⟨rest, hRest⟩ := hTriple
        rw [← hRest]
        refine triple rest (ih rest.length ?_ rest rfl)
        rw [← hRest, List.length_append]
        exact Nat.lt_add_of_pos_left (by decide)
      · by_cases hTrailing : c = quotationMark ∧ t = []
        · obtain ⟨rfl, rfl⟩ := hTrailing
          exact trailing
        · by_cases hEscaped : c = backslash ∧ t = [quotationMark]
          · obtain ⟨rfl, rfl⟩ := hEscaped
            exact escaped
          · refine cons c t ⟨hTriple, fun hc ht => hTrailing ⟨hc, ht⟩, fun hc ht => hEscaped ⟨hc, ht⟩⟩ fun s hs => ?_
            exact ih s.length (Nat.lt_succ_of_le hs) s rfl

theorem escapedText_of_not_mem {t : Str} (h : quotationMark ∉ t) : escapedText t = t := by
  have hTriple : ¬ tripleQuotes <:+: t := fun hInfix => h (hInfix.subset List.mem_cons_self)
  have hEnd : ¬ [quotationMark] <:+ t := fun hSuffix => h (hSuffix.subset List.mem_cons_self)
  rw [escapedText, replaceAll_of_not_infix hTriple, escapeTrailing, if_neg fun hBoth => hEnd hBoth.1]

theorem mem_escapedText {c : Char} (h : Inert c) (t : Str) : c ∈ escapedText t ↔ c ∈ t := by
  have hQuotes : c ∉ escapedQuotes ∧ c ∉ tripleQuotes := by
    simp [escapedQuotes, tripleQuotes, h.1, h.2]
  induction t using escapedText_induction with
  | nil => rfl
  | trailing => simp [show escapedText [quotationMark] = [backslash, quotationMark] from rfl, h.1]
  | escaped => rfl
  | triple t ih =>
    rw [escapedText_triple, List.mem_append, List.mem_append, or_iff_right hQuotes.1, or_iff_right hQuotes.2]
    exact ih
  | cons d t hStands ih =>
    rw [escapedText_cons hStands, List.mem_cons, List.mem_cons]
    exact or_congr_right (ih t (Nat.le_refl _))

theorem eq_cons_of_escapedText {c : Char} (hc : c ≠ backslash) {t e : Str} (h : escapedText t = c :: e) :
    ∃ s, t = c :: s ∧ e = escapedText s ∧ (c = quotationMark → s ≠ []) := by
  induction t using escapedText_induction with
  | nil => cases h
  | trailing => exact absurd (List.cons.inj h).1.symm hc
  | escaped => exact absurd (List.cons.inj h).1.symm hc
  | triple t ih =>
    rw [escapedText_triple] at h
    exact absurd (List.cons.inj h).1.symm hc
  | cons d t hStands ih =>
    rw [escapedText_cons hStands] at h
    obtain ⟨rfl, rfl⟩ := List.cons.inj h
    exact ⟨t, rfl, rfl, hStands.trailing⟩

theorem eq_append_of_escapedText {front : Str} (hFront : ∀ c ∈ front, Inert c) {t e : Str}
    (h : escapedText t = front ++ e) : ∃ s, t = front ++ s ∧ e = escapedText s := by
  induction front generalizing t with
  | nil => exact ⟨t, rfl, h.symm⟩
  | cons c front ih =>
    obtain ⟨s, rfl, hRest, -⟩ := eq_cons_of_escapedText (hFront c List.mem_cons_self).1 h
    obtain ⟨s', rfl, hBack⟩ := ih (fun d hd => hFront d (List.mem_cons_of_mem c hd)) hRest.symm
    exact ⟨s', rfl, hBack⟩

/-! ## Line ends -/

theorem prefix_of_newlines {front : Str} (hFront : ∀ c ∈ front, c ≠ '\n') {s : Str} (h : front <+: newlines false s) :
    front <+: s := by
  induction front generalizing s with
  | nil => exact List.nil_prefix
  | cons c front ih =>
    cases s with
    | nil => exact absurd (List.prefix_nil.mp h) (List.cons_ne_nil c front)
    | cons d s =>
      obtain ⟨rest, hRest⟩ := h
      rw [newlines] at hRest
      split at hRest
      · exact absurd (List.cons.inj hRest).1 (hFront c List.mem_cons_self)
      · rw [if_neg fun hBoth => Bool.false_ne_true hBoth.1] at hRest
        obtain ⟨rfl, hTail⟩ := List.cons.inj hRest
        exact (List.prefix_cons_inj c).mpr (ih (fun e he => hFront e (List.mem_cons_of_mem c he)) ⟨rest, hTail⟩)

theorem newlines_eq_nil {s : Str} (h : newlines false s = []) : s = [] := by
  cases s with
  | nil => rfl
  | cons c s =>
    rw [newlines] at h
    split at h
    · cases h
    · rw [if_neg fun hBoth => Bool.false_ne_true hBoth.1] at h
      cases h

theorem Stands.newlines {c : Char} {t : Str} (h : Stands c t) (hc : c ≠ '\n') : Stands c (newlines false t) := by
  have hPlain : ∀ c ∈ tripleQuotes.tail, c ≠ '\n' := by decide
  refine ⟨fun hPrefix => ?_, fun hQuote hNil => h.trailing hQuote (newlines_eq_nil hNil), fun hSlash hOne => ?_⟩
  · have hQuote : quotationMark = c := (List.cons_prefix_cons.mp hPrefix).1
    subst hQuote
    have hBack := prefix_of_newlines hPlain ((List.prefix_cons_inj quotationMark).mp hPrefix)
    exact h.triple ((List.prefix_cons_inj quotationMark).mpr hBack)
  · have hFront : [quotationMark] <+: Genpy.newlines false t := ⟨[], hOne.symm⟩
    obtain ⟨s, rfl⟩ := prefix_of_newlines (by decide) hFront
    have hTail : Genpy.newlines false s = [] := by
      rw [append_newlines (by decide)] at hOne
      exact (List.cons.inj hOne).2
    rw [newlines_eq_nil hTail] at h
    exact h.escaped hSlash rfl

theorem newlines_escapedText (returned : Bool) (t : Str) :
    newlines returned (escapedText t) = escapedText (newlines returned t) := by
  induction t using escapedText_induction generalizing returned with
  | nil => cases returned <;> rfl
  | trailing => cases returned <;> decide
  | escaped => cases returned <;> decide
  | triple t ih =>
    have hFront : ∀ s, newlines returned (tripleQuotes ++ s) = tripleQuotes ++ newlines false s ∧
        newlines returned (escapedQuotes ++ s) = escapedQuotes ++ newlines false s := by
      intro s
      cases returned <;> exact ⟨rfl, rfl⟩
    rw [escapedText_triple, (hFront _).1, (hFront _).2, escapedText_triple, ih]
  | cons c t hStands ih =>
    have hIh := ih t (Nat.le_refl _)
    rw [escapedText_cons hStands, newlines, newlines]
    split
    · rw [hIh, escapedText_cons (stands_of_inert ⟨by decide, by decide⟩ _)]
    · split
      · exact hIh false
      · rename_i hKeep
        rw [hIh]
        by_cases hLine : c = '\n'
        · rw [escapedText_cons (stands_of_inert (hLine ▸ ⟨by decide, by decide⟩) _)]
        · rw [escapedText_cons (hStands.newlines hLine)]

/-! ## What is kept -/

/-- Each backslash stands in front of triple quotes or of a character that begins no escape sequence. -/
def KeepsBackslashes (t : Str) : Prop :=
  ∀ back, backslash :: back <:+ t → tripleQuotes <+: back ∨ back.head?.map beginsEscape = some false

theorem keepsBackslashes_nil : KeepsBackslashes [] := fun _ hSuffix =>
  absurd (List.suffix_nil.mp hSuffix) (List.cons_ne_nil _ _)

theorem keepsBackslashes_backslash {t : Str} :
    KeepsBackslashes (backslash :: t) ↔ (tripleQuotes <+: t ∨ t.head?.map beginsEscape = some false) ∧ KeepsBackslashes t := by
  constructor
  · exact fun h => ⟨h t List.suffix_rfl, fun back hBack => h back (hBack.trans (List.suffix_cons _ _))⟩
  · rintro ⟨hHere, h⟩ back hBack
    obtain hEq | hBack := List.suffix_cons_iff.mp hBack
    · obtain ⟨-, rfl⟩ := List.cons.inj hEq
      exact hHere
    · exact h back hBack

theorem keepsBackslashes_cons {c : Char} (hc : c ≠ backslash) {t : Str} :
    KeepsBackslashes (c :: t) ↔ KeepsBackslashes t := by
  constructor
  · exact fun h back hBack => h back (hBack.trans (List.suffix_cons _ _))
  · intro h back hBack
    obtain hEq | hBack := List.suffix_cons_iff.mp hBack
    · exact absurd (List.cons.inj hEq).1.symm hc
    · exact h back hBack

theorem keepsBackslashes_append {front : Str} (hFront : backslash ∉ front) {t : Str} :
    KeepsBackslashes (front ++ t) ↔ KeepsBackslashes t := by
  induction front with
  | nil => rfl
  | cons c front ih =>
    rw [List.cons_append, keepsBackslashes_cons fun hEq => hFront (hEq ▸ List.mem_cons_self),
      ih fun hMem => hFront (List.mem_cons_of_mem c hMem)]

instance decidableKeepsBackslashes : (t : Str) → Decidable (KeepsBackslashes t)
  | [] => isTrue keepsBackslashes_nil
  | c :: t =>
    have : Decidable (KeepsBackslashes t) := decidableKeepsBackslashes t
    if hc : c = backslash then decidable_of_iff _ (hc ▸ keepsBackslashes_backslash.symm)
    else decidable_of_iff _ (keepsBackslashes_cons hc).symm

/-! ## What is decoded -/

structure Faithful (t : Str) (result : Option (List CodePoint)) (kept : Prop) : Prop where
  back : kept → result = some (t.map CodePoint.ofChar)
  less : ∀ out, result = some out → out.length ≤ t.length ∧ (out.length = t.length → kept)

section

variable {t : Str} {result : Option (List CodePoint)} {kept : Prop}

theorem Faithful.append (h : Faithful t result kept) (front : Str) :
    Faithful (front ++ t) (result.map (front.map CodePoint.ofChar ++ ·)) kept := by
  constructor
  · intro hKept
    rw [h.back hKept, Option.map_some, List.map_append]
  · intro out hOut
    obtain ⟨rest, hRest, rfl⟩ := Option.map_eq_some_iff.mp hOut
    obtain ⟨hLess, hAll⟩ := h.less rest hRest
    rw [List.length_append, List.length_append, List.length_map]
    exact ⟨Nat.add_le_add_left hLess _, fun hEq => hAll (Nat.add_left_cancel hEq)⟩

theorem Faithful.congr (h : Faithful t result kept) {kept' : Prop} (hIff : kept' ↔ kept) : Faithful t result kept' :=
  ⟨fun hKept => h.back (hIff.mp hKept), fun out hOut => (h.less out hOut).imp_right fun hAll hEq => hIff.mpr (hAll hEq)⟩

theorem faithful_of_lt (hKept : ¬ kept) (h : ∀ out, result = some out → out.length < t.length) :
    Faithful t result kept :=
  ⟨fun h => absurd h hKept, fun out hOut => ⟨(h out hOut).le, fun hEq => absurd (h out hOut) hEq.not_lt⟩⟩

end

variable {names : CharNames}

theorem faithful_lost {t : Str} (hKept : ¬ KeepsBackslashes (backslash :: t)) {c : Char} (hc : beginsEscape c = true)
    {s : Str} (hText : escapedText t = c :: escapedText s) (hLength : s.length < t.length)
    (h : ∀ r : Str, r.length ≤ s.length → Faithful r (decode names 0 (escapedText r)) (KeepsBackslashes r)) :
    Faithful (backslash :: t) (decode names 0 (backslash :: escapedText t)) (KeepsBackslashes (backslash :: t)) := by
  refine faithful_of_lt hKept fun out hOut => ?_
  rw [hText] at hOut
  cases hEscape : escape names (c :: escapedText s) with
  | none =>
    rw [decode_of_none hEscape] at hOut
    cases hOut
  | some escaped =>
    obtain ⟨first, back⟩ := escaped
    obtain ⟨hOne, front, hInert, hFront⟩ := escape_spec hc hEscape
    obtain ⟨r, rfl, rfl⟩ := eq_append_of_escapedText hInert hFront
    rw [decode_escape hEscape] at hOut
    obtain ⟨rest, hRest, rfl⟩ := Option.map_eq_some_iff.mp hOut
    have hShort : r.length ≤ (front ++ r).length := by
      rw [List.length_append]
      exact Nat.le_add_left _ _
    obtain ⟨hLess, -⟩ := (h r hShort).less rest hRest
    rw [List.length_append, List.length_cons]
    omega

theorem faithful_escapedText (names : CharNames) (t : Str) :
    Faithful t (decode names 0 (escapedText t)) (KeepsBackslashes t) := by
  induction t using escapedText_induction with
  | nil => exact ⟨fun _ => rfl, fun out hOut => ⟨by cases hOut; rfl, fun _ => keepsBackslashes_nil⟩⟩
  | trailing =>
    have hOne : decode names 0 (escapedText [quotationMark]) = some ([quotationMark].map CodePoint.ofChar) :=
      decode_escaped (.inr rfl) []
    have hKept : KeepsBackslashes [quotationMark] := (keepsBackslashes_cons (by decide)).mpr keepsBackslashes_nil
    exact ⟨fun _ => hOne, fun out hOut => by cases hOne.symm.trans hOut; exact ⟨Nat.le_refl _, fun _ => hKept⟩⟩
  | escaped =>
    refine faithful_of_lt (fun hKept => ?_) fun out hOut => ?_
    · obtain hTriple | hHead := (keepsBackslashes_backslash.mp hKept).1
      · exact not_triple_single _ hTriple
      · exact absurd hHead (by decide)
    · cases (decode_escaped (.inr rfl) []).symm.trans hOut
      decide
  | triple t ih =>
    have hDecode : decode names 0 (escapedQuotes ++ escapedText t) =
        (decode names 0 (escapedText t)).map (tripleQuotes.map CodePoint.ofChar ++ ·) := by
      show decode names 0 (backslash :: quotationMark :: backslash :: quotationMark :: backslash :: quotationMark ::
        escapedText t) = _
      rw [decode_escaped (.inr rfl), decode_escaped (.inr rfl), decode_escaped (.inr rfl), Option.map_map,
        Option.map_map]
      rfl
    rw [escapedText_triple, hDecode]
    exact (ih.append tripleQuotes).congr (keepsBackslashes_append (by decide))
  | cons c t hStands ih =>
    rw [escapedText_cons hStands]
    by_cases hc : c = backslash
    · subst hc
      by_cases hTriple : tripleQuotes <+: t
      · obtain ⟨s, rfl⟩ := hTriple
        have hDecode : decode names 0 (backslash :: escapedText (tripleQuotes ++ s)) =
            (decode names 0 (escapedText s)).map ((backslash :: tripleQuotes).map CodePoint.ofChar ++ ·) := by
          rw [escapedText_triple]
          show decode names 0 (backslash :: backslash :: quotationMark :: backslash :: quotationMark :: backslash ::
            quotationMark :: escapedText s) = _
          rw [decode_escaped (.inl rfl), decode_cons (by decide), decode_escaped (.inr rfl), decode_escaped (.inr rfl),
            Option.map_map, Option.map_map, Option.map_map]
          rfl
        rw [hDecode]
        refine ((ih s (by simp)).append (backslash :: tripleQuotes)).congr ?_
        show KeepsBackslashes (backslash :: (tripleQuotes ++ s)) ↔ _
        rw [keepsBackslashes_backslash, keepsBackslashes_append (by decide)]
        exact and_iff_right (.inl (List.prefix_append _ _))
      · cases t with
        | nil =>
          have hNone : decode names 0 (backslash :: escapedText []) = none := rfl
          rw [hNone]
          refine faithful_of_lt (fun hKept => ?_) fun out hOut => by cases hOut
          obtain hPrefix | hHead := (keepsBackslashes_backslash.mp hKept).1
          · exact hTriple hPrefix
          · cases hHead
        | cons d s =>
          cases hBegins : beginsEscape d with
          | false =>
            have hInert := inert_of_not_beginsEscape hBegins
            rw [escapedText_cons (stands_of_inert hInert s), decode_escape (escape_kept hBegins _)]
            refine ((ih s (Nat.le_succ _)).append [backslash, d]).congr ?_
            show KeepsBackslashes (backslash :: d :: s) ↔ _
            rw [keepsBackslashes_backslash, keepsBackslashes_cons hInert.1]
            exact and_iff_right (.inr (congrArg some hBegins))
          | true =>
            have hLost : ¬ KeepsBackslashes (backslash :: d :: s) := by
              intro hKept
              obtain hPrefix | hHead := (keepsBackslashes_backslash.mp hKept).1
              · exact hTriple hPrefix
              · exact Bool.false_ne_true ((Option.some.inj hHead).symm.trans hBegins)
            by_cases hPair : d = backslash ∧ s = [quotationMark]
            · obtain ⟨rfl, rfl⟩ := hPair
              refine faithful_of_lt hLost fun out hOut => ?_
              cases (decode_escaped (.inl rfl) [quotationMark]).symm.trans hOut
              decide
            · have hNext : Stands d s := by
                refine ⟨hTriple, fun hd hs => ?_, fun hd hs => hPair ⟨hd, hs⟩⟩
                subst hd hs
                exact hStands.escaped rfl rfl
              exact faithful_lost hLost hBegins (escapedText_cons hNext) (Nat.lt_succ_self _) fun r hr =>
                ih r (hr.trans (Nat.le_succ _))
    · rw [decode_cons hc]
      exact ((ih t (Nat.le_refl _)).append [c]).congr (keepsBackslashes_cons hc)

/-! ## Where the full text ends -/

theorem readBody_escaped {quote s body after : Str} (h : readBody quote s = some (body, after)) (c : Char) :
    readBody quote (backslash :: c :: s) = some (backslash :: c :: body, after) := by
  rw [readBody_pair, h]
  rfl

theorem readBody_standing {quote s body after : Str} (h : readBody quote s = some (body, after)) {c : Char}
    (hPlain : c ≠ backslash) (hQuote : ¬ quote <+: c :: s) (hLine : c = '\n' → quote.length ≠ 1) :
    readBody quote (c :: s) = some (c :: body, after) := by
  rw [readBody_cons hPlain hQuote hLine, h]
  rfl

theorem escapedText_ne_nil {t : Str} (h : t ≠ []) : escapedText t ≠ [] := by
  induction t using escapedText_induction with
  | nil => exact absurd rfl h
  | trailing => exact List.cons_ne_nil _ _
  | escaped => exact List.cons_ne_nil _ _
  | triple t ih =>
    rw [escapedText_triple]
    exact List.cons_ne_nil _ _
  | cons c t hStands ih =>
    rw [escapedText_cons hStands]
    exact List.cons_ne_nil _ _

theorem prefix_of_escapedText {c : Char} (hc : c ≠ backslash) {t front back : Str} (hSome : t ≠ [])
    (h : c :: front <+: escapedText t ++ back) :
    ∃ s, t = c :: s ∧ front <+: escapedText s ++ back ∧ (c = quotationMark → s ≠ []) := by
  obtain ⟨d, e, hText⟩ := List.exists_cons_of_ne_nil (escapedText_ne_nil hSome)
  rw [hText, List.cons_append] at h
  obtain ⟨rfl, hFront⟩ := List.cons_prefix_cons.mp h
  obtain ⟨s, rfl, rfl, hMore⟩ := eq_cons_of_escapedText hc hText
  exact ⟨s, rfl, hFront, hMore⟩

theorem Stands.not_triple {c : Char} {t : Str} (h : Stands c t) (back : Str) :
    ¬ tripleQuotes <+: c :: (escapedText t ++ back) := by
  intro hPrefix
  obtain ⟨rfl, hTwo⟩ := List.cons_prefix_cons.mp hPrefix
  obtain ⟨s, rfl, hOne, hMore⟩ := prefix_of_escapedText (by decide) (h.trailing rfl) hTwo
  obtain ⟨s, rfl, -, -⟩ := prefix_of_escapedText (by decide) (hMore rfl) hOne
  exact h.triple (List.prefix_append tripleQuotes s)

theorem readBody_triple (s : Str) : readBody tripleQuotes (tripleQuotes ++ s) = some ([], s) :=
  readBody_quote (List.cons_ne_nil _ _) (by decide) s

theorem readBody_escapedText {t : Str} (h : KeepsBackslashes t) :
    readBody tripleQuotes (escapedText t ++ tripleQuotes) = some (escapedText t, []) := by
  induction t using escapedText_induction with
  | nil => exact readBody_triple []
  | trailing => exact readBody_escaped (readBody_triple []) quotationMark
  | escaped =>
    obtain hTriple | hHead := (keepsBackslashes_backslash.mp h).1
    · exact absurd hTriple (not_triple_single _)
    · exact absurd hHead (by decide)
  | triple t ih =>
    rw [escapedText_triple]
    have hRest := ih ((keepsBackslashes_append (by decide)).mp h)
    exact readBody_escaped (readBody_escaped (readBody_escaped hRest _) _) _
  | cons c t hStands ih =>
    by_cases hc : c = backslash
    · subst hc
      obtain ⟨hHere, hBack⟩ := keepsBackslashes_backslash.mp h
      rw [escapedText_cons hStands]
      obtain ⟨s, rfl⟩ | hHead := hHere
      · have hRest := ih s (by simp) ((keepsBackslashes_append (by decide)).mp hBack)
        rw [escapedText_triple]
        have hQuote : ¬ tripleQuotes <+: quotationMark :: (backslash :: quotationMark :: backslash :: quotationMark ::
            (escapedText s ++ tripleQuotes)) := by
          intro hPrefix
          obtain ⟨-, hTwo⟩ := List.cons_prefix_cons.mp hPrefix
          exact absurd (List.cons_prefix_cons.mp hTwo).1 (by decide)
        have hPairs := readBody_escaped (readBody_escaped hRest quotationMark) quotationMark
        exact readBody_escaped (readBody_standing hPairs (by decide) hQuote (by decide)) backslash
      · obtain ⟨d, hd, hBegins⟩ := Option.map_eq_some_iff.mp hHead
        obtain ⟨s, rfl⟩ := List.head?_eq_some_iff.mp hd
        have hInert := inert_of_not_beginsEscape hBegins
        rw [escapedText_cons (stands_of_inert hInert s)]
        exact readBody_escaped (ih s (Nat.le_succ _) ((keepsBackslashes_cons hInert.1).mp hBack)) d
    · rw [escapedText_cons hStands, List.cons_append]
      have hRest := ih t (Nat.le_refl _) ((keepsBackslashes_cons hc).mp h)
      exact readBody_standing hRest hc (hStands.not_triple tripleQuotes) fun _ => by decide

end XcRos.Genpy
