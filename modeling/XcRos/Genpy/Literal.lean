import XcRos.Genpy.PyVal

/-! # String literals of Python

How a string literal in a source file is read: where its body ends, and what the body denotes. A backslash
in front of a character that begins no escape sequence is kept.
-/

namespace XcRos.Genpy

open XcRos.Foundation XcRos.Msg

def backslash : Char := '\\'

def quotationMark : Char := Char.ofNat 34

def apostrophe : Char := Char.ofNat 39

/-- Names of characters, which are put together from letters, digits, hyphens and blanks. -/
structure CharNames where
  lookup : Str → Option CodePoint
  plain : ∀ name c, lookup name = some c → backslash ∉ name ∧ quotationMark ∉ name

/-! ## Escape sequences -/

def letterEscapes : List (Char × CodePoint) :=
  [(backslash, 92), (apostrophe, 39), (quotationMark, 34), ('a', 7), ('b', 8), ('f', 12), ('n', 10), ('r', 13),
    ('t', 9), ('v', 11)]

def isOctal (c : Char) : Bool := '0' ≤ c && c ≤ '7'

def hexDigit (c : Char) : Option Nat :=
  if '0' ≤ c ∧ c ≤ '9' then some (c.toNat - 48)
  else if 'a' ≤ c ∧ c ≤ 'f' then some (c.toNat - 87)
  else if 'A' ≤ c ∧ c ≤ 'F' then some (c.toNat - 55)
  else none

def codePoint (n : Nat) : Option CodePoint := if h : n < 0x110000 then some ⟨n, h⟩ else none

def hexNumber (digits : Nat) (s : Str) : Option Nat :=
  if s.length < digits then none
  else ((s.take digits).mapM hexDigit).map fun ds => ds.foldl (fun n d => 16 * n + d) 0

def hexEscape (digits : Nat) (s : Str) : Option (List CodePoint × Str) :=
  ((hexNumber digits s).bind codePoint).map fun c => ([c], s.drop digits)

def octalDigits (s : Str) : Str := (s.take 3).takeWhile isOctal

def octalEscape (s : Str) : Option (List CodePoint × Str) :=
  (codePoint ((octalDigits s).foldl (fun n c => 8 * n + (c.toNat - 48)) 0)).map fun c =>
    ([c], s.drop (octalDigits s).length)

section

variable (names : CharNames)

def namedEscape (s : Str) : Option (List CodePoint × Str) :=
  let name := s.tail.takeWhile (· ≠ '\x7d')
  if s.head? = some '\x7b' ∧ (s.tail.drop name.length).head? = some '\x7d' then
    (names.lookup name).map fun c => ([c], s.tail.drop (name.length + 1))
  else none

/-- What stands behind a backslash: the characters that it denotes, and what follows. -/
def escape : Str → Option (List CodePoint × Str)
  | [] => none
  | c :: rest =>
    if c = '\n' then some ([], rest)
    else
      match letterEscapes.lookup c with
      | some d => some ([d], rest)
      | none =>
        if c = 'x' then hexEscape 2 rest
        else if c = 'u' then hexEscape 4 rest
        else if c = 'U' then hexEscape 8 rest
        else if c = 'N' then namedEscape names rest
        else if isOctal c then octalEscape (c :: rest)
        else some ([CodePoint.ofChar backslash, CodePoint.ofChar c], rest)

def beginsEscape (c : Char) : Bool :=
  c = '\n' || (letterEscapes.lookup c).isSome || ['x', 'u', 'U', 'N'].contains c || isOctal c

/-- A character that neither begins an escape sequence nor could close a string. -/
def Inert (c : Char) : Prop := c ≠ backslash ∧ c ≠ quotationMark

variable {names}

theorem inert_of_isOctal {c : Char} (h : isOctal c = true) : Inert c := by
  constructor
  · rintro rfl
    cases h
  · rintro rfl
    cases h

theorem inert_of_hexDigit {c : Char} {n : Nat} (h : hexDigit c = some n) : Inert c := by
  constructor
  · rintro rfl
    cases h
  · rintro rfl
    cases h

theorem inert_of_not_beginsEscape {c : Char} (h : beginsEscape c = false) : Inert c := by
  constructor
  · rintro rfl
    exact absurd h (by decide)
  · rintro rfl
    exact absurd h (by decide)

theorem hexNumber_inert {digits : Nat} {s : Str} {n : Nat} (h : hexNumber digits s = some n) :
    ∀ c ∈ s.take digits, Inert c := by
  rw [hexNumber] at h
  split at h
  · cases h
  · obtain ⟨ds, hDigits, -⟩ := Option.map_eq_some_iff.mp h
    intro c hc
    have hEach : List.Forall₂ (fun d c => hexDigit c = some d) ds (s.take digits) :=
      (mapM_eq_some_iff.mp hDigits).flip
    obtain ⟨d, -, hd⟩ := exists_left_of_forall₂ hEach hc
    exact inert_of_hexDigit hd

theorem hexEscape_spec {digits : Nat} {s rest : Str} {out : List CodePoint}
    (h : hexEscape digits s = some (out, rest)) :
    out.length = 1 ∧ ∃ front, (∀ c ∈ front, Inert c) ∧ s = front ++ rest := by
  obtain ⟨c, hCode, hEq⟩ := Option.map_eq_some_iff.mp h
  obtain ⟨n, hNumber, -⟩ := Option.bind_eq_some_iff.mp hCode
  cases hEq
  exact ⟨rfl, s.take digits, hexNumber_inert hNumber, (List.take_append_drop digits s).symm⟩

theorem octalEscape_spec {c : Char} {s rest : Str} {out : List CodePoint} (hOctal : isOctal c = true)
    (h : octalEscape (c :: s) = some (out, rest)) :
    out.length = 1 ∧ ∃ front, (∀ d ∈ front, Inert d) ∧ s = front ++ rest := by
  obtain ⟨value, -, hEq⟩ := Option.map_eq_some_iff.mp h
  cases hEq
  have hDigits : octalDigits (c :: s) = c :: (s.take 2).takeWhile isOctal := by
    rw [octalDigits, List.take_succ_cons, List.takeWhile_cons_of_pos hOctal]
  have hPrefix : (s.take 2).takeWhile isOctal <+: s := (List.takeWhile_prefix _).trans (List.take_prefix 2 s)
  refine ⟨rfl, (s.take 2).takeWhile isOctal, fun d hd => inert_of_isOctal (List.mem_takeWhile_imp hd), ?_⟩
  rw [hDigits, List.length_cons, List.drop_succ_cons]
  exact List.prefix_iff_eq_append.mp hPrefix |>.symm

theorem namedEscape_spec {s rest : Str} {out : List CodePoint} (h : namedEscape names s = some (out, rest)) :
    out.length = 1 ∧ ∃ front, (∀ c ∈ front, Inert c) ∧ s = front ++ rest := by
  rw [namedEscape] at h
  split at h
  · rename_i hBraces
    obtain ⟨hOpen, hClose⟩ := hBraces
    obtain ⟨value, hLookup, hEq⟩ := Option.map_eq_some_iff.mp h
    cases hEq
    obtain ⟨c, tail, rfl⟩ := List.exists_cons_of_ne_nil (fun hNil : s = [] => by rw [hNil] at hOpen; cases hOpen)
    cases hOpen
    rw [List.tail_cons] at hLookup hClose ⊢
    set name := tail.takeWhile (· ≠ '\x7d') with hName
    have hSplit : tail = name ++ tail.drop name.length :=
      (List.prefix_iff_eq_append.mp (List.takeWhile_prefix _)).symm
    obtain ⟨d, after, hAfter⟩ := List.exists_cons_of_ne_nil (fun hNil : tail.drop name.length = [] => by
      rw [hNil] at hClose
      cases hClose)
    rw [hAfter] at hClose hSplit
    cases hClose
    have hRest : tail.drop (name.length + 1) = after := by
      rw [← List.drop_drop, hAfter]
      rfl
    obtain ⟨hPlain, hQuote⟩ := names.plain name value hLookup
    refine ⟨rfl, '\x7b' :: (name ++ ['\x7d']), fun c hc => ?_, ?_⟩
    · simp only [List.mem_cons, List.mem_append, List.not_mem_nil, or_false] at hc
      obtain rfl | hc | rfl := hc
      · exact ⟨by decide, by decide⟩
      · exact ⟨fun hEq => hPlain (hEq ▸ hc), fun hEq => hQuote (hEq ▸ hc)⟩
      · exact ⟨by decide, by decide⟩
    · rw [hRest, List.cons_append, List.append_assoc]
      exact congrArg ('\x7b' :: ·) hSplit
  · cases h

theorem escape_kept {c : Char} (h : beginsEscape c = false) (s : Str) :
    escape names (c :: s) = some ([CodePoint.ofChar backslash, CodePoint.ofChar c], s) := by
  simp only [beginsEscape, Bool.or_eq_false_iff, decide_eq_false_iff_not, Option.isSome_eq_false_iff,
    Option.isNone_iff_eq_none, List.contains_eq_mem, List.mem_cons, List.not_mem_nil, or_false, not_or] at h
  obtain ⟨⟨⟨hNewline, hLetter⟩, hx, hu, hU, hN⟩, hOctal⟩ := h
  rw [escape, if_neg hNewline, hLetter]
  dsimp only
  rw [if_neg hx, if_neg hu, if_neg hU, if_neg hN, hOctal]
  rfl

theorem escape_spec {c : Char} (h : beginsEscape c = true) {s rest : Str} {out : List CodePoint}
    (hEscape : escape names (c :: s) = some (out, rest)) :
    out.length ≤ 1 ∧ ∃ front, (∀ d ∈ front, Inert d) ∧ s = front ++ rest := by
  rw [escape] at hEscape
  split at hEscape
  · cases hEscape
    exact ⟨Nat.zero_le 1, [], fun d hd => absurd hd List.not_mem_nil, rfl⟩
  · rename_i hNewline
    split at hEscape
    · cases hEscape
      exact ⟨Nat.le_refl 1, [], fun d hd => absurd hd List.not_mem_nil, rfl⟩
    · rename_i hLetter
      have hOne : out.length = 1 ∧ ∃ front, (∀ d ∈ front, Inert d) ∧ s = front ++ rest := by
        split at hEscape
        · exact hexEscape_spec hEscape
        · split at hEscape
          · exact hexEscape_spec hEscape
          · split at hEscape
            · exact hexEscape_spec hEscape
            · split at hEscape
              · exact namedEscape_spec hEscape
              · split at hEscape
                · rename_i hOctal
                  exact octalEscape_spec hOctal hEscape
                · rename_i hx hu hU hN hOctal
                  simp [beginsEscape, hNewline, hLetter, hx, hu, hU, hN, hOctal] at h
      exact ⟨hOne.1.le, hOne.2⟩

theorem escape_suffix {s rest : Str} {out : List CodePoint} (h : escape names s = some (out, rest)) :
    ∃ front, s = front ++ rest := by
  cases s with
  | nil => cases h
  | cons c s =>
    cases hBegins : beginsEscape c with
    | true =>
      obtain ⟨-, front, -, rfl⟩ := escape_spec hBegins h
      exact ⟨c :: front, rfl⟩
    | false =>
      rw [escape_kept hBegins] at h
      cases h
      exact ⟨[c], rfl⟩

/-! ## Bodies -/

variable (names)

/-- What a body denotes; the escape sequence in front extends over so many characters yet. -/
def decode : Nat → Str → Option (List CodePoint)
  | _, [] => some []
  | skip + 1, _ :: rest => decode skip rest
  | 0, c :: rest =>
    if c = backslash then
      match escape names rest with
      | none => none
      | some (out, back) => (decode (rest.length - back.length) rest).map (out ++ ·)
    else (decode 0 rest).map (CodePoint.ofChar c :: ·)

variable {names}

theorem decode_skip (front back : Str) : decode names front.length (front ++ back) = decode names 0 back := by
  induction front with
  | nil => rfl
  | cons c front ih => exact ih

theorem decode_cons {c : Char} (h : c ≠ backslash) (s : Str) :
    decode names 0 (c :: s) = (decode names 0 s).map (CodePoint.ofChar c :: ·) := by
  rw [decode, if_neg h]

theorem decode_escape {s back : Str} {out : List CodePoint} (h : escape names s = some (out, back)) :
    decode names 0 (backslash :: s) = (decode names 0 back).map (out ++ ·) := by
  obtain ⟨front, rfl⟩ := escape_suffix h
  rw [decode, if_pos rfl, h]
  dsimp only
  rw [List.length_append, Nat.add_sub_cancel, decode_skip]

theorem decode_of_none {s : Str} (h : escape names s = none) : decode names 0 (backslash :: s) = none := by
  rw [decode, if_pos rfl, h]

theorem decode_escaped {c : Char} (hc : c = backslash ∨ c = quotationMark) (s : Str) :
    decode names 0 (backslash :: c :: s) = (decode names 0 s).map (CodePoint.ofChar c :: ·) := by
  have hEscape : escape names (c :: s) = some ([CodePoint.ofChar c], s) := by
    obtain rfl | rfl := hc <;> rfl
  exact decode_escape hEscape

/-- The body in front of the closing quote, and what follows it. The character behind a backslash closes nothing. -/
def readBody (quote : Str) : Str → Option (Str × Str)
  | [] => none
  | c :: rest =>
    if c = backslash then
      match rest with
      | [] => none
      | d :: rest => (readBody quote rest).map (Prod.map (c :: d :: ·) id)
    else if quote <+: c :: rest then some ([], (c :: rest).drop quote.length)
    else if c = '\n' ∧ quote.length = 1 then none
    else (readBody quote rest).map (Prod.map (c :: ·) id)

variable {quote : Str}

theorem readBody_pair (quote : Str) (d : Char) (s : Str) :
    readBody quote (backslash :: d :: s) = (readBody quote s).map (Prod.map (backslash :: d :: ·) id) := by
  rw [readBody, if_pos rfl]

theorem readBody_cons {c : Char} {s : Str} (hPlain : c ≠ backslash) (hQuote : ¬ quote <+: c :: s)
    (hLine : c = '\n' → quote.length ≠ 1) :
    readBody quote (c :: s) = (readBody quote s).map (Prod.map (c :: ·) id) := by
  rw [readBody.eq_def]
  dsimp only
  rw [if_neg hPlain, if_neg hQuote, if_neg fun h => hLine h.1 h.2]

theorem readBody_quote (hSome : quote ≠ []) (hPlain : quote.head? ≠ some backslash) (s : Str) :
    readBody quote (quote ++ s) = some ([], s) := by
  obtain ⟨c, tail, rfl⟩ := List.exists_cons_of_ne_nil hSome
  rw [List.cons_append, readBody.eq_def]
  dsimp only
  rw [if_neg fun h => hPlain (congrArg some h), if_pos (by rw [← List.cons_append]; exact List.prefix_append _ _),
    ← List.cons_append, List.drop_left]

theorem readBody_sound {s body after : Str} (h : readBody quote s = some (body, after)) :
    s = body ++ quote ++ after := by
  fun_induction readBody quote s generalizing body with
  | case1 => cases h
  | case2 => cases h
  | case3 d rest ih =>
    obtain ⟨⟨inner, after'⟩, hInner, hEq⟩ := Option.map_eq_some_iff.mp h
    cases hEq
    rw [ih hInner]
    rfl
  | case4 c rest _ hPrefix =>
    cases h
    exact (List.prefix_iff_eq_append.mp hPrefix).symm
  | case5 => cases h
  | case6 c rest _ _ _ ih =>
    obtain ⟨⟨inner, after'⟩, hInner, hEq⟩ := Option.map_eq_some_iff.mp h
    cases hEq
    rw [ih hInner]
    rfl

/-! ## Literals -/

def nul : Char := Char.ofNat 0

/-- Line ends as they are read from a file; `returned` says that the one in front was a carriage return. -/
def newlines : Bool → Str → Str
  | _, [] => []
  | returned, c :: rest =>
    if c = '\r' then '\n' :: newlines true rest
    else if returned ∧ c = '\n' then newlines false rest
    else c :: newlines false rest

def openingQuote : Str → Str
  | [] => []
  | c :: rest =>
    if c = quotationMark ∨ c = apostrophe then
      if List.replicate 3 c <+: c :: rest then List.replicate 3 c else [c]
    else []

variable (names)

def evalLiteral (source : Str) : Option (List CodePoint) :=
  if nul ∈ source then none
  else
    let s := newlines false source
    let raw := s.head? = some 'r'
    let s := if raw then s.tail else s
    let quote := openingQuote s
    if quote = [] then none
    else
      match readBody quote (s.drop quote.length) with
      | some (body, []) => if raw then some (body.map CodePoint.ofChar) else decode names 0 body
      | _ => none

variable {names}

theorem newlines_of_not_mem {s : Str} (h : '\r' ∉ s) : newlines false s = s := by
  induction s with
  | nil => rfl
  | cons c s ih =>
    rw [newlines, if_neg fun hEq : c = '\r' => h (hEq ▸ List.mem_cons_self),
      if_neg fun hBoth => Bool.false_ne_true hBoth.1, ih fun hMem => h (List.mem_cons_of_mem c hMem)]

theorem newlines_length (returned : Bool) (s : Str) : (newlines returned s).length ≤ s.length := by
  fun_induction newlines returned s with
  | case1 => exact Nat.le_refl _
  | case2 returned rest ih => exact Nat.succ_le_succ ih
  | case3 returned c rest _ _ ih => exact Nat.le_succ_of_le ih
  | case4 returned c rest _ _ ih => exact Nat.succ_le_succ ih

theorem not_mem_newlines (returned : Bool) (s : Str) : '\r' ∉ newlines returned s := by
  fun_induction newlines returned s with
  | case1 => exact List.not_mem_nil
  | case2 returned rest ih => simp [ih]
  | case3 returned c rest _ _ ih => exact ih
  | case4 returned c rest hReturn _ ih => simp [ih, Ne.symm hReturn]

theorem mem_of_newlines {c : Char} (hc : c ≠ '\n') {returned : Bool} {s : Str} (h : c ∈ newlines returned s) :
    c ∈ s := by
  fun_induction newlines returned s with
  | case1 => cases h
  | case2 returned rest ih =>
    obtain hHere | hRest := List.mem_cons.mp h
    · exact absurd hHere hc
    · exact List.mem_cons_of_mem _ (ih hRest)
  | case3 returned d rest _ _ ih => exact List.mem_cons_of_mem d (ih h)
  | case4 returned d rest _ _ ih =>
    obtain rfl | hRest := List.mem_cons.mp h
    · exact List.mem_cons_self
    · exact List.mem_cons_of_mem d (ih hRest)

theorem newlines_append {tail : Str} (h : ∀ c ∈ tail, c ≠ '\r' ∧ c ≠ '\n') (returned : Bool) (s : Str) :
    newlines returned (s ++ tail) = newlines returned s ++ tail := by
  have hTail : ∀ returned, newlines returned tail = tail := by
    induction tail with
    | nil => exact fun _ => rfl
    | cons c tail ih =>
      intro returned
      obtain ⟨hReturn, hNewline⟩ := h c List.mem_cons_self
      rw [newlines, if_neg hReturn, if_neg fun hBoth => hNewline hBoth.2,
        ih fun d hd => h d (List.mem_cons_of_mem c hd)]
  fun_induction newlines returned s with
  | case1 returned => exact hTail returned
  | case2 returned rest ih => rw [List.cons_append, newlines, if_pos rfl, ih, List.cons_append]
  | case3 returned c rest hReturn hSkip ih => rw [List.cons_append, newlines, if_neg hReturn, if_pos hSkip, ih]
  | case4 returned c rest hReturn hKeep ih =>
    rw [List.cons_append, newlines, if_neg hReturn, if_neg hKeep, ih, List.cons_append]

theorem append_newlines {front : Str} (h : '\r' ∉ front) (s : Str) :
    newlines false (front ++ s) = front ++ newlines false s := by
  induction front with
  | nil => rfl
  | cons c front ih =>
    rw [List.cons_append, newlines, if_neg fun hEq : c = '\r' => h (hEq ▸ List.mem_cons_self),
      if_neg fun hBoth => Bool.false_ne_true hBoth.1, ih fun hMem => h (List.mem_cons_of_mem c hMem), List.cons_append]

theorem head?_newlines {c : Char} (hc : c ≠ '\n') {s : Str} (h : s.head? ≠ some c) :
    (newlines false s).head? ≠ some c := by
  cases s with
  | nil => exact h
  | cons d s =>
    rw [newlines]
    split
    · exact fun hEq => hc (Option.some.inj hEq).symm
    · rw [if_neg fun hBoth => Bool.false_ne_true hBoth.1]
      exact h

def quotes : List Str := [[apostrophe], [quotationMark], List.replicate 3 quotationMark]

def literal (raw : Bool) (quote body : Str) : Str := (if raw then ['r'] else []) ++ quote ++ body ++ quote

theorem openingQuote_quotes (hQuote : quote ∈ quotes) {body : Str} (h : quote.length = 1 → body.head? ≠ quote.head?) :
    openingQuote (quote ++ body ++ quote) = quote := by
  have hSingle : ∀ c, (c = quotationMark ∨ c = apostrophe) → body.head? ≠ some c →
      openingQuote ([c] ++ body ++ [c]) = [c] := by
    intro c hc hHead
    have hShort : ¬ List.replicate 3 c <+: c :: (body ++ [c]) := by
      intro hPrefix
      obtain ⟨rest, hRest⟩ := (List.prefix_cons_inj c).mp hPrefix
      cases body with
      | nil => simp at hRest
      | cons d body => exact hHead (congrArg some (List.cons.inj hRest).1.symm)
    rw [List.singleton_append, List.cons_append, openingQuote, if_pos hc, if_neg hShort]
  simp only [quotes, List.mem_cons, List.not_mem_nil, or_false] at hQuote
  obtain rfl | rfl | rfl := hQuote
  · exact hSingle apostrophe (.inr rfl) (h rfl)
  · exact hSingle quotationMark (.inl rfl) (h rfl)
  · have hPrefix : List.replicate 3 quotationMark <+:
        List.replicate 3 quotationMark ++ body ++ List.replicate 3 quotationMark := by
      rw [List.append_assoc]
      exact List.prefix_append _ _
    have hOpen : ∀ s : Str, List.replicate 3 quotationMark <+: quotationMark :: s →
        openingQuote (quotationMark :: s) = List.replicate 3 quotationMark := by
      intro s hOpen
      rw [openingQuote, if_pos (.inl rfl), if_pos hOpen]
    exact hOpen _ hPrefix

theorem evalLiteral_eq_some_iff {raw : Bool} (hQuote : quote ∈ quotes) {body : Str}
    (h : quote.length = 1 → body.head? ≠ quote.head?) {out : List CodePoint} :
    evalLiteral names (literal raw quote body) = some out ↔
      nul ∉ body ∧ readBody quote (newlines false body ++ quote) = some (newlines false body, []) ∧
        (if raw then some ((newlines false body).map CodePoint.ofChar) else decode names 0 (newlines false body)) =
          some out := by
  obtain ⟨hNul, hSome, hPrefix, hLines⟩ : nul ∉ quote ∧ quote ≠ [] ∧ quote.head? ≠ some 'r' ∧
      ∀ c ∈ quote, c ≠ '\r' ∧ c ≠ '\n' := by
    clear h
    revert quote
    decide
  have hReturn : '\r' ∉ quote := fun hMem => (hLines _ hMem).1 rfl
  have hHead : quote.length = 1 → (newlines false body).head? ≠ quote.head? := by
    intro hOne hEq
    obtain ⟨c, rfl⟩ := List.length_eq_one_iff.mp hOne
    exact head?_newlines (hLines c List.mem_cons_self).2 (h hOne) hEq
  have hNewlines : newlines false (literal raw quote body) = literal raw quote (newlines false body) := by
    rw [literal, literal, newlines_append hLines, append_newlines (by cases raw <;> simp [hReturn])]
  have hMem : nul ∈ literal raw quote body ↔ nul ∈ body := by
    cases raw <;> simp [literal, hNul, show nul ≠ 'r' by decide]
  have hRaw : ((literal raw quote (newlines false body)).head? = some 'r' ↔ raw = true) ∧
      (if (literal raw quote (newlines false body)).head? = some 'r' then (literal raw quote (newlines false body)).tail
        else literal raw quote (newlines false body)) = quote ++ (newlines false body ++ quote) := by
    cases raw with
    | true => simp [literal]
    | false =>
      have hNone : (literal false quote (newlines false body)).head? ≠ some 'r' := by
        obtain ⟨c, tail, rfl⟩ := List.exists_cons_of_ne_nil hSome
        exact hPrefix
      exact ⟨iff_of_false hNone Bool.false_ne_true, by rw [if_neg hNone, literal]; simp⟩
  rw [evalLiteral, hNewlines]
  dsimp only
  rw [hRaw.2, ← List.append_assoc, openingQuote_quotes hQuote hHead, if_neg hSome, List.append_assoc, List.drop_left]
  by_cases hHere : nul ∈ body
  · rw [if_pos (hMem.mpr hHere)]
    exact iff_of_false (fun hEq => by cases hEq) fun hAll => hAll.1 hHere
  · rw [if_neg fun hIn => hHere (hMem.mp hIn)]
    simp only [hRaw.1]
    cases hRead : readBody quote (newlines false body ++ quote) with
    | none => exact iff_of_false (fun hEq => by cases hEq) fun hAll => by cases hAll.2.1
    | some read =>
      obtain ⟨inner, after⟩ := read
      cases after with
      | cons c after =>
        refine iff_of_false (fun hEq => by cases hEq) fun hAll => ?_
        cases hAll.2.1
      | nil =>
        have hInner : inner = newlines false body := by
          have hSound := readBody_sound hRead
          rw [List.append_nil] at hSound
          exact (List.append_cancel_right hSound).symm
        subst hInner
        exact ⟨fun hEq => ⟨hHere, rfl, hEq⟩, fun hAll => hAll.2.2⟩

end

end XcRos.Genpy
