import XcRos.Msg.Loader

/-! # The lines of a message text

What the line without its comment leaves out, how it falls into tokens, and where a string constant
is cut.
-/

namespace XcRos.Msg

abbrev Blanks (s : Str) : Prop := ∀ c ∈ s, isspace c = true

structure Word (s : Str) : Prop where
  nonempty : s ≠ []
  noBlank : ∀ c ∈ s, isspace c = false

theorem Blanks.not_mem {s : Str} (h : Blanks s) {c : Char} (hc : isspace c = false) : c ∉ s := fun hMem => by
  rw [h c hMem] at hc
  cases hc

theorem Word.trimmed {s : Str} (h : Word s) : Trimmed s :=
  ⟨fun c hc => h.noBlank c (List.mem_of_mem_head? hc), fun c hc => h.noBlank c (List.mem_of_getLast? hc)⟩

theorem Blanks.strip {s : Str} (h : Blanks s) : strip s = [] := by
  rw [Msg.strip, lstrip, List.dropWhile_eq_nil_iff.mpr h]
  rfl

/-! ## Tokens -/

theorem stripComments_eq (line : Str) : stripComments line = strip (line.takeWhile (· ≠ '#')) := by
  obtain ⟨rest, hSplit⟩ := List.head?_eq_some_iff.mp (split_head '#' line)
  rw [stripComments, hSplit]
  rfl

theorem trimmed_stripComments (line : Str) : Trimmed (stripComments line) := by
  rw [stripComments_eq]
  exact trimmed_strip _

theorem tokens_blank {c : Char} (hc : isspace c = true) (s : Str) : tokens (c :: s) = tokens s := by
  rw [tokens, split]
  split
  · rfl
  · obtain ⟨part, parts, hSplit⟩ := List.exists_cons_of_ne_nil (split_ne_nil ' ' s)
    have hStrip : strip (c :: part) = strip part := by
      rw [strip, lstrip, List.dropWhile_cons_of_pos hc, strip, lstrip]
    rw [tokens, hSplit]
    dsimp only
    rw [List.map_cons, hStrip, List.map_cons]

theorem tokens_blanks {lead : Str} (hLead : Blanks lead) (s : Str) : tokens (lead ++ s) = tokens s := by
  induction lead with
  | nil => rfl
  | cons c lead ih =>
    rw [List.cons_append, tokens_blank (hLead c List.mem_cons_self),
      ih fun d hd => hLead d (List.mem_cons_of_mem c hd)]

theorem tokens_word {word gap : Str} (hWord : Word word) (hGap : Blanks gap) (hSpace : ' ' ∈ gap) (s : Str) :
    tokens (word ++ gap ++ s) = word :: tokens s := by
  obtain ⟨near, far, rfl, hNear⟩ := List.eq_append_cons_of_mem hSpace
  have hFront : ' ' ∉ word ++ near := by
    rw [List.mem_append]
    rintro (h | h)
    · exact absurd (hWord.noBlank ' ' h) (by decide)
    · exact hNear h
  have hBlanks : Blanks near := fun c hc => hGap c (List.mem_append_left _ hc)
  have hFar : Blanks far := fun c hc => hGap c (List.mem_append_right _ (List.mem_cons_of_mem _ hc))
  have hStrip : strip (word ++ near) = word := by
    rw [strip_append_blanks hBlanks, hWord.trimmed.strip]
  have hText : word ++ (near ++ ' ' :: far) ++ s = (word ++ near) ++ ' ' :: (far ++ s) := by
    simp only [List.append_assoc, List.cons_append]
  rw [hText, tokens, split_append_cons hFront, List.map_cons, hStrip, List.filter_cons_of_pos]
  · exact congrArg _ (tokens_blanks hFar s)
  · exact decide_eq_true hWord.nonempty

/-! ## Places in a line -/

theorem find_append_cons {c : Char} {front : Str} (h : c ∉ front) (back : Str) :
    find c (front ++ c :: back) = front.length := by
  have hIndex : (front ++ c :: back).idxOf? c = some front.length := by
    induction front with
    | nil => simp [List.idxOf?_cons]
    | cons d front ih =>
      have hd : (d == c) = false := beq_eq_false_iff_ne.mpr fun hEq => h (hEq ▸ List.mem_cons_self)
      rw [List.cons_append, List.idxOf?_cons, hd, ih fun hMem => h (List.mem_cons_of_mem d hMem)]
      rfl
  rw [find, hIndex]

theorem slice_between (front back rest : Str) :
    slice (front ++ back ++ rest) front.length (front ++ back).length = back := by
  have hPlace (n : Nat) (s : Str) : (if (n : Int) < 0 then (n : Int) + s.length else n).toNat = n := by
    rw [if_neg (by omega), Int.toNat_natCast]
  rw [slice]
  simp only [hPlace]
  rw [List.take_left, List.drop_left]

theorem slice_from (front back : Str) :
    slice (front ++ back) front.length (front ++ back).length = back := by
  have h := slice_between front back []
  rwa [List.append_nil] at h

theorem slice_found {front back : Str} (hSpace : ' ' ∉ front) (hEquals : '=' ∉ front ++ ' ' :: back) (rest : Str) :
    let line := front ++ ' ' :: back ++ '=' :: rest
    slice line (find ' ' line + 1) (find '=' line) = back ∧ slice line (find '=' line + 1) line.length = rest := by
  have hFirst : find ' ' (front ++ ' ' :: back ++ '=' :: rest) = front.length := by
    rw [List.append_assoc, List.cons_append]
    exact find_append_cons hSpace _
  have hSecond := find_append_cons hEquals rest
  dsimp only
  rw [hFirst, hSecond]
  constructor
  · have h := slice_between (front ++ [' ']) back ('=' :: rest)
    rwa [List.length_append, List.append_assoc front [' '] back] at h
  · have h := slice_from (front ++ ' ' :: back ++ ['=']) rest
    rwa [List.length_append, List.append_assoc (front ++ ' ' :: back) ['='] rest] at h

/-! ## Lines that are read alike -/

section

variable {F : Type} {py : Python F} {package line : Str}

def IsStringConstant (line : Str) : Prop :=
  '=' ∈ stripComments line ∧ (tokens (stripComments line)).headD [] = str "string"

theorem loadLine_congr {line' : Str} (hEmpty : stripComments line = [] ↔ stripComments line' = [])
    (hConst : '=' ∈ stripComments line ↔ '=' ∈ stripComments line')
    (hTokens : tokens (stripComments line) = tokens (stripComments line')) (hString : ¬ IsStringConstant line)
    {ds : List (Declaration F)} (h : loadLine py package line = .ok ds) : loadLine py package line' = .ok ds := by
  rw [loadLine] at h ⊢
  by_cases hNone : stripComments line = []
  · rw [if_pos hNone] at h
    rw [if_pos (hEmpty.mp hNone), ← h]
  · rw [if_neg hNone] at h
    rw [if_neg (mt hEmpty.mpr hNone)]
    by_cases hEq : '=' ∈ stripComments line
    · rw [if_pos hEq] at h
      rw [if_pos (hConst.mp hEq)]
      have hType : (tokens (stripComments line')).headD [] ≠ str "string" := fun hType =>
        hString ⟨hEq, hTokens ▸ hType⟩
      rw [loadConstantLine] at h ⊢
      rw [hTokens] at h
      dsimp only at h ⊢
      rw [if_neg hType] at h ⊢
      split at h
      · cases h
      · rename_i hLegal
        rw [if_neg hLegal]
        split at h
        · exact h
        · cases h
    · rw [if_neg hEq] at h
      rw [if_neg (mt hConst.mpr hEq)]
      rw [loadFieldLine] at h ⊢
      rw [hTokens] at h
      split at h
      · exact h
      · cases h

end

/-! ## String constants -/

/-- A string constant: blanks, its type, a gap with a space in it, and the first equals sign. -/
structure StringLine (lead gap name v line : Str) : Prop where
  blankLead : Blanks lead
  blankGap : Blanks gap
  space : ' ' ∈ gap
  noEquals : '=' ∉ name
  noComment : '#' ∉ name
  text : line = lead ++ str "string" ++ gap ++ name ++ '=' :: v

theorem word_string : Word (str "string") := ⟨by decide, by decide⟩

theorem takeWhile_append_of_not_mem {c : Char} {front : Str} (h : c ∉ front) (back : Str) :
    (front ++ back).takeWhile (· ≠ c) = front ++ back.takeWhile (· ≠ c) :=
  List.takeWhile_append_of_pos fun _ hd => decide_eq_true fun hEq => h (hEq ▸ hd)

section

variable {lead gap name v line : Str}

theorem StringLine.front_not_mem (h : StringLine lead gap name v line) {c : Char} (hc : isspace c = false)
    (hType : c ∉ str "string") (hName : c ∉ name) : c ∉ lead ++ str "string" ++ gap ++ name := by
  simp only [List.mem_append, not_or]
  exact ⟨⟨⟨h.blankLead.not_mem hc, hType⟩, h.blankGap.not_mem hc⟩, hName⟩

theorem StringLine.stripComments (h : StringLine lead gap name v line) :
    StringLine [] gap name ((v.takeWhile (· ≠ '#')).rdropWhile isspace) (stripComments line) := by
  refine ⟨fun c hc => absurd hc List.not_mem_nil, h.blankGap, h.space, h.noEquals, h.noComment, ?_⟩
  have hHead : ∀ c ∈ (str "string" ++ gap ++ name ++ '=' :: v.takeWhile (· ≠ '#')).head?, isspace c = false := by
    intro c hc
    cases hc
    decide
  have hComment := h.front_not_mem (c := '#') (by decide) (by decide) h.noComment
  rw [stripComments_eq, h.text, takeWhile_append_of_not_mem hComment,
    List.takeWhile_cons_of_pos (by decide), strip]
  have hLead : lstrip (lead ++ str "string" ++ gap ++ name ++ '=' :: v.takeWhile (· ≠ '#')) =
      str "string" ++ gap ++ name ++ '=' :: v.takeWhile (· ≠ '#') := by
    rw [List.append_assoc lead, List.append_assoc lead, List.append_assoc lead, lstrip_append h.blankLead,
      lstrip_of_head hHead]
  rw [hLead, rdropWhile_append_cons (by decide)]
  rfl

theorem StringLine.isStringConstant (h : StringLine lead gap name v line) : IsStringConstant line := by
  have hClean := h.stripComments
  constructor
  · rw [hClean.text]
    simp
  · have hTokens := tokens_word word_string h.blankGap h.space (name ++ '=' :: (v.takeWhile (· ≠ '#')).rdropWhile isspace)
    rw [hClean.text, List.nil_append, List.append_assoc, hTokens]
    rfl

/-- The name that is cut out of a line: it runs from the first space, wherever that stands. -/
def cutName (lead gap name : Str) : Str :=
  strip (if ' ' ∈ lead then str "string" ++ gap ++ name else name)

theorem StringLine.cut (h : StringLine lead gap name v line) :
    strip (slice line (find ' ' line + 1) (find '=' line)) = cutName lead gap name ∧
      slice line (find '=' line + 1) line.length = v := by
  rw [cutName]
  have hEquals := h.front_not_mem (c := '=') (by decide) (by decide) h.noEquals
  by_cases hSpace : ' ' ∈ lead
  · obtain ⟨near, far, rfl, hNear⟩ := List.eq_append_cons_of_mem hSpace
    have hFar : Blanks far := fun c hc => h.blankLead c (List.mem_append_right _ (List.mem_cons_of_mem _ hc))
    have hText : line = near ++ ' ' :: (far ++ str "string" ++ gap ++ name) ++ '=' :: v := by
      rw [h.text]
      simp only [List.append_assoc, List.cons_append]
    have hFront : '=' ∉ near ++ ' ' :: (far ++ str "string" ++ gap ++ name) := by
      simpa only [List.append_assoc, List.cons_append] using hEquals
    have hFound := slice_found hNear hFront v
    rw [← hText] at hFound
    have hStrip := strip_blanks_append hFar (str "string" ++ gap ++ name)
    rw [← List.append_assoc, ← List.append_assoc] at hStrip
    rw [hFound.1, hFound.2, if_pos hSpace, hStrip]
    exact ⟨rfl, rfl⟩
  · obtain ⟨near, far, hGap, hNear⟩ := List.eq_append_cons_of_mem h.space
    have hFar : Blanks far := fun c hc =>
      h.blankGap c (hGap ▸ List.mem_append_right _ (List.mem_cons_of_mem _ hc))
    have hText : line = (lead ++ str "string" ++ near) ++ ' ' :: (far ++ name) ++ '=' :: v := by
      rw [h.text, hGap]
      simp only [List.append_assoc, List.cons_append]
    have hFront : ' ' ∉ lead ++ str "string" ++ near := by
      simp only [List.mem_append, not_or]
      exact ⟨⟨hSpace, by decide⟩, hNear⟩
    have hBack : '=' ∉ lead ++ str "string" ++ near ++ ' ' :: (far ++ name) := by
      simpa only [List.append_assoc, List.cons_append, hGap] using hEquals
    have hFound := slice_found hFront hBack v
    rw [← hText] at hFound
    rw [hFound.1, hFound.2, if_neg hSpace, strip_blanks_append hFar]
    exact ⟨rfl, rfl⟩

def stringConstant (F : Type) (name val : Str) : LoadedConstant F :=
  ⟨⟨str "string", name, strip val⟩, .text (strip val)⟩

theorem StringLine.load (h : StringLine lead gap name v line) {F : Type} (py : Python F) (package : Str) :
    loadLine py package line = .ok [.constant (stringConstant F (cutName lead gap name) v)] := by
  obtain ⟨hConst, hType⟩ := h.isStringConstant
  obtain ⟨hName, hVal⟩ := h.cut
  have hNone : Msg.stripComments line ≠ [] := List.ne_nil_of_mem hConst
  have hConverted : convertConstantValue py (str "string") v = some (.text (strip v)) := by
    rw [convertConstantValue, if_neg (by decide), if_pos rfl]
  rw [loadLine, if_neg hNone, if_pos hConst, loadConstantLine]
  dsimp only
  rw [hType, if_neg (by decide), if_pos rfl, constantOf, hVal, hConverted, ← hName]
  rfl

theorem exists_behind_type {s type : Str} (hTrimmed : Trimmed s) (hSome : s ≠ [])
    (hType : (tokens s).headD [] = type) :
    ∃ near, Blanks near ∧ (s = type ++ near ∨ ∃ back, s = type ++ near ++ ' ' :: back) := by
  obtain ⟨c, rest, rfl⟩ := List.exists_cons_of_ne_nil hSome
  have hc : isspace c = false := hTrimmed.1 c rfl
  have hSpace : c ≠ ' ' := by
    rintro rfl
    cases hc
  obtain ⟨parts, hSplit⟩ := List.head?_eq_some_iff.mp (split_head ' ' (c :: rest))
  obtain ⟨front, hFront⟩ : ∃ front, (c :: rest).takeWhile (· ≠ ' ') = c :: front :=
    ⟨_, List.takeWhile_cons_of_pos (decide_eq_true hSpace)⟩
  rw [hFront] at hSplit
  obtain ⟨lead, near, hLead, hNear, hBlanks⟩ := exists_blanks (c :: front)
  have hStrip : strip (c :: front) = type := by
    have hInk : strip (c :: front) ≠ [] := by
      intro hNil
      have hMem : c ∈ lead ++ strip (c :: front) ++ near := hBlanks ▸ List.mem_cons_self
      rw [hNil, List.append_nil, List.mem_append] at hMem
      rcases hMem with hMem | hMem
      · exact Blanks.not_mem hLead hc hMem
      · exact Blanks.not_mem hNear hc hMem
    rw [tokens, hSplit, List.map_cons,
      List.filter_cons_of_pos (p := fun x => decide (x ≠ [])) (decide_eq_true hInk)] at hType
    exact hType
  have hNoLead : lead = [] := by
    cases lead with
    | nil => rfl
    | cons d lead =>
      cases (List.cons.inj hBlanks).1
      exact absurd (hLead c List.mem_cons_self) (by rw [hc]; decide)
  rw [hNoLead, List.nil_append, hStrip] at hBlanks
  have hText : c :: rest = type ++ near ++ (c :: rest).dropWhile (· ≠ ' ') := by
    rw [← hBlanks, ← hFront, List.takeWhile_append_dropWhile]
  refine ⟨near, hNear, ?_⟩
  cases hDrop : (c :: rest).dropWhile (· ≠ ' ') with
  | nil =>
    left
    rwa [hDrop, List.append_nil] at hText
  | cons d back =>
    right
    have hNot := List.head?_dropWhile_not (· ≠ ' ') (c :: rest)
    rw [hDrop] at hNot
    have hd : d = ' ' := by simpa using hNot
    exact ⟨back, by rwa [hDrop, hd] at hText⟩

theorem exists_stringLine {line : Str} (h : IsStringConstant line) :
    ∃ lead gap name v, StringLine lead gap name v line ∧ ∀ c ∈ name.head?, isspace c = false := by
  obtain ⟨hConst, hType⟩ := h
  obtain ⟨lead, tail, hLead, -, hLine⟩ := exists_blanks (line.takeWhile (· ≠ '#'))
  rw [← stripComments_eq] at hLine
  have hHash : ∀ c ∈ stripComments line, c ≠ '#' := fun c hc =>
    of_decide_eq_true (List.mem_takeWhile_imp (p := (· ≠ '#')) (l := line)
      (hLine ▸ List.mem_append_left _ (List.mem_append_right _ hc)))
  obtain ⟨near, hNear, hShort | ⟨back, hBack⟩⟩ :=
    exists_behind_type (trimmed_stripComments line) (List.ne_nil_of_mem hConst) hType
  · rw [hShort, List.mem_append] at hConst
    rcases hConst with hMem | hMem
    · exact absurd hMem (by decide)
    · exact absurd hMem (Blanks.not_mem hNear (by decide))
  · have hMem : '=' ∈ back := by
      rw [hBack, List.mem_append, List.mem_append, List.mem_cons] at hConst
      obtain (hMem | hMem) | hMem | hMem := hConst
      · exact absurd hMem (by decide)
      · exact absurd hMem (Blanks.not_mem hNear (by decide))
      · exact absurd hMem (by decide)
      · exact hMem
    obtain ⟨front, v, hSplit, hFront⟩ := List.eq_append_cons_of_mem hMem
    have hParts : front = front.takeWhile isspace ++ front.dropWhile isspace :=
      List.takeWhile_append_dropWhile.symm
    refine ⟨lead, near ++ ' ' :: front.takeWhile isspace, front.dropWhile isspace,
      v ++ tail ++ line.dropWhile (· ≠ '#'), ⟨hLead, ?_, ?_, ?_, ?_, ?_⟩, ?_⟩
    · intro c hc
      rw [List.mem_append, List.mem_cons] at hc
      obtain hc | rfl | hc := hc
      · exact hNear c hc
      · decide
      · exact List.mem_takeWhile_imp hc
    · simp
    · exact fun hc => hFront ((List.dropWhile_suffix _).subset hc)
    · intro hc
      refine hHash '#' ?_ rfl
      rw [hBack, hSplit]
      simp [(List.dropWhile_suffix _).subset hc]
    · conv_lhs => rw [← List.takeWhile_append_dropWhile (p := (· ≠ '#')) (l := line), hLine, hBack, hSplit, hParts]
      simp only [List.append_assoc, List.cons_append]
    · intro c hc
      have hNot := List.head?_dropWhile_not isspace front
      rw [Option.mem_def.mp hc] at hNot
      simpa using hNot

theorem strip_type_gap {gap name : Str} (hName : ∀ c ∈ name.head?, isspace c = false) (hSome : name ≠ []) :
    strip (str "string" ++ gap ++ name) = str "string" ++ gap ++ strip name := by
  obtain ⟨c, rest, rfl⟩ := List.exists_cons_of_ne_nil hSome
  have hc := hName c rfl
  have hType : ∀ d ∈ (str "string" ++ gap ++ c :: rest).head?, isspace d = false := by
    intro d hd
    cases hd
    decide
  have hFront := rdropWhile_append_cons hc [] rest
  rw [List.nil_append, List.nil_append] at hFront
  rw [strip, lstrip_of_head hType, rdropWhile_append_cons hc, strip, lstrip_of_head hName, hFront]

theorem strip_type {gap : Str} (hGap : Blanks gap) : strip (str "string" ++ gap ++ []) = str "string" := by
  rw [List.append_nil, strip_append_blanks hGap, word_string.trimmed.strip]

theorem strip_type_gap_ne {gap name : Str} (hGap : Blanks gap) (hName : ∀ c ∈ name.head?, isspace c = false) :
    strip (str "string" ++ gap ++ name) ≠ strip name := by
  intro hEq
  have hLength := congrArg List.length hEq
  by_cases hNil : name = []
  · subst hNil
    rw [strip_type hGap] at hLength
    exact absurd hLength (by decide)
  · rw [strip_type_gap hName hNil, List.length_append, List.length_append,
      show (str "string").length = 6 from rfl] at hLength
    omega

theorem strip_type_gap_inj {gap gap' name : Str} (hGap : Blanks gap) (hGap' : Blanks gap')
    (hName : ∀ c ∈ name.head?, isspace c = false) :
    strip (str "string" ++ gap ++ name) = strip (str "string" ++ gap' ++ name) ↔ gap = gap' ∨ name = [] := by
  by_cases hNil : name = []
  · subst hNil
    rw [strip_type hGap, strip_type hGap']
    exact iff_of_true rfl (Or.inr rfl)
  · rw [strip_type_gap hName hNil, strip_type_gap hName hNil, List.append_cancel_right_eq,
      List.append_cancel_left_eq]
    exact (or_iff_left hNil).symm

end

/-! ## Texts that are loaded alike -/

section

variable {F : Type} {py : Python F} {package : Str}

theorem loadLines_singleton {line : Str} {ds : List (Declaration F)} :
    loadLines py package [line] = .ok ds ↔ loadLine py package line = .ok ds := by
  rw [loadLines_cons_eq_ok_iff]
  constructor
  · rintro ⟨fs, bs, hLine, hNil, rfl⟩
    cases hNil
    rwa [List.append_nil]
  · exact fun h => ⟨ds, [], h, rfl, (List.append_nil ds).symm⟩

theorem loadLine_empty {line : Str} (h : stripComments line = []) :
    loadLine py package line = .ok ([] : List (Declaration F)) := by
  rw [loadLine, if_pos h]

/-- Declarations whose fields agree, and whose constants do so under a condition. -/
structure Reloaded (ds ds' : List (Declaration F)) (kept : Prop) : Prop where
  types : typesOf ds = typesOf ds'
  names : namesOf ds = namesOf ds'
  length : (constantsOf ds).length = (constantsOf ds').length
  constants : constantsOf ds = constantsOf ds' ↔ kept

theorem Reloaded.refl (ds : List (Declaration F)) : Reloaded ds ds True :=
  ⟨rfl, rfl, rfl, iff_of_true rfl trivial⟩

theorem Reloaded.append {fs fs' bs bs' : List (Declaration F)} {front back : Prop} (hFront : Reloaded fs fs' front)
    (hBack : Reloaded bs bs' back) : Reloaded (fs ++ bs) (fs' ++ bs') (front ∧ back) := by
  have hTypes (xs ys : List (Declaration F)) : typesOf (xs ++ ys) = typesOf xs ++ typesOf ys := List.filterMap_append
  have hNames (xs ys : List (Declaration F)) : namesOf (xs ++ ys) = namesOf xs ++ namesOf ys := List.filterMap_append
  have hConstants (xs ys : List (Declaration F)) : constantsOf (xs ++ ys) = constantsOf xs ++ constantsOf ys :=
    List.filterMap_append
  refine ⟨?_, ?_, ?_, ?_⟩
  · rw [hTypes, hTypes, hFront.types, hBack.types]
  · rw [hNames, hNames, hFront.names, hBack.names]
  · rw [hConstants, hConstants, List.length_append, List.length_append, hFront.length, hBack.length]
  · rw [hConstants, hConstants, ← hFront.constants, ← hBack.constants]
    constructor
    · exact fun h => List.append_inj h hFront.length
    · rintro ⟨hFs, hBs⟩
      rw [hFs, hBs]

structure LoadedSpec.SameContent (loaded loaded' : LoadedSpec F) : Prop where
  types : loaded.spec.types = loaded'.spec.types
  names : loaded.spec.names = loaded'.spec.names
  constants : loaded.spec.constants = loaded'.spec.constants
  values : loaded.values = loaded'.values

theorem LoadedConstant.ext_lists {cs cs' : List (LoadedConstant F)}
    (hConstants : cs.map (·.toConstant) = cs'.map (·.toConstant)) (hValues : cs.map (·.val) = cs'.map (·.val)) :
    cs = cs' := by
  induction cs generalizing cs' with
  | nil => exact (List.map_eq_nil_iff.mp hConstants.symm).symm
  | cons c cs ih =>
    cases cs' with
    | nil => cases hConstants
    | cons c' cs' =>
      obtain ⟨hConstant, hConstantsTail⟩ := List.cons.inj hConstants
      obtain ⟨hValue, hValuesTail⟩ := List.cons.inj hValues
      obtain ⟨constant, val⟩ := c
      obtain ⟨constant', val'⟩ := c'
      cases hConstant
      cases hValue
      rw [ih hConstantsTail hValuesTail]

theorem Reloaded.sameContent_iff {ds ds' : List (Declaration F)} {kept : Prop} (h : Reloaded ds ds' kept)
    {loaded loaded' : LoadedSpec F} (hDeclares : Declares ds loaded) (hDeclares' : Declares ds' loaded') :
    loaded.SameContent loaded' ↔ kept := by
  rw [← h.constants]
  constructor
  · intro hSame
    apply LoadedConstant.ext_lists
    · rw [← hDeclares.constants, ← hDeclares'.constants, hSame.constants]
    · rw [← hDeclares.values, ← hDeclares'.values, hSame.values]
  · intro hConstants
    refine ⟨?_, ?_, ?_, ?_⟩
    · rw [hDeclares.types, hDeclares'.types, h.types]
    · rw [hDeclares.names, hDeclares'.names, h.names]
    · rw [hDeclares.constants, hDeclares'.constants, hConstants]
    · rw [hDeclares.values, hDeclares'.values, hConstants]

theorem Reloaded.wellDeclared {ds ds' : List (Declaration F)} {kept : Prop} (h : Reloaded ds ds' kept) :
    WellDeclared ds ↔ WellDeclared ds' := by
  constructor
  · exact fun hWell => ⟨h.names ▸ hWell.names, h.types ▸ hWell.types⟩
  · exact fun hWell => ⟨h.names ▸ hWell.names, h.types ▸ hWell.types⟩

end

end XcRos.Msg
