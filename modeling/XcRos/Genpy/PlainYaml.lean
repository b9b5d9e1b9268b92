import XcRos.Genpy.Yaml

/-! # A reader of plain YAML

The part of YAML 1.1 that is relied on, as a reader: words, integers, lists of these on one line, and blocks.
-/

namespace XcRos.Genpy

open XcRos.Foundation XcRos.Msg

/-! ## Words and lists -/

def trueWords : List Str := ["yes", "Yes", "YES", "true", "True", "TRUE", "on", "On", "ON"].map str

def falseWords : List Str := ["no", "No", "NO", "false", "False", "FALSE", "off", "Off", "OFF"].map str

def nullWords : List Str := ["~", "null", "Null", "NULL"].map str

/-- A key has no more than 1024 characters. -/
def readKey (s : Str) : Option Key :=
  if 1024 < s.length then none
  else if trueWords.contains s then some (.bool true)
  else if falseWords.contains s then some (.bool false)
  else if nullWords.contains s then some .null
  else some (.str s)

def readNat (ds : Str) : Option Int := if ds ≠ [] ∧ ds.all Char.isDigit then some (digitsValue ds) else none

def readInt : Str → Option Int
  | [] => none
  | c :: ds => if c = '-' then (readNat ds).map fun n => -n else readNat (c :: ds)

def readNumber (s : Str) : PyObj :=
  match readInt s with
  | some n => .int n
  | none => .str (s.map CodePoint.ofChar)

def readPlain (s : Str) : PyObj :=
  if trueWords.contains s then .bool true
  else if falseWords.contains s then .bool false
  else if nullWords.contains s then .none
  else readNumber s

def readElements (inner : Str) : List PyObj :=
  if inner = [] then [] else (inner.splitOn ',').map fun part => readPlain (Block.dropBlanks part)

def readScalar : Str → Option PyObj
  | [] => some .none
  | c :: s => if c = '[' then some (.list (readElements s.dropLast)) else some (readPlain (c :: s))

def plainMeaning : Block.Meaning Key PyObj where
  null := .none
  list := .list
  dict := fun items => .dict (dictOf items)
  key := readKey
  scalar := readScalar

def plainYaml : Yaml := ⟨Block.read plainMeaning, readKey, readScalar⟩

/-! ## What is read -/

theorem readNat_decimal (n : Nat) : readNat (decimal n) = some (n : Int) := by
  have hValue : digitsValue (decimal n) = n := Nat.ofDigitChars_ten_toDigits
  rw [readNat, if_pos ⟨decimal_ne_nil n, List.all_eq_true.mpr (decimal_digits n)⟩, hValue]

theorem intText_cases (n : Int) :
    (n < 0 ∧ intText n = '-' :: decimal n.natAbs) ∨
      (0 ≤ n ∧ ∃ d ds, d.isDigit = true ∧ decimal n.natAbs = d :: ds ∧ intText n = d :: ds) := by
  rw [intText]
  split
  · rename_i hNeg
    exact .inl ⟨hNeg, rfl⟩
  · rename_i hNonneg
    obtain ⟨d, ds, hDigits⟩ := List.exists_cons_of_ne_nil (decimal_ne_nil n.natAbs)
    have hd : d.isDigit = true := decimal_digits n.natAbs d (by rw [hDigits]; exact List.mem_cons_self)
    exact .inr ⟨by omega, d, ds, hd, hDigits, hDigits⟩

theorem readInt_intText (n : Int) : readInt (intText n) = some n := by
  obtain ⟨hNeg, hText⟩ | ⟨hNonneg, d, ds, hd, hDigits, hText⟩ := intText_cases n
  · rw [hText, readInt, if_pos rfl, readNat_decimal, Option.map_some]
    exact congrArg some (by omega)
  · have hMinus : d ≠ '-' := by
      rintro rfl
      cases hd
    rw [hText, readInt, if_neg hMinus, ← hDigits, readNat_decimal]
    exact congrArg some (by omega)

def NoWord (c : Char) : Prop := ∀ s ∈ trueWords ++ falseWords ++ nullWords, s.head? ≠ some c

theorem readPlain_of_noWord {c : Char} (h : NoWord c) (s : Str) :
    readPlain (c :: s) = readNumber (c :: s) := by
  have hNot : ∀ words, words ⊆ trueWords ++ falseWords ++ nullWords → ¬ words.contains (c :: s) = true :=
    fun words hWords hMem => h _ (hWords (List.contains_iff_mem.mp hMem)) rfl
  rw [readPlain, if_neg (hNot _ fun _ hMem => List.mem_append_left _ (List.mem_append_left _ hMem)),
    if_neg (hNot _ fun _ hMem => List.mem_append_left _ (List.mem_append_right _ hMem)),
    if_neg (hNot _ fun _ hMem => List.mem_append_right _ hMem)]

theorem noWord_of_all {c : Char}
    (h : (trueWords ++ falseWords ++ nullWords).all (fun s => s.head? != some c) = true) : NoWord c :=
  fun s hs => bne_iff_ne.mp (List.all_eq_true.mp h s hs)

theorem noWord_minus : NoWord '-' := noWord_of_all (by decide)

theorem noWord_digit {d : Char} (hd : d.isDigit = true) : NoWord d := by
  have hHeads : ∀ s ∈ trueWords ++ falseWords ++ nullWords, ∀ c, s.head? = some c → c.isDigit = false := by
    have hAll : (trueWords ++ falseWords ++ nullWords).all (fun s => s.head?.all fun c => !c.isDigit) = true := by decide
    intro s hs c hc
    have := List.all_eq_true.mp hAll s hs
    rw [hc] at this
    simpa using this
  intro s hs hHead
  rw [hHeads s hs d hHead] at hd
  cases hd

theorem readPlain_intText (n : Int) : readPlain (intText n) = .int n := by
  have hRead := readInt_intText n
  obtain ⟨_, hText⟩ | ⟨_, d, ds, hd, _, hText⟩ := intText_cases n
  · rw [hText] at hRead ⊢
    rw [readPlain_of_noWord noWord_minus, readNumber, hRead]
  · rw [hText] at hRead ⊢
    rw [readPlain_of_noWord (noWord_digit hd), readNumber, hRead]

theorem readScalar_intText (n : Int) : readScalar (intText n) = some (.int n) := by
  have hPlain := readPlain_intText n
  obtain ⟨_, hText⟩ | ⟨_, d, ds, hd, _, hText⟩ := intText_cases n
  · rw [hText] at hPlain ⊢
    exact congrArg some hPlain
  · have hBracket : d ≠ '[' := by
      rintro rfl
      cases hd
    rw [hText] at hPlain ⊢
    rw [readScalar, if_neg hBracket, hPlain]

theorem readPlain_boolText (b : Bool) : readPlain (boolText b) = .bool b := by cases b <;> rfl

/-! ## Lists and bytes -/

theorem intText_chars (n : Int) : ∀ c ∈ intText n, c = '-' ∨ c.isDigit = true := by
  intro c hc
  rw [intText] at hc
  split at hc
  · obtain rfl | hDigit := List.mem_cons.mp hc
    · exact .inl rfl
    · exact .inr (decimal_digits _ c hDigit)
  · exact .inr (decimal_digits _ c hc)

theorem not_mem_intText (n : Int) {c : Char} (hMinus : c ≠ '-') (hDigit : c.isDigit = false) : c ∉ intText n := by
  intro hMem
  obtain h | h := intText_chars n c hMem
  · exact hMinus h
  · rw [hDigit] at h
    cases h

theorem splitOn_elements {first : Str} {texts : List Str} (h : ∀ text ∈ first :: texts, ',' ∉ text) :
    ([',', ' '].intercalate (first :: texts)).splitOn ',' = first :: texts.map (' ' :: ·) := by
  induction texts generalizing first with
  | nil => rw [List.intercalate_singleton, List.splitOn_eq_singleton (h first List.mem_cons_self)]; rfl
  | cons next texts ih =>
    obtain ⟨hFirst, hRest⟩ := List.forall_mem_cons.mp h
    have hNext : ∀ text ∈ (' ' :: next) :: texts, ',' ∉ text := by
      obtain ⟨hHead, hTail⟩ := List.forall_mem_cons.mp hRest
      refine List.forall_mem_cons.mpr ⟨?_, hTail⟩
      rw [List.mem_cons, not_or]
      exact ⟨by decide, hHead⟩
    have hText : [',', ' '].intercalate (first :: next :: texts) =
        first ++ ',' :: [',', ' '].intercalate ((' ' :: next) :: texts) := by
      rw [List.intercalate_cons_cons, List.append_assoc]
      cases texts with
      | nil => rw [List.intercalate_singleton, List.intercalate_singleton]; rfl
      | cons other texts => rw [List.intercalate_cons_cons, List.intercalate_cons_cons]; rfl
    rw [hText, List.splitOn_append_cons_self, List.splitOn_eq_singleton hFirst, ih hNext]
    rfl

theorem readScalar_listText {α : Type} {text : α → Str} {value : α → PyObj} (as : List α)
    (hComma : ∀ a ∈ as, ',' ∉ text a) (hBlanks : ∀ a ∈ as, Block.dropBlanks (text a) = text a)
    (hNonempty : ∀ a ∈ as, text a ≠ []) (hRead : ∀ a ∈ as, readPlain (text a) = value a) :
    readScalar (listText (as.map text)) = some (.list (as.map value)) := by
  have hText : readScalar (listText (as.map text)) = some (.list (readElements ([',', ' '].intercalate (as.map text)))) := by
    rw [listText, List.cons_append, readScalar, if_pos rfl, List.dropLast_concat]
  rw [hText]
  refine congrArg (some ∘ PyObj.list) ?_
  cases as with
  | nil => rfl
  | cons a as =>
    have hAll : ∀ t ∈ text a :: as.map text, ',' ∉ t := by
      rw [← List.map_cons]
      intro t ht
      obtain ⟨b, hb, rfl⟩ := List.mem_map.mp ht
      exact hComma b hb
    have hSome : [',', ' '].intercalate ((a :: as).map text) ≠ [] := by
      obtain ⟨c, rest, hHead⟩ := List.exists_cons_of_ne_nil (hNonempty a List.mem_cons_self)
      rw [List.map_cons, hHead]
      cases as.map text with
      | nil => rw [List.intercalate_singleton]; exact List.cons_ne_nil c rest
      | cons t ts => rw [List.intercalate_cons_cons]; exact List.cons_ne_nil c _
    obtain ⟨hHead, hTail⟩ := List.forall_mem_cons.mp hRead
    obtain ⟨hHeadBlanks, hTailBlanks⟩ := List.forall_mem_cons.mp hBlanks
    rw [readElements, if_neg hSome, List.map_cons, splitOn_elements hAll, List.map_cons, hHeadBlanks, hHead, List.map_map,
      List.map_map, List.map_cons]
    refine congrArg (value a :: ·) (List.map_congr_left fun b hb => ?_)
    have hSkip : Block.dropBlanks (' ' :: text b) = Block.dropBlanks (text b) := dropBlanks_blanks 1 (text b)
    show readPlain (Block.dropBlanks (' ' :: text b)) = value b
    rw [hSkip, hTailBlanks b hb, hTail b hb]

theorem intText_ne_nil (n : Int) : intText n ≠ [] := by
  obtain ⟨_, hText⟩ | ⟨_, d, ds, _, _, hText⟩ := intText_cases n <;> rw [hText] <;> exact List.cons_ne_nil _ _

theorem readScalar_bytesText (bs : Bytes) : ∃ s, readScalar (bytesText bs) = some (.str s) := by
  have hText : ∃ rest, bytesText bs = 'b' :: rest := ⟨_, rfl⟩
  obtain ⟨rest, hText⟩ := hText
  have hInt : readInt ('b' :: rest) = none := by
    rw [readInt, if_neg (by decide), readNat]
    refine if_neg fun h => ?_
    have hDigit := List.all_eq_true.mp h.2 'b' List.mem_cons_self
    cases hDigit
  refine ⟨('b' :: rest).map CodePoint.ofChar, ?_⟩
  rw [hText, readScalar, if_neg (by decide), readPlain_of_noWord (noWord_of_all (by decide)), readNumber, hInt]

theorem readKey_str {name s : Str} (h : readKey name = some (.str s)) : s = name := by
  rw [readKey] at h
  split at h
  · cases h
  split at h
  · cases h
  split at h
  · cases h
  split at h
  · cases h
  cases h
  rfl

/-! ## Blocks -/

theorem not_mem_intercalate {c : Char} {sep : Str} (hSep : c ∉ sep) {texts : List Str} (h : ∀ text ∈ texts, c ∉ text) :
    c ∉ sep.intercalate texts := by
  induction texts with
  | nil => exact List.not_mem_nil
  | cons text texts ih =>
    obtain ⟨hHead, hTail⟩ := List.forall_mem_cons.mp h
    cases texts with
    | nil =>
      rw [List.intercalate_singleton]
      exact hHead
    | cons next texts =>
      rw [List.intercalate_cons_cons, List.mem_append, List.mem_append]
      exact not_or.mpr ⟨not_or.mpr ⟨hHead, hSep⟩, ih hTail⟩

theorem newline_not_mem_listText {texts : List Str} (h : ∀ text ∈ texts, '\n' ∉ text) : '\n' ∉ listText texts := by
  rw [listText, List.cons_append, List.mem_cons, List.mem_append]
  exact not_or.mpr ⟨by decide, not_or.mpr ⟨not_mem_intercalate (by decide) h, by decide⟩⟩

theorem hexLetter_ne_newline (n : Nat) : '\n' ≠ hexLetter n := by
  intro h
  rw [hexLetter, List.getD_eq_getElem?_getD] at h
  cases hLetter : "0123456789abcdef".toList[n]? with
  | none =>
    rw [hLetter] at h
    exact absurd h (by decide)
  | some c =>
    rw [hLetter] at h
    have hMem : c ∈ "0123456789abcdef".toList := List.mem_of_getElem? hLetter
    rw [← show '\n' = c from h] at hMem
    exact absurd hMem (by decide)

theorem newline_not_mem_byteText {quote : Char} (hQuote : quote ≠ '\n') (b : UInt8) : '\n' ∉ byteText quote b := by
  rw [byteText]
  split
  · rename_i hEscaped
    intro hMem
    obtain hFirst | hSecond := List.mem_cons.mp hMem
    · exact absurd hFirst (by decide)
    · have hChar : '\n' = Char.ofNat b.toNat := List.mem_singleton.mp hSecond
      rw [← hChar] at hEscaped
      exact hEscaped.elim (fun h => hQuote h.symm) (by decide)
  split
  · decide
  split
  · decide
  split
  · decide
  · rename_i hNewline _
    split
    · intro hMem
      simp only [List.mem_cons, List.not_mem_nil, or_false] at hMem
      obtain h | h | h | h := hMem
      · exact absurd h (by decide)
      · exact absurd h (by decide)
      · exact hexLetter_ne_newline _ h
      · exact hexLetter_ne_newline _ h
    · exact fun hMem => hNewline (List.mem_singleton.mp hMem).symm

theorem bytesQuote_ne_newline (bs : Bytes) : bytesQuote bs ≠ '\n' := by
  rw [bytesQuote]
  split <;> decide

theorem newline_not_mem_bytesText (bs : Bytes) : '\n' ∉ bytesText bs := by
  have hQuote := bytesQuote_ne_newline bs
  rw [bytesText, List.cons_append, List.cons_append, List.mem_cons, List.mem_cons, List.mem_append, List.mem_singleton]
  refine not_or.mpr ⟨by decide, not_or.mpr ⟨Ne.symm hQuote, not_or.mpr ⟨?_, Ne.symm hQuote⟩⟩⟩
  intro hMem
  obtain ⟨b, _, hb⟩ := List.mem_flatMap.mp hMem
  exact newline_not_mem_byteText hQuote b hb

theorem newline_not_mem_intText (n : Int) : '\n' ∉ intText n := not_mem_intText n (by decide) rfl

theorem newline_not_mem_boolText (b : Bool) : '\n' ∉ boolText b := by cases b <;> decide

theorem separate_plain (unicodeWord : Char → Bool) :
    Block.Separate (fun name => isLegalResourceBaseName unicodeWord name = true) ScalarText where
  key := by
    intro name h
    cases name with
    | nil => cases h
    | cons c rest =>
      rw [isLegalResourceBaseName, Bool.and_eq_true, List.all_eq_true] at h
      have hAlpha : ∀ d : Char, d.isAlpha = false → c ≠ d := by
        rintro d hd rfl
        rw [hd] at h
        cases h.1
      have hWord : ∀ d : Char, isWord unicodeWord d = false → d ∉ rest := fun d hd hMem => by
        rw [h.2 d hMem] at hd
        cases hd
      refine ⟨fun d hd => ?_, c, rest, rfl, hAlpha ' ' rfl, hAlpha '-' rfl⟩
      obtain rfl | hd := List.mem_cons.mp hd
      · exact ⟨hAlpha ':' rfl, hAlpha '\n' rfl⟩
      · constructor <;> rintro rfl
        · exact hWord ':' rfl hd
        · exact hWord '\n' rfl hd
  scalar := by
    intro s h
    cases h with
    | int width n =>
      constructor
      · rw [List.mem_append]
        refine not_or.mpr ⟨fun hMem => ?_, newline_not_mem_intText n⟩
        exact absurd (List.eq_of_mem_replicate hMem) (by decide)
      · rw [dropBlanks_blanks, dropBlanks_intText]
        exact intText_ne_nil n
    | bool b => exact ⟨newline_not_mem_boolText b, by cases b <;> decide⟩
    | ints ns =>
      refine ⟨newline_not_mem_listText ?_, by rw [dropBlanks_listText]; exact List.cons_ne_nil _ _⟩
      intro text hText
      obtain ⟨n, _, rfl⟩ := List.mem_map.mp hText
      exact newline_not_mem_intText n
    | bools bs =>
      refine ⟨newline_not_mem_listText ?_, by rw [dropBlanks_listText]; exact List.cons_ne_nil _ _⟩
      intro text hText
      obtain ⟨b, _, rfl⟩ := List.mem_map.mp hText
      exact newline_not_mem_boolText b
    | bytes bs => exact ⟨newline_not_mem_bytesText bs, by rw [dropBlanks_bytesText]; exact List.cons_ne_nil _ _⟩

theorem plainYaml_reads (unicodeWord : Char → Bool) : plainYaml.Reads unicodeWord where
  document := fun _ hLegal => Block.read_document (separate_plain unicodeWord) hLegal
  int := readScalar_intText
  bool := fun b => by cases b <;> rfl
  ints := fun ns => readScalar_listText ns (fun n _ => not_mem_intText n (by decide) rfl)
    (fun n _ => dropBlanks_intText n) (fun n _ => intText_ne_nil n) fun n _ => readPlain_intText n
  bools := fun bs => readScalar_listText bs (fun b _ => by cases b <;> decide) (fun b _ => dropBlanks_boolText b)
    (fun b _ => by cases b <;> decide) fun b _ => readPlain_boolText b
  bytes := fun bs v h => by
    obtain ⟨s, hText⟩ := readScalar_bytesText bs
    exact ⟨s, Option.some.inj (h.symm.trans hText)⟩
  key := fun name s _ h => readKey_str h
  stamp := ⟨by decide, by decide⟩

end XcRos.Genpy
