import XcRos.Foundation.Lines
import XcRos.Msg.LoaderLines

/-! # Loading a service

`load_srv_from_string` strips every line of its comment and blanks before it hands the halves to
`load_msg_from_string`. Only string constants tell such a line from the one that was written.
-/

namespace XcRos.Msg

open XcRos.Foundation

def isDelim (line : Str) : Bool := (str "---").isPrefixOf (stripComments line)

theorem isDelim_of_opens {line : Str} (h : str "---" <+: line) : isDelim line = true := by
  obtain ⟨rest, rfl⟩ := h
  have hText : stripComments (str "---" ++ rest) =
      str "---" ++ (rest.takeWhile (· ≠ '#')).rdropWhile isspace := by
    have hHead : ∀ c ∈ (str "---" ++ rest.takeWhile (· ≠ '#')).head?, isspace c = false := by
      intro c hc
      cases hc
      decide
    rw [stripComments_eq, takeWhile_append_of_not_mem (by decide), strip, lstrip_of_head hHead]
    exact rdropWhile_append_cons (by decide : isspace '-' = false) ['-', '-'] _
  rw [isDelim, hText]
  exact List.isPrefixOf_iff_prefix.mpr (List.prefix_append _ _)

/-- What the loop writes to `text_in` and `text_out`; `behind` is whether a delimiter was passed. -/
def serviceTexts (behind : Bool) : List Str → Str × Str
  | [] => ([], [])
  | line :: rest =>
    if isDelim line then serviceTexts true rest
    else
      let (textIn, textOut) := serviceTexts behind rest
      if behind then (textIn, stripComments line ++ '\n' :: textOut)
      else (stripComments line ++ '\n' :: textIn, textOut)

structure LoadedSrv (F : Type) where
  request : LoadedSpec F
  response : LoadedSpec F
  text : Str
  fullName : Str
  shortName : Str
  package : Str

/-- `load_srv_from_string` -/
def loadSrvFromString {F : Type} (py : Python F) (ctx : MsgContext) (text fullName : Str) :
    Except LoadError (LoadedSrv F × MsgContext) :=
  let (textIn, textOut) := serviceTexts false (split '\n' text)
  match loadMsgFromString py ctx textIn (fullName ++ str "Request") with
  | .error e => .error e
  | .ok (msgIn, ctx) =>
    match loadMsgFromString py ctx textOut (fullName ++ str "Response") with
    | .error e => .error e
    | .ok (msgOut, ctx) =>
      match packageResourceName fullName with
      | none => .error (.invalidName fullName)
      | some (package, shortName) => .ok (⟨msgIn, msgOut, text, fullName, shortName, package⟩, ctx)

variable {F : Type} {py : Python F} {ctx : MsgContext} {package text fullName : Str}

/-! ## Stripped lines -/

/-- What is cut from a line before it is parsed matters to no string constant of it. -/
def Tight (line : Str) : Prop :=
  IsStringConstant line → '#' ∉ line ∧ ' ' ∉ line.takeWhile isspace

instance : DecidablePred IsStringConstant := fun line =>
  inferInstanceAs (Decidable ('=' ∈ stripComments line ∧ (tokens (stripComments line)).headD [] = str "string"))

instance : DecidablePred Tight := fun line =>
  inferInstanceAs (Decidable (IsStringConstant line → '#' ∉ line ∧ ' ' ∉ line.takeWhile isspace))

theorem not_mem_stripComments (line : Str) : '#' ∉ stripComments line := by
  rw [stripComments_eq, mem_strip_iff (by decide)]
  exact fun hMem => absurd (List.mem_takeWhile_imp hMem) (by decide)

theorem mem_of_mem_stripComments {line : Str} {c : Char} (h : c ∈ stripComments line) : c ∈ line := by
  obtain ⟨lead, tail, -, -, hLine⟩ := exists_blanks (line.takeWhile (· ≠ '#'))
  rw [← stripComments_eq] at hLine
  exact (List.takeWhile_prefix _).subset (hLine ▸ List.mem_append_left _ (List.mem_append_right _ h))

theorem takeWhile_eq_self {c : Char} {s : Str} (h : c ∉ s) : s.takeWhile (· ≠ c) = s :=
  List.takeWhile_eq_self_iff.mpr fun _ hd => decide_eq_true fun hEq => h (hEq ▸ hd)

theorem stripComments_stripComments (line : Str) : stripComments (stripComments line) = stripComments line := by
  rw [stripComments_eq (stripComments line), takeWhile_eq_self (not_mem_stripComments line),
    (trimmed_stripComments line).strip]

theorem isStringConstant_stripComments_iff (line : Str) :
    IsStringConstant (stripComments line) ↔ IsStringConstant line := by
  rw [IsStringConstant, stripComments_stripComments, IsStringConstant]

theorem strip_value_iff (v : Str) :
    strip v = strip ((v.takeWhile (· ≠ '#')).rdropWhile isspace) ↔ '#' ∉ v := by
  have hBlanks : Blanks ((v.takeWhile (· ≠ '#')).rtakeWhile isspace) := fun c hc => List.mem_rtakeWhile_imp hc
  have hCut : strip ((v.takeWhile (· ≠ '#')).rdropWhile isspace) = strip (v.takeWhile (· ≠ '#')) := by
    rw [← strip_append_blanks hBlanks, List.rdropWhile_append_rtakeWhile]
  rw [hCut]
  constructor
  · intro h hMem
    rw [← mem_strip_iff (by decide), h, mem_strip_iff (by decide)] at hMem
    exact absurd (List.mem_takeWhile_imp hMem) (by decide)
  · intro h
    rw [takeWhile_eq_self h]

theorem stringConstant_inj (name name' v v' : Str) :
    stringConstant F name v = stringConstant F name' v' ↔ name = name' ∧ strip v = strip v' := by
  simp [stringConstant]

theorem StringLine.tight_iff {lead gap name v line : Str} (h : StringLine lead gap name v line)
    (hName : ∀ c ∈ name.head?, isspace c = false) :
    stringConstant F (cutName lead gap name) v =
        stringConstant F (cutName [] gap name) ((v.takeWhile (· ≠ '#')).rdropWhile isspace) ↔
      '#' ∉ line ∧ ' ' ∉ line.takeWhile isspace := by
  have hLead : line.takeWhile isspace = lead := by
    rw [h.text, List.append_assoc, List.append_assoc, List.append_assoc, List.takeWhile_append_of_pos h.blankLead]
    exact List.append_nil lead
  have hComment : '#' ∈ line ↔ '#' ∈ v := by
    rw [h.text, List.mem_append, List.mem_cons]
    have hFront := h.front_not_mem (c := '#') (by decide) (by decide) h.noComment
    exact ⟨fun hMem => (hMem.resolve_left hFront).resolve_left (by decide), fun hMem => .inr (.inr hMem)⟩
  have hSame : cutName lead gap name = cutName [] gap name ↔ ' ' ∉ lead := by
    rw [cutName, cutName, if_neg (by simp : ' ' ∉ ([] : Str))]
    constructor
    · intro hEq hSpace
      rw [if_pos hSpace] at hEq
      exact strip_type_gap_ne h.blankGap hName hEq
    · intro hSpace
      rw [if_neg hSpace]
  rw [hLead, hComment, ← hSame, ← strip_value_iff, stringConstant_inj, and_comm]

theorem loadLine_stripComments {line : Str} {ds : List (Declaration F)} (h : loadLine py package line = .ok ds) :
    ∃ ds', loadLine py package (stripComments line) = .ok ds' ∧ Reloaded ds ds' (Tight line) := by
  by_cases hString : IsStringConstant line
  · obtain ⟨lead, gap, name, v, hLine, hName⟩ := exists_stringLine hString
    rw [hLine.load py package] at h
    cases h
    refine ⟨_, hLine.stripComments.load py package, rfl, rfl, rfl, ?_⟩
    have hTight : Tight line ↔ '#' ∉ line ∧ ' ' ∉ line.takeWhile isspace := ⟨fun h => h hString, fun h _ => h⟩
    rw [hTight, ← hLine.tight_iff (F := F) hName]
    simp [constantsOf, Declaration.constant?]
  · have hSame := loadLine_congr (by rw [stripComments_stripComments]) (by rw [stripComments_stripComments])
      (by rw [stripComments_stripComments]) hString h
    exact ⟨ds, hSame, rfl, rfl, rfl, iff_of_true rfl fun h => absurd h hString⟩

theorem loadLine_of_stripComments {line : Str} {ds : List (Declaration F)}
    (h : loadLine py package (stripComments line) = .ok ds) : ∃ ds', loadLine py package line = .ok ds' := by
  by_cases hString : IsStringConstant line
  · obtain ⟨lead, gap, name, v, hLine, -⟩ := exists_stringLine hString
    exact ⟨_, hLine.load py package⟩
  · refine ⟨ds, loadLine_congr ?_ ?_ ?_ (mt (isStringConstant_stripComments_iff line).mp hString) h⟩
    · rw [stripComments_stripComments]
    · rw [stripComments_stripComments]
    · rw [stripComments_stripComments]

theorem loadLines_stripComments {lines : List Str} {ds : List (Declaration F)}
    (h : loadLines py package lines = .ok ds) :
    ∃ ds', loadLines py package (lines.map stripComments) = .ok ds' ∧ Reloaded ds ds' (∀ line ∈ lines, Tight line) := by
  induction lines generalizing ds with
  | nil =>
    cases h
    exact ⟨[], rfl, rfl, rfl, rfl, iff_of_true rfl fun line hLine => absurd hLine List.not_mem_nil⟩
  | cons line lines ih =>
    obtain ⟨fs, bs, hLine, hLines, rfl⟩ := loadLines_cons_eq_ok_iff.mp h
    obtain ⟨fs', hLine', hFront⟩ := loadLine_stripComments hLine
    obtain ⟨bs', hLines', hBack⟩ := ih hLines
    refine ⟨fs' ++ bs', loadLines_cons_eq_ok_iff.mpr ⟨fs', bs', hLine', hLines', rfl⟩, ?_⟩
    rw [List.forall_mem_cons]
    exact hFront.append hBack

theorem loadLines_of_stripComments {lines : List Str} {ds : List (Declaration F)}
    (h : loadLines py package (lines.map stripComments) = .ok ds) : ∃ ds', loadLines py package lines = .ok ds' := by
  induction lines generalizing ds with
  | nil => exact ⟨[], rfl⟩
  | cons line lines ih =>
    obtain ⟨fs, bs, hLine, hLines, rfl⟩ := loadLines_cons_eq_ok_iff.mp h
    obtain ⟨fs', hLine'⟩ := loadLine_of_stripComments hLine
    obtain ⟨bs', hLines'⟩ := ih hLines
    exact ⟨fs' ++ bs', loadLines_cons_eq_ok_iff.mpr ⟨fs', bs', hLine', hLines', rfl⟩⟩

/-! ## The halves of a text -/

def linesIn (lines : List Str) : List Str := lines.takeWhile (!isDelim ·)

def linesOut (lines : List Str) : List Str := (lines.dropWhile (!isDelim ·)).filter (!isDelim ·)

theorem serviceTexts_true (lines : List Str) :
    serviceTexts true lines = ([], terminated '\n' ((lines.filter (!isDelim ·)).map stripComments)) := by
  induction lines with
  | nil => rfl
  | cons line lines ih =>
    rw [serviceTexts, List.filter_cons]
    cases isDelim line with
    | true => exact ih
    | false =>
      rw [ih]
      simp

theorem serviceTexts_false (lines : List Str) :
    serviceTexts false lines =
      (terminated '\n' ((linesIn lines).map stripComments), terminated '\n' ((linesOut lines).map stripComments)) := by
  induction lines with
  | nil => rfl
  | cons line lines ih =>
    rw [serviceTexts, linesIn, linesOut, List.takeWhile_cons, List.dropWhile_cons]
    cases hDelim : isDelim line with
    | true =>
      rw [if_pos rfl, serviceTexts_true]
      simp [hDelim]
    | false =>
      rw [ih]
      exact congrArg (·, _) (terminated_cons _ _ _).symm

theorem loadLines_nil_line (lines : List Str) : loadLines py package (lines ++ [[]]) = loadLines py package lines := by
  induction lines with
  | nil => rfl
  | cons line lines ih => rw [List.cons_append, loadLines, loadLines, ih]

theorem split_terminated {lines : List Str} (hLines : ∀ line ∈ lines, '\n' ∉ line) :
    split '\n' (terminated '\n' lines) = lines ++ [[]] := by
  induction lines with
  | nil => rfl
  | cons line lines ih =>
    rw [terminated_cons, split_append_cons (hLines line List.mem_cons_self),
      ih fun l hl => hLines l (List.mem_cons_of_mem line hl), List.cons_append]

theorem loadLines_terminated {lines : List Str} (hLines : ∀ line ∈ lines, '\n' ∉ line) :
    loadLines py package (split '\n' (terminated '\n' lines)) = loadLines py package lines := by
  rw [split_terminated hLines, loadLines_nil_line]

theorem loadLines_intercalate {lines : List Str} (hLines : ∀ line ∈ lines, '\n' ∉ line) :
    loadLines py package (split '\n' (['\n'].intercalate lines)) = loadLines py package lines := by
  by_cases hNil : lines = []
  · subst hNil
    rfl
  · rw [split_eq_splitOn, List.splitOn_intercalate '\n' hLines hNil]

/-! ## A delimiter is no line of a message -/

theorem head?_type {s : Str} (hTrimmed : Trimmed s) (hSome : s ≠ []) : ((tokens s).headD []).head? = s.head? := by
  obtain ⟨near, hNear, hBegin⟩ := exists_behind_type hTrimmed hSome rfl
  cases hType : (tokens s).headD [] with
  | cons c type =>
    rw [hType] at hBegin
    obtain h | ⟨back, h⟩ := hBegin
    · rw [h]
      rfl
    · rw [h]
      rfl
  | nil =>
    rw [hType] at hBegin
    obtain ⟨c, rest, rfl⟩ := List.exists_cons_of_ne_nil hSome
    have hInk := hTrimmed.1 c rfl
    have hBlank : isspace c = true := by
      cases near with
      | cons d near =>
        obtain h | ⟨back, h⟩ := hBegin
        · exact (List.cons.inj h).1 ▸ hNear d List.mem_cons_self
        · exact (List.cons.inj h).1 ▸ hNear d List.mem_cons_self
      | nil =>
        obtain h | ⟨back, h⟩ := hBegin
        · cases h
        · rw [(List.cons.inj h).1]
          decide
    rw [hInk] at hBlank
    cases hBlank

theorem not_isValidConstantType {type : Str} (h : type.head? = some '-') : isValidConstantType type = false := by
  have hNone : ∀ t ∈ primitiveTypes, t.head? ≠ some '-' := by decide
  cases hValid : isValidConstantType type with
  | false => rfl
  | true => exact absurd h (hNone type (List.contains_iff_mem.mp hValid))

theorem not_isValidMsgType {unicodeWord : Char → Bool} {type : Str} (h : type.head? = some '-') :
    isValidMsgType unicodeWord type = false := by
  obtain ⟨rest, rfl⟩ := List.head?_eq_some_iff.mp h
  have hBare : bareMsgType ('-' :: rest) = '-' :: bareMsgType rest := List.takeWhile_cons_of_pos (by decide)
  have hLegal : isLegalResourceName unicodeWord ('-' :: bareMsgType rest) = false := by
    rw [isLegalResourceName, show Char.isAlpha '-' = false by decide]
    rfl
  rw [isValidMsgType, hBare, hLegal, Bool.and_false, Bool.false_and]

theorem loadLine_delim {line : Str} (h : isDelim line = true) {ds : List (Declaration F)} :
    loadLine py package line ≠ .ok ds := by
  intro hLoad
  obtain ⟨rest, hText⟩ := List.isPrefixOf_iff_prefix.mp h
  have hSome : stripComments line ≠ [] := by
    rw [← hText]
    simp [str]
  have hType : ((tokens (stripComments line)).headD []).head? = some '-' := by
    rw [head?_type (trimmed_stripComments line) hSome, ← hText]
    rfl
  rw [loadLine, if_neg hSome] at hLoad
  split at hLoad
  · rw [loadConstantLine, not_isValidConstantType hType] at hLoad
    cases hLoad
  · rw [loadFieldLine] at hLoad
    split at hLoad
    · rename_i type name hTokens
      rw [hTokens] at hType
      have hHead : type.head? = some '-' := hType
      rw [not_isValidMsgType hHead] at hLoad
      split at hLoad
      · cases hLoad
      · cases hLoad
    · cases hLoad

/-! ## The two specifications -/

theorem packageResourceName_append {suffix : Str} (hSuffix : '/' ∉ suffix) (name : Str) :
    packageResourceName (name ++ suffix) = (packageResourceName name).map fun key => (key.1, key.2 ++ suffix) := by
  by_cases hSlash : '/' ∈ name
  · obtain ⟨package, base, rfl, hPackage⟩ := List.eq_append_cons_of_mem hSlash
    rw [packageResourceName, if_pos (List.mem_append_left _ hSlash), packageResourceName, if_pos hSlash,
      List.append_assoc, List.cons_append, split_append_cons hPackage, split_append_cons hPackage]
    by_cases hMore : '/' ∈ base
    · obtain ⟨middle, rest, rfl, hMiddle⟩ := List.eq_append_cons_of_mem hMore
      rw [List.append_assoc, List.cons_append, split_append_cons hMiddle, split_append_cons hMiddle]
      obtain ⟨part, parts, hSplit⟩ := List.exists_cons_of_ne_nil (split_ne_nil '/' rest)
      obtain ⟨part', parts', hSplit'⟩ := List.exists_cons_of_ne_nil (split_ne_nil '/' (rest ++ suffix))
      rw [hSplit, hSplit']
      rfl
    · rw [split_of_not_mem hMore, split_of_not_mem (List.mem_append.not.mpr (not_or.mpr ⟨hMore, hSuffix⟩))]
      rfl
  · rw [packageResourceName, if_neg (List.mem_append.not.mpr (not_or.mpr ⟨hSlash, hSuffix⟩)), packageResourceName,
      if_neg hSlash]
    rfl

def Loads (py : Python F) (ctx : MsgContext) (text fullName : Str) : Prop :=
  ∃ loaded registered, loadMsgFromString py ctx text fullName = .ok (loaded, registered)

def Accepts (py : Python F) (fullName : Str) (lines : List Str) : Prop :=
  ∃ package shortName ds, packageResourceName fullName = some (package, shortName) ∧
    loadLines py package lines = .ok ds ∧ WellDeclared ds

theorem loads_iff : Loads py ctx text fullName ↔ Accepts py fullName (split '\n' text) := by
  constructor
  · rintro ⟨loaded, registered, hLoad⟩
    obtain ⟨package, shortName, ds, hName, hLines, hSpec, -⟩ := loadMsgFromString_eq_ok_iff.mp hLoad
    exact ⟨package, shortName, ds, hName, hLines, (specOf_eq_ok_iff.mp hSpec).1⟩
  · rintro ⟨package, shortName, ds, hName, hLines, hWell⟩
    obtain ⟨loaded, registered, hLoad, -⟩ := exists_load hName hLines hWell ctx
    exact ⟨loaded, registered, hLoad⟩

theorem accepts_congr {lines lines' : List Str}
    (h : ∀ package, loadLines py package lines = loadLines py package lines') :
    Accepts py fullName lines ↔ Accepts py fullName lines' := by
  simp only [Accepts, h]

theorem loads_terminated_iff {lines : List Str} (hLines : ∀ line ∈ lines, '\n' ∉ line) :
    Loads py ctx (terminated '\n' lines) fullName ↔ Accepts py fullName lines :=
  loads_iff.trans (accepts_congr fun _ => loadLines_terminated hLines)

theorem loads_intercalate_iff {lines : List Str} (hLines : ∀ line ∈ lines, '\n' ∉ line) :
    Loads py ctx (['\n'].intercalate lines) fullName ↔ Accepts py fullName lines :=
  loads_iff.trans (accepts_congr fun _ => loadLines_intercalate hLines)

theorem accepts_stripComments_iff (lines : List Str) :
    Accepts py fullName (lines.map stripComments) ↔ Accepts py fullName lines := by
  constructor
  · rintro ⟨package, shortName, ds', hName, h', hWell⟩
    obtain ⟨ds, h⟩ := loadLines_of_stripComments h'
    obtain ⟨ds'', h'', hReloaded⟩ := loadLines_stripComments h
    cases h'.symm.trans h''
    exact ⟨package, shortName, ds, hName, h, hReloaded.wellDeclared.mpr hWell⟩
  · rintro ⟨package, shortName, ds, hName, h, hWell⟩
    obtain ⟨ds', h', hReloaded⟩ := loadLines_stripComments h
    exact ⟨package, shortName, ds', hName, h', hReloaded.wellDeclared.mp hWell⟩

theorem Accepts.not_isDelim {lines : List Str} (h : Accepts py fullName lines) {line : Str} (hLine : line ∈ lines) :
    isDelim line = false := by
  cases hDelim : isDelim line with
  | false => rfl
  | true =>
    obtain ⟨package, shortName, ds, -, hLoad, -⟩ := h
    obtain ⟨front, back, rfl⟩ := List.append_of_mem hLine
    obtain ⟨fs, bs, -, hBack, rfl⟩ := loadLines_append_eq_ok_iff.mp hLoad
    obtain ⟨ls, -, hBad, -⟩ := loadLines_cons_eq_ok_iff.mp hBack
    exact absurd hBad (loadLine_delim hDelim)

theorem loadSrvFromString_eq_ok_iff {srv : LoadedSrv F} {registered : MsgContext} :
    loadSrvFromString py ctx text fullName = .ok (srv, registered) ↔
      ∃ package shortName between,
        loadMsgFromString py ctx (serviceTexts false (split '\n' text)).1 (fullName ++ str "Request") =
          .ok (srv.request, between) ∧
        loadMsgFromString py between (serviceTexts false (split '\n' text)).2 (fullName ++ str "Response") =
          .ok (srv.response, registered) ∧
        packageResourceName fullName = some (package, shortName) ∧ srv.text = text ∧ srv.fullName = fullName ∧
        srv.shortName = shortName ∧ srv.package = package := by
  rw [loadSrvFromString]
  dsimp only
  constructor
  · intro h
    split at h
    · cases h
    · rename_i request between hRequest
      split at h
      · cases h
      · rename_i response last hResponse
        split at h
        · cases h
        · rename_i package shortName hName
          cases h
          exact ⟨package, shortName, between, hRequest, hResponse, hName, rfl, rfl, rfl, rfl⟩
  · rintro ⟨package, shortName, between, hRequest, hResponse, hName, rfl, rfl, rfl, rfl⟩
    rw [hRequest]
    dsimp only
    rw [hResponse]
    dsimp only
    rw [hName]

theorem not_mem_map_stripComments {lines : List Str} (hLines : ∀ line ∈ lines, '\n' ∉ line) :
    ∀ line ∈ lines.map stripComments, '\n' ∉ line := by
  intro line hLine hMem
  obtain ⟨raw, hRaw, rfl⟩ := List.mem_map.mp hLine
  exact hLines raw hRaw (mem_of_mem_stripComments hMem)

theorem exists_loadSrv_iff (ctx : MsgContext) :
    (∃ srv registered, loadSrvFromString py ctx text fullName = .ok (srv, registered)) ↔
      Accepts py (fullName ++ str "Request") (linesIn (split '\n' text)) ∧
        Accepts py (fullName ++ str "Response") (linesOut (split '\n' text)) := by
  have hHalf (half : List Str) (hHalf : half ⊆ split '\n' text) (ctx : MsgContext) (name : Str) :
      Loads py ctx (terminated '\n' (half.map stripComments)) name ↔ Accepts py name half := by
    have hLines := not_mem_map_stripComments fun line hLine => not_mem_of_mem_split (hHalf hLine)
    rw [loads_terminated_iff hLines, accepts_stripComments_iff]
  have hIn := hHalf (linesIn (split '\n' text)) (List.takeWhile_prefix _).subset
  have hOut := hHalf (linesOut (split '\n' text)) fun line hLine =>
    (List.dropWhile_suffix _).subset (List.mem_of_mem_filter hLine)
  constructor
  · rintro ⟨srv, registered, hLoad⟩
    obtain ⟨-, -, between, hFirst, hSecond, -⟩ := loadSrvFromString_eq_ok_iff.mp hLoad
    rw [serviceTexts_false] at hFirst hSecond
    exact ⟨(hIn ctx _).mp ⟨_, _, hFirst⟩, (hOut between _).mp ⟨_, _, hSecond⟩⟩
  · rintro ⟨hFirst, hSecond⟩
    obtain ⟨request, between, hRequest⟩ := (hIn ctx _).mpr hFirst
    obtain ⟨response, registered, hResponse⟩ := (hOut between _).mpr hSecond
    obtain ⟨package, shortName, -, hName, -⟩ := hFirst
    rw [packageResourceName_append (by decide)] at hName
    obtain ⟨⟨package, shortName⟩, hOwn, -⟩ := Option.map_eq_some_iff.mp hName
    refine ⟨⟨request, response, text, fullName, shortName, package⟩, registered,
      loadSrvFromString_eq_ok_iff.mpr ⟨package, shortName, between, ?_, ?_, hOwn, rfl, rfl, rfl, rfl⟩⟩
    · rw [serviceTexts_false]
      exact hRequest
    · rw [serviceTexts_false]
      exact hResponse

theorem half_same_iff {half : List Str} (hHalf : ∀ line ∈ half, '\n' ∉ line) {text : Str}
    (hText : ∀ package, loadLines py package (split '\n' text) = loadLines py package half)
    {ctx' registered registered' : MsgContext} {loaded loaded' : LoadedSpec F}
    (hStripped : loadMsgFromString py ctx (terminated '\n' (half.map stripComments)) fullName = .ok (loaded, registered))
    (hWritten : loadMsgFromString py ctx' text fullName = .ok (loaded', registered')) :
    loaded'.SameContent loaded ↔ ∀ line ∈ half, Tight line := by
  obtain ⟨package, shortName, ds', hName, hLines', hSpec', -⟩ := loadMsgFromString_eq_ok_iff.mp hStripped
  obtain ⟨_, _, ds, hName', hLines, hSpec, -⟩ := loadMsgFromString_eq_ok_iff.mp hWritten
  cases hName.symm.trans hName'
  rw [loadLines_terminated (not_mem_map_stripComments hHalf)] at hLines'
  rw [hText package] at hLines
  obtain ⟨ds'', hLines'', hReloaded⟩ := loadLines_stripComments hLines
  cases hLines'.symm.trans hLines''
  exact hReloaded.sameContent_iff (specOf_eq_ok_iff.mp hSpec).2.1 (specOf_eq_ok_iff.mp hSpec').2.1

theorem linesIn_append {above : List Str} (h : ∀ line ∈ above, isDelim line = false) {delim : Str}
    (hDelim : isDelim delim = true) (below : List Str) : linesIn (above ++ delim :: below) = above := by
  have hAbove : ∀ line ∈ above, (!isDelim line) = true := fun line hLine => by rw [h line hLine]; rfl
  rw [linesIn, List.takeWhile_append_of_pos hAbove, List.takeWhile_cons_of_neg (by simp [hDelim]), List.append_nil]

theorem linesOut_append {above below : List Str} (h : ∀ line ∈ above ++ below, isDelim line = false) {delim : Str}
    (hDelim : isDelim delim = true) : linesOut (above ++ delim :: below) = below := by
  have hAbove : ∀ line ∈ above, (!isDelim line) = true := fun line hLine => by
    rw [h line (List.mem_append_left _ hLine)]
    rfl
  rw [linesOut, List.dropWhile_append_of_pos hAbove, List.dropWhile_cons_of_neg (by simp [hDelim]),
    List.filter_cons_of_neg (by simp [hDelim]), List.filter_eq_self]
  intro line hLine
  rw [h line (List.mem_append_right _ hLine)]
  rfl

/-! ## Both parsers -/

/-- A service is loaded exactly if two message texts are, and with their content. -/
structure SrvAgrees (py : Python F) (ctx : MsgContext) (text above below fullName : Str) : Prop where
  loads : (∃ srv registered, loadSrvFromString py ctx text fullName = .ok (srv, registered)) ↔
    Loads py ctx above (fullName ++ str "Request") ∧ Loads py ctx below (fullName ++ str "Response")
  content : ∀ srv registered request registered' response registered'',
    loadSrvFromString py ctx text fullName = .ok (srv, registered) →
    loadMsgFromString py ctx above (fullName ++ str "Request") = .ok (request, registered') →
    loadMsgFromString py ctx below (fullName ++ str "Response") = .ok (response, registered'') →
    request.SameContent srv.request ∧ response.SameContent srv.response

theorem srvAgrees_single_iff {above below : List Str} {delim : Str} (hText : split '\n' text = above ++ delim :: below)
    (hDelim : isDelim delim = true) (hSingle : ∀ line ∈ above ++ below, isDelim line = false) :
    SrvAgrees py ctx text (terminated '\n' above) (['\n'].intercalate below) fullName ↔
      (Loads py ctx (terminated '\n' above) (fullName ++ str "Request") →
        Loads py ctx (['\n'].intercalate below) (fullName ++ str "Response") →
        ∀ line ∈ above ++ below, Tight line) := by
  have hNewline : ∀ line ∈ split '\n' text, '\n' ∉ line := fun line => not_mem_of_mem_split
  have hAbove : ∀ line ∈ above, '\n' ∉ line := fun line hLine =>
    hNewline line (hText ▸ List.mem_append_left _ hLine)
  have hBelow : ∀ line ∈ below, '\n' ∉ line := fun line hLine =>
    hNewline line (hText ▸ List.mem_append_right _ (List.mem_cons_of_mem _ hLine))
  have hIn := linesIn_append (fun line hLine => hSingle line (List.mem_append_left _ hLine)) hDelim below
  have hOut := linesOut_append hSingle hDelim
  have hLoads : (∃ srv registered, loadSrvFromString py ctx text fullName = .ok (srv, registered)) ↔
      Loads py ctx (terminated '\n' above) (fullName ++ str "Request") ∧
        Loads py ctx (['\n'].intercalate below) (fullName ++ str "Response") := by
    rw [exists_loadSrv_iff, hText, hIn, hOut, loads_terminated_iff hAbove, loads_intercalate_iff hBelow]
  -- what is loaded from the halves against what is loaded from the texts above and below
  have hContent {srv registered request registered' response registered''}
      (hSrv : loadSrvFromString py ctx text fullName = .ok (srv, registered))
      (hRequest : loadMsgFromString py ctx (terminated '\n' above) (fullName ++ str "Request") =
        .ok (request, registered'))
      (hResponse : loadMsgFromString py ctx (['\n'].intercalate below) (fullName ++ str "Response") =
        .ok (response, registered'')) :
      request.SameContent srv.request ∧ response.SameContent srv.response ↔ ∀ line ∈ above ++ below, Tight line := by
    obtain ⟨-, -, between, hFirst, hSecond, -⟩ := loadSrvFromString_eq_ok_iff.mp hSrv
    rw [serviceTexts_false, hText] at hFirst hSecond
    rw [hIn] at hFirst
    rw [hOut] at hSecond
    rw [half_same_iff hAbove (fun _ => loadLines_terminated hAbove) hFirst hRequest,
      half_same_iff hBelow (fun _ => loadLines_intercalate hBelow) hSecond hResponse, List.forall_mem_append]
  constructor
  · rintro ⟨-, hSame⟩ hFirst hSecond
    obtain ⟨srv, registered, hSrv⟩ := hLoads.mpr ⟨hFirst, hSecond⟩
    obtain ⟨request, registered', hRequest⟩ := hFirst
    obtain ⟨response, registered'', hResponse⟩ := hSecond
    exact (hContent hSrv hRequest hResponse).mp (hSame _ _ _ _ _ _ hSrv hRequest hResponse)
  · refine fun hTight => ⟨hLoads, fun srv registered request registered' response registered'' hSrv hRequest hResponse => ?_⟩
    exact (hContent hSrv hRequest hResponse).mpr (hTight ⟨_, _, hRequest⟩ ⟨_, _, hResponse⟩)

theorem srvAgrees_several_iff {above below : List Str} {delim : Str} (hText : split '\n' text = above ++ delim :: below)
    (hSeveral : ∃ line ∈ above ++ below, isDelim line = true) :
    SrvAgrees py ctx text (terminated '\n' above) (['\n'].intercalate below) fullName ↔
      ¬ (Loads py ctx (terminated '\n' (linesIn (split '\n' text))) (fullName ++ str "Request") ∧
        Loads py ctx (terminated '\n' (linesOut (split '\n' text))) (fullName ++ str "Response")) := by
  have hNewline : ∀ line ∈ split '\n' text, '\n' ∉ line := fun line => not_mem_of_mem_split
  have hAbove : ∀ line ∈ above, '\n' ∉ line := fun line hLine =>
    hNewline line (hText ▸ List.mem_append_left _ hLine)
  have hBelow : ∀ line ∈ below, '\n' ∉ line := fun line hLine =>
    hNewline line (hText ▸ List.mem_append_right _ (List.mem_cons_of_mem _ hLine))
  have hIn : ∀ line ∈ linesIn (split '\n' text), '\n' ∉ line := fun line hLine =>
    hNewline line ((List.takeWhile_prefix _).subset hLine)
  have hOut : ∀ line ∈ linesOut (split '\n' text), '\n' ∉ line := fun line hLine =>
    hNewline line ((List.dropWhile_suffix _).subset (List.mem_of_mem_filter hLine))
  have hNot : ¬ (Loads py ctx (terminated '\n' above) (fullName ++ str "Request") ∧
      Loads py ctx (['\n'].intercalate below) (fullName ++ str "Response")) := by
    rw [loads_terminated_iff hAbove, loads_intercalate_iff hBelow]
    rintro ⟨hFirst, hSecond⟩
    obtain ⟨line, hLine, hDelim⟩ := hSeveral
    obtain hLine | hLine := List.mem_append.mp hLine
    · exact absurd hDelim (by rw [hFirst.not_isDelim hLine]; decide)
    · exact absurd hDelim (by rw [hSecond.not_isDelim hLine]; decide)
  rw [loads_terminated_iff hIn, loads_terminated_iff hOut, ← exists_loadSrv_iff ctx]
  constructor
  · exact fun h hSrv => hNot (h.loads.mp hSrv)
  · refine fun h => ⟨iff_of_false h hNot, fun srv registered _ _ _ _ hSrv => absurd ⟨srv, registered, hSrv⟩ h⟩

/-- A service and the messages above and below its delimiter agree if no string constant hides a
comment or a space in front of its type; and if one more line begins with the delimiter behind its
blanks, only as long as the service is not loaded without it. -/
theorem srvAgrees_iff {above below : List Str} {delim : Str} (hText : split '\n' text = above ++ delim :: below)
    (hDelim : isDelim delim = true) :
    SrvAgrees py ctx text (terminated '\n' above) (['\n'].intercalate below) fullName ↔
      ((∀ line ∈ above ++ below, isDelim line = false) →
        Loads py ctx (terminated '\n' above) (fullName ++ str "Request") →
        Loads py ctx (['\n'].intercalate below) (fullName ++ str "Response") →
        ∀ line ∈ above ++ below, Tight line) ∧
      ((∃ line ∈ above ++ below, isDelim line = true) →
        ¬ (Loads py ctx (terminated '\n' (linesIn (split '\n' text))) (fullName ++ str "Request") ∧
          Loads py ctx (terminated '\n' (linesOut (split '\n' text))) (fullName ++ str "Response"))) := by
  by_cases hSeveral : ∃ line ∈ above ++ below, isDelim line = true
  · have hNotSingle : ¬ ∀ line ∈ above ++ below, isDelim line = false := by
      intro hAll
      obtain ⟨line, hLine, hTrue⟩ := hSeveral
      rw [hAll line hLine] at hTrue
      cases hTrue
    rw [srvAgrees_several_iff hText hSeveral]
    exact ⟨fun h => ⟨fun hAll => absurd hAll hNotSingle, fun _ => h⟩, fun h => h.2 hSeveral⟩
  · have hSingle : ∀ line ∈ above ++ below, isDelim line = false := fun line hLine =>
      Bool.eq_false_iff.mpr fun hTrue => hSeveral ⟨line, hLine, hTrue⟩
    rw [srvAgrees_single_iff hText hDelim hSingle]
    exact ⟨fun h => ⟨fun _ => h, fun h => absurd h hSeveral⟩, fun h => h.1 hSingle⟩

/-! ## Samples -/

theorem srvAgrees_sample :
    SrvAgrees asciiPython .empty (str "int32 a # an a\n---\nstring s=b") (terminated '\n' [str "int32 a # an a"])
      (['\n'].intercalate [str "string s=b"]) (str "pkg/Sample") :=
  (srvAgrees_iff (by decide) (isDelim_of_opens (List.prefix_refl _))).mpr
    ⟨fun _ _ _ => by decide +kernel, fun hSeveral => absurd hSeveral (by decide +kernel)⟩

theorem loads_oneString {lead gap name v line : Str} (h : StringLine lead gap name v line) (hLine : '\n' ∉ line) :
    Loads asciiPython .empty (terminated '\n' [line]) (str "pkg/SampleRequest") := by
  refine (loads_terminated_iff (List.forall_mem_singleton.mpr hLine)).mpr ⟨str "pkg", str "SampleRequest", _, rfl,
    loadLines_singleton.mpr (h.load asciiPython (str "pkg")), List.nodup_nil, ?_⟩
  exact fun type hType => absurd hType List.not_mem_nil

/-- The message keeps all that stands behind the equals sign, the service only `a`. -/
theorem comment_in_service :
    ¬ SrvAgrees asciiPython .empty (str "string s=a#b\n---") (terminated '\n' [str "string s=a#b"])
      (['\n'].intercalate []) (str "pkg/Sample") := by
  have hLine : StringLine [] (str " ") (str "s") (str "a#b") (str "string s=a#b") :=
    ⟨by decide, by decide, by decide, by decide, by decide, rfl⟩
  have hSingle : ∀ line ∈ [str "string s=a#b"] ++ [], isDelim line = false := by decide
  have hBelow : Loads asciiPython .empty (['\n'].intercalate []) (str "pkg/SampleResponse") :=
    loads_iff.mpr ⟨str "pkg", str "SampleResponse", [], rfl, rfl, ⟨List.nodup_nil, by simp [typesOf]⟩⟩
  rw [srvAgrees_single_iff (by decide) (isDelim_of_opens (List.prefix_refl _)) hSingle]
  intro h
  have hTight := h (loads_oneString hLine (by decide)) hBelow
  revert hTight
  decide +kernel

end XcRos.Msg
