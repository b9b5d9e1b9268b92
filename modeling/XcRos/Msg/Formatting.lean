import XcRos.Msg.Gentools
import XcRos.Msg.LoaderLines

/-! # The format of a message text

Blank lines, comments and blanks around the parts of a line leave what is loaded as it is, with one
exception: the name of a string constant is cut out behind the first space of the line, and with a
space in front of the type this is the wrong one.
-/

namespace XcRos.Msg

open XcRos.Foundation

/-! ## Edits -/

structure PlainLine (type rest line : Str) : Prop where
  word : Word type
  inked : rest ≠ []
  trimmed : Trimmed rest
  noComment : '#' ∉ type ∧ '#' ∉ rest
  noStringConstant : type = str "string" → '=' ∉ rest
  shape : ∃ lead gap blanks comment, Blanks lead ∧ Blanks gap ∧ ' ' ∈ gap ∧ Blanks blanks ∧
    (comment = [] ∨ comment.head? = some '#') ∧ line = lead ++ (type ++ gap ++ rest) ++ (blanks ++ comment)

/-- A string constant before and after the blanks in it are changed. All that stands behind its equals
sign, up to the blanks at the end, is its value. -/
structure StringEdit where
  lead : Str
  lead' : Str
  gap : Str
  gap' : Str
  name : Str
  val : Str
  blanks : Str
  blanks' : Str
  line : Str
  line' : Str
  before : StringLine lead gap name (val ++ blanks) line
  after : StringLine lead' gap' name (val ++ blanks') line'
  nameHead : ∀ c ∈ name.head?, isspace c = false
  blankTail : Blanks blanks
  blankTail' : Blanks blanks'

inductive Edit where
  | kept (line : Str)
  | added (line : Str) (hEmpty : stripComments line = [])
  | removed (line : Str) (hEmpty : stripComments line = [])
  | plain (type rest line line' : Str) (before : PlainLine type rest line) (after : PlainLine type rest line')
  | string (e : StringEdit)

namespace Edit

def before : Edit → List Str
  | kept line | removed line _ | plain _ _ line _ _ _ => [line]
  | added _ _ => []
  | string e => [e.line]

def after : Edit → List Str
  | kept line | added line _ | plain _ _ _ line _ _ => [line]
  | removed _ _ => []
  | string e => [e.line']

end Edit

/-- The name is cut out alike: no space comes or goes in front of the type, and behind such a space
the gap stays, as it is part of the name. -/
def StringEdit.KeepsName (e : StringEdit) : Prop :=
  (' ' ∈ e.lead ↔ ' ' ∈ e.lead') ∧ (' ' ∈ e.lead → e.gap = e.gap' ∨ e.name = [])

def Edit.KeepsName : Edit → Prop
  | string e => e.KeepsName
  | _ => True

variable {F : Type} {py : Python F} {ctx : MsgContext} {package : Str}

/-! ## One line -/

theorem PlainLine.stripComments {type rest line : Str} (h : PlainLine type rest line) :
    ∃ gap, Blanks gap ∧ ' ' ∈ gap ∧ stripComments line = type ++ gap ++ rest := by
  obtain ⟨lead, gap, blanks, comment, hLead, hGap, hSpace, hBlanks, hComment, rfl⟩ := h.shape
  refine ⟨gap, hGap, hSpace, ?_⟩
  have hFront : '#' ∉ lead ++ (type ++ gap ++ rest) ++ blanks := by
    simp only [List.mem_append, not_or]
    exact ⟨⟨hLead.not_mem (by decide), ⟨h.noComment.1, hGap.not_mem (by decide)⟩, h.noComment.2⟩,
      hBlanks.not_mem (by decide)⟩
  have hCut : comment.takeWhile (· ≠ '#') = [] := by
    cases comment with
    | nil => rfl
    | cons c comment =>
      obtain hNil | hHead := hComment
      · cases hNil
      · cases hHead
        rfl
  have hTrimmed : Trimmed (type ++ gap ++ rest) := by
    constructor
    · intro c hc
      rw [List.append_assoc, List.head?_append_of_ne_nil _ h.word.nonempty] at hc
      exact h.word.trimmed.1 c hc
    · intro c hc
      rw [List.getLast?_append_of_ne_nil _ h.inked] at hc
      exact h.trimmed.2 c hc
  rw [stripComments_eq, ← List.append_assoc, takeWhile_append_of_not_mem hFront, hCut, List.append_nil,
    strip_append_blanks hBlanks, strip_blanks_append hLead, hTrimmed.strip]

theorem PlainLine.load {type rest line line' : Str} (h : PlainLine type rest line)
    (h' : PlainLine type rest line') {ds : List (Declaration F)} (hLoad : loadLine py package line = .ok ds) :
    loadLine py package line' = .ok ds := by
  obtain ⟨gap, hGap, hSpace, hText⟩ := h.stripComments
  obtain ⟨gap', hGap', hSpace', hText'⟩ := h'.stripComments
  have hEquals (gap : Str) (hGap : Blanks gap) : '=' ∈ type ++ gap ++ rest ↔ '=' ∈ type ∨ '=' ∈ rest := by
    simp only [List.mem_append, hGap.not_mem (c := '=') (by decide), or_false]
  have hSome (gap : Str) : type ++ gap ++ rest ≠ [] := fun h => inked h' (List.append_eq_nil_iff.mp h).2
  refine loadLine_congr ?_ ?_ ?_ ?_ hLoad
  · rw [hText, hText']
    exact iff_of_false (hSome gap) (hSome gap')
  · rw [hText, hText', hEquals gap hGap, hEquals gap' hGap']
  · rw [hText, hText', tokens_word h.word hGap hSpace, tokens_word h.word hGap' hSpace']
  · rintro ⟨hMem, hType⟩
    rw [hText, tokens_word h.word hGap hSpace] at hType
    have hString : type = str "string" := hType
    rw [hText, hEquals gap hGap, hString] at hMem
    obtain hMem | hMem := hMem
    · exact absurd hMem (by decide)
    · exact h.noStringConstant hString hMem

theorem StringEdit.val_eq (e : StringEdit) : strip (e.val ++ e.blanks) = strip (e.val ++ e.blanks') := by
  rw [strip_append_blanks e.blankTail, strip_append_blanks e.blankTail']

theorem StringEdit.cutName_iff (e : StringEdit) :
    cutName e.lead e.gap e.name = cutName e.lead' e.gap' e.name ↔ e.KeepsName := by
  have hNe := strip_type_gap_ne e.before.blankGap e.nameHead
  have hNe' := strip_type_gap_ne e.after.blankGap e.nameHead
  rw [cutName, cutName, KeepsName]
  by_cases hLead : ' ' ∈ e.lead <;> by_cases hLead' : ' ' ∈ e.lead'
  · rw [if_pos hLead, if_pos hLead', strip_type_gap_inj e.before.blankGap e.after.blankGap e.nameHead]
    exact ⟨fun h => ⟨iff_of_true hLead hLead', fun _ => h⟩, fun h => h.2 hLead⟩
  · rw [if_pos hLead, if_neg hLead']
    exact iff_of_false hNe fun h => hLead' (h.1.mp hLead)
  · rw [if_neg hLead, if_pos hLead']
    exact iff_of_false hNe'.symm fun h => hLead (h.1.mpr hLead')
  · rw [if_neg hLead, if_neg hLead']
    exact iff_of_true rfl ⟨iff_of_false hLead hLead', fun h => absurd h hLead⟩

/-! ## One edit -/

theorem Edit.load (e : Edit) {ds : List (Declaration F)} (h : loadLines py package e.before = .ok ds) :
    ∃ ds', loadLines py package e.after = .ok ds' ∧ Reloaded ds ds' e.KeepsName := by
  cases e with
  | kept line => exact ⟨ds, h, .refl ds⟩
  | added line hEmpty =>
    cases h
    exact ⟨[], loadLines_singleton.mpr (loadLine_empty hEmpty), .refl []⟩
  | removed line hEmpty =>
    have hLine := loadLines_singleton.mp h
    rw [loadLine_empty hEmpty] at hLine
    cases hLine
    exact ⟨[], rfl, .refl []⟩
  | plain type rest line line' before after =>
    exact ⟨ds, loadLines_singleton.mpr (before.load after (loadLines_singleton.mp h)), .refl ds⟩
  | string e =>
    have hLine := loadLines_singleton.mp h
    rw [e.before.load py package] at hLine
    cases hLine
    refine ⟨_, loadLines_singleton.mpr (e.after.load py package), rfl, rfl, rfl, ?_⟩
    have hSame : constantsOf [.constant (stringConstant F (cutName e.lead e.gap e.name) (e.val ++ e.blanks))] =
        constantsOf [.constant (stringConstant F (cutName e.lead' e.gap' e.name) (e.val ++ e.blanks'))] ↔
          cutName e.lead e.gap e.name = cutName e.lead' e.gap' e.name := by
      simp [constantsOf, Declaration.constant?, stringConstant, e.val_eq]
    exact hSame.trans e.cutName_iff

theorem loadLines_edits {edits : List Edit} {ds : List (Declaration F)}
    (h : loadLines py package (edits.flatMap (·.before)) = .ok ds) :
    ∃ ds', loadLines py package (edits.flatMap (·.after)) = .ok ds' ∧ Reloaded ds ds' (∀ e ∈ edits, e.KeepsName) := by
  induction edits generalizing ds with
  | nil =>
    cases h
    exact ⟨[], rfl, rfl, rfl, rfl, iff_of_true rfl fun e he => absurd he List.not_mem_nil⟩
  | cons e edits ih =>
    rw [List.flatMap_cons] at h
    obtain ⟨fs, bs, hFront, hBack, rfl⟩ := loadLines_append_eq_ok_iff.mp h
    obtain ⟨fs', hFront', hSameFront⟩ := e.load hFront
    obtain ⟨bs', hBack', hSameBack⟩ := ih hBack
    refine ⟨fs' ++ bs', ?_, ?_⟩
    · rw [List.flatMap_cons]
      exact loadLines_append_eq_ok_iff.mpr ⟨fs', bs', hFront', hBack', rfl⟩
    · rw [List.forall_mem_cons]
      exact hSameFront.append hSameBack

/-! ## The text -/

theorem LoadedSpec.SameContent.md5Text {loaded loaded' : LoadedSpec F} (h : loaded.SameContent loaded')
    (subMd5 : MsgSpec → Option Str) (ctx : MsgContext) :
    computeMd5Text subMd5 ctx loaded.spec = computeMd5Text subMd5 ctx loaded'.spec := by
  rw [computeMd5Text, computeMd5Text, MsgSpec.fields, MsgSpec.fields, h.types, h.names, h.constants]

/-- An edited text gives the same message if and only if every string constant keeps its name. -/
theorem formatting_ignored_iff {edits : List Edit} {text text' fullName : Str} {loaded : LoadedSpec F}
    {registered : MsgContext} (hBefore : split '\n' text = edits.flatMap (·.before))
    (hAfter : split '\n' text' = edits.flatMap (·.after))
    (hLoad : loadMsgFromString py ctx text fullName = .ok (loaded, registered)) :
    (∃ loaded' registered', loadMsgFromString py ctx text' fullName = .ok (loaded', registered') ∧
        loaded.SameContent loaded' ∧
        ∀ subMd5 ctx, computeMd5Text subMd5 ctx loaded.spec = computeMd5Text subMd5 ctx loaded'.spec) ↔
      ∀ e ∈ edits, e.KeepsName := by
  obtain ⟨package, shortName, ds, hName, hLines, hSpec, -⟩ := loadMsgFromString_eq_ok_iff.mp hLoad
  obtain ⟨hWell, hDeclares, -⟩ := specOf_eq_ok_iff.mp hSpec
  rw [hBefore] at hLines
  obtain ⟨ds', hLines', hReloaded⟩ := loadLines_edits hLines
  rw [← hAfter] at hLines'
  constructor
  · rintro ⟨loaded', registered', hLoad', hSame, -⟩
    obtain ⟨package', shortName', ds'', hName', hLines'', hSpec', -⟩ := loadMsgFromString_eq_ok_iff.mp hLoad'
    obtain ⟨-, hDeclares', -⟩ := specOf_eq_ok_iff.mp hSpec'
    cases hName.symm.trans hName'
    cases hLines'.symm.trans hLines''
    exact (hReloaded.sameContent_iff hDeclares hDeclares').mp hSame
  · intro hKeep
    obtain ⟨loaded', registered', hLoad', hDeclares'⟩ :=
      exists_load hName hLines' (hReloaded.wellDeclared.mp hWell) ctx
    have hSame := (hReloaded.sameContent_iff hDeclares hDeclares').mpr hKeep
    exact ⟨loaded', registered', hLoad', hSame, hSame.md5Text⟩

/-! ## Samples -/

def widened : StringEdit where
  lead := []
  lead' := []
  gap := str " "
  gap' := str "  "
  name := str "s"
  val := str "b"
  blanks := []
  blanks' := str " "
  line := str "string s=b"
  line' := str "string  s=b "
  before := ⟨by decide, by decide, by decide, by decide, by decide, rfl⟩
  after := ⟨by decide, by decide, by decide, by decide, by decide, rfl⟩
  nameHead := by decide
  blankTail := by decide
  blankTail' := by decide

def sampleEdits : List Edit :=
  [.added (str "# what a is") (by decide),
    .plain (str "int32") (str "a") (str "int32 a") (str " int32  a # of it")
      ⟨⟨by decide, by decide⟩, by decide, by decide, by decide, by decide,
        [], str " ", [], [], by decide, by decide, by decide, by decide, by decide, rfl⟩
      ⟨⟨by decide, by decide⟩, by decide, by decide, by decide, by decide,
        str " ", str "  ", str " ", str "# of it", by decide, by decide, by decide, by decide, by decide, rfl⟩,
    .string widened]

theorem formatting_ignored_sample :
    ∃ loaded registered, loadMsgFromString asciiPython .empty (str "int32 a\nstring s=b") (str "pkg/Sample") =
        .ok (loaded, registered) ∧
      ∃ loaded' registered', loadMsgFromString asciiPython .empty
          (str "# what a is\n int32  a # of it\nstring  s=b ") (str "pkg/Sample") = .ok (loaded', registered') ∧
        loaded.SameContent loaded' ∧
        ∀ subMd5 ctx, computeMd5Text subMd5 ctx loaded.spec = computeMd5Text subMd5 ctx loaded'.spec := by
  have hLines : loadLines asciiPython (str "pkg") (split '\n' (str "int32 a\nstring s=b")) =
      .ok [.field (str "int32") (str "a"), .constant (stringConstant Unit (str "s") (str "b"))] := by
    decide +kernel
  obtain ⟨loaded, registered, hLoad, -⟩ :=
    exists_load (rfl : packageResourceName (str "pkg/Sample") = some (str "pkg", str "Sample")) hLines
      ⟨by decide, by decide⟩ .empty
  have hKeep : ∀ e ∈ sampleEdits, e.KeepsName :=
    List.forall_mem_cons.mpr ⟨trivial, List.forall_mem_cons.mpr ⟨trivial, List.forall_mem_singleton.mpr
      ⟨by decide, by decide⟩⟩⟩
  exact ⟨loaded, registered, hLoad, (formatting_ignored_iff (by decide) (by decide) hLoad).mpr hKeep⟩

theorem load_string {lead gap name v text : Str} (h : StringLine lead gap name v text) (hLine : '\n' ∉ text)
    (ctx : MsgContext) :
    ∃ loaded registered, loadMsgFromString asciiPython ctx text (str "pkg/Sample") = .ok (loaded, registered) ∧
      loaded.spec.constants = [(stringConstant Unit (cutName lead gap name) v).toConstant] ∧
      ∀ subMd5 ctx, computeMd5Text subMd5 ctx loaded.spec =
        some (strip (constantLine (stringConstant Unit (cutName lead gap name) v).toConstant ++ ['\n'])) := by
  have hLines := loadLines_singleton.mpr (h.load asciiPython (str "pkg"))
  rw [← split_of_not_mem hLine] at hLines
  obtain ⟨loaded, registered, hLoad, hDeclares⟩ :=
    exists_load (rfl : packageResourceName (str "pkg/Sample") = some (str "pkg", str "Sample")) hLines
      ⟨List.nodup_nil, fun type hType => absurd hType List.not_mem_nil⟩ ctx
  refine ⟨loaded, registered, hLoad, hDeclares.constants, fun subMd5 ctx => ?_⟩
  have hFields : loaded.spec.fields = [] := by
    rw [MsgSpec.fields, hDeclares.types, hDeclares.names]
    rfl
  refine computeMd5Text_eq_some_iff.mpr ⟨[], ?_, ?_⟩
  · rw [hFields]
    exact .nil
  · rw [hDeclares.constants]
    exact congrArg strip (terminated_cons '\n' _ []).symm

/-- A blank in front of `string foo=bar` makes another constant of it. -/
theorem indented_string :
    ∃ loaded registered loaded' registered',
      loadMsgFromString asciiPython .empty (str "string foo=bar") (str "pkg/Sample") = .ok (loaded, registered) ∧
      loadMsgFromString asciiPython .empty (str " string foo=bar") (str "pkg/Sample") = .ok (loaded', registered') ∧
      loaded.spec.constants = [⟨str "string", str "foo", str "bar"⟩] ∧
      loaded'.spec.constants = [⟨str "string", str "string foo", str "bar"⟩] ∧
      (∀ subMd5 ctx, computeMd5Text subMd5 ctx loaded.spec = some (str "string foo=bar")) ∧
      ∀ subMd5 ctx, computeMd5Text subMd5 ctx loaded'.spec = some (str "string string foo=bar") := by
  have hFlush : StringLine [] (str " ") (str "foo") (str "bar") (str "string foo=bar") :=
    ⟨by decide, by decide, by decide, by decide, by decide, rfl⟩
  have hIndented : StringLine (str " ") (str " ") (str "foo") (str "bar") (str " string foo=bar") :=
    ⟨by decide, by decide, by decide, by decide, by decide, rfl⟩
  obtain ⟨loaded, registered, hLoad, hConstants, hText⟩ := load_string hFlush (by decide) .empty
  obtain ⟨loaded', registered', hLoad', hConstants', hText'⟩ := load_string hIndented (by decide) .empty
  exact ⟨loaded, registered, loaded', registered', hLoad, hLoad', hConstants, hConstants', hText, hText'⟩

end XcRos.Msg
