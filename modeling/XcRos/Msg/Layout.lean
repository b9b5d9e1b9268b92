import Mathlib.Data.Bool.AllAny
import XcRos.Msg.Gentools

/-! # Wire layout against md5

The layout of a message is a tree with an arity at each field. Equal md5 texts force equal fields
line by line, and with an injective hash so on through the embedded types; only the array suffix of
an embedded type leaves no trace in the text.
-/

namespace XcRos.Msg

open XcRos.Foundation

inductive Layout where
  | builtin (type : Str)
  | message (fields : List (Arity × Layout))

def fieldLayout (subLayout : MsgSpec → Option Layout) (ctx : MsgContext) (type : Str) : Option (Arity × Layout) :=
  match parseType type with
  | none => none
  | some (base, arity) =>
    if isBuiltin base then some (arity, .builtin base)
    else ((ctx.getRegistered base).bind subLayout).map fun layout => (arity, layout)

/-- How a message is laid out on the wire, with as much fuel as types are embedded deep. -/
def layout (ctx : MsgContext) : Nat → MsgSpec → Option Layout :=
  fuelled fun subLayout spec => (spec.types.mapM (fieldLayout subLayout ctx)).map .message

def LayoutIs (ctx : MsgContext) (spec : MsgSpec) (l : Layout) : Prop := ∃ fuel, layout ctx fuel spec = some l

def arityOf (type : Str) : Option Arity := (parseType type).map Prod.snd

/-- Wherever both messages embed a type, at whatever depth, the array suffixes mean the same. -/
inductive SuffixesAgree (ctx ctx' : MsgContext) : MsgSpec → MsgSpec → Prop
  | intro {spec spec' : MsgSpec}
      (hArity : ∀ pair ∈ spec.types.zip spec'.types, isBuiltin (bareMsgType pair.1) = false →
        arityOf pair.1 = arityOf pair.2)
      (hDeep : ∀ pair ∈ spec.types.zip spec'.types, isBuiltin (bareMsgType pair.1) = false →
        ∀ sub sub', ctx.getRegistered (bareMsgType pair.1) = some sub →
          ctx'.getRegistered (bareMsgType pair.2) = some sub' → SuffixesAgree ctx ctx' sub sub') :
      SuffixesAgree ctx ctx' spec spec'

/-- What the rest of the toolchain relies on in `hexdigest`, and that there are no collisions. -/
structure HexDigest (hash : Str → Str) : Prop where
  injective : Function.Injective hash
  nonempty : ∀ text, hash text ≠ []
  digits : ∀ text, ∀ c ∈ hash text, c ∈ str "0123456789abcdef"

/-- A word without blanks and without `=`, as the loader's checks leave names and types. -/
def PlainWord (word : Str) : Prop := word ≠ [] ∧ ∀ c ∈ word, isspace c = false ∧ c ≠ '='

instance : DecidablePred PlainWord := fun word =>
  decidable_of_iff (word ≠ [] ∧ (word.all fun c => isspace c = false ∧ c ≠ '=') = true)
    (and_congr_right fun _ => List.all_iff_forall_prop)

/-- A specification whose words and constants are as the loader makes them: constants have a
primitive type and come from one line, and their text is stripped. -/
structure MsgSpec.Tidy (spec : MsgSpec) : Prop where
  types : ∀ type ∈ spec.types, PlainWord type
  names : ∀ name ∈ spec.names, PlainWord name
  constantTypes : ∀ c ∈ spec.constants, c.type ∈ primitiveTypes
  constantLines : ∀ c ∈ spec.constants, '\n' ∉ c.name ∧ '\n' ∉ c.valText
  stripped : ∀ c ∈ spec.constants, strip c.valText = c.valText

def MsgContext.Tidy (ctx : MsgContext) : Prop :=
  ∀ package base spec, ctx.registered package base = some spec → spec.Tidy

/-! ## The layout -/

variable {ctx : MsgContext}

theorem fieldLayout_eq_some_iff {subLayout : MsgSpec → Option Layout} {type : Str} {field : Arity × Layout} :
    fieldLayout subLayout ctx type = some field ↔
      arityOf type = some field.1 ∧
        ((isBuiltin (bareMsgType type) = true ∧ field.2 = .builtin (bareMsgType type)) ∨
          (isBuiltin (bareMsgType type) = false ∧
            ∃ sub, ctx.getRegistered (bareMsgType type) = some sub ∧ subLayout sub = some field.2)) := by
  obtain ⟨arity, l⟩ := field
  rw [fieldLayout, arityOf]
  cases hParse : parseType type with
  | none => simp
  | some parsed =>
    obtain ⟨base, arity'⟩ := parsed
    obtain rfl := parseType_base hParse
    simp only [Option.map_some, Option.some.injEq]
    by_cases hBuiltin : isBuiltin (bareMsgType type) = true
    · rw [if_pos hBuiltin]
      simp only [hBuiltin, Option.some.injEq, Prod.mk.injEq, Bool.true_eq_false, false_and, or_false, true_and]
      exact and_congr_right fun _ => eq_comm
    · rw [if_neg hBuiltin]
      simp only [hBuiltin, Option.map_eq_some_iff, Option.bind_eq_some_iff, Prod.mk.injEq,
        Bool.false_eq_true, false_and, false_or, true_and]
      constructor
      · rintro ⟨_, ⟨sub, hSub, hLayout⟩, rfl, rfl⟩
        exact ⟨rfl, sub, hSub, hLayout⟩
      · rintro ⟨rfl, sub, hSub, hLayout⟩
        exact ⟨l, ⟨sub, hSub, hLayout⟩, rfl, rfl⟩

theorem layout_monotonic :
    Monotonic fun subLayout (spec : MsgSpec) =>
      (spec.types.mapM (fieldLayout subLayout ctx)).map Layout.message := by
  intro f g h spec l hLayout
  obtain ⟨fields, hFields, rfl⟩ := Option.map_eq_some_iff.mp hLayout
  refine Option.map_eq_some_iff.mpr ⟨fields, mapM_eq_some_iff.mpr ?_, rfl⟩
  refine (mapM_eq_some_iff.mp hFields).imp fun type field hField => fieldLayout_eq_some_iff.mpr ?_
  obtain ⟨hArity, hBuiltin | ⟨hMessage, sub, hSub, hSubLayout⟩⟩ := fieldLayout_eq_some_iff.mp hField
  · exact ⟨hArity, .inl hBuiltin⟩
  · exact ⟨hArity, .inr ⟨hMessage, sub, hSub, h sub _ hSubLayout⟩⟩

theorem LayoutIs.unique {spec : MsgSpec} {l l' : Layout} (h : LayoutIs ctx spec l) (h' : LayoutIs ctx spec l') :
    l = l' := by
  obtain ⟨fuel, hLayout⟩ := h
  obtain ⟨fuel', hLayout'⟩ := h'
  exact fuelled_unique layout_monotonic hLayout hLayout'

theorem Resolvable.layout {spec : MsgSpec} (h : Resolvable ctx spec) : ∃ l, LayoutIs ctx spec l := by
  have hReturns : ∀ (f : MsgSpec → Option Layout) (spec : MsgSpec), AllRegistered ctx spec →
      (∀ sub ∈ embedded ctx spec, (f sub).isSome) →
      ((spec.types.mapM (fieldLayout f ctx)).map Layout.message).isSome := by
    intro f spec hAll hSubs
    have hField : ∀ type ∈ spec.types, ∃ field, fieldLayout f ctx type = some field := by
      intro type hType
      obtain ⟨parsed, hParse⟩ := Option.isSome_iff_exists.mp (spec.parsedFields type hType)
      have hArity : arityOf type = some parsed.2 := by rw [arityOf, hParse, Option.map_some]
      cases hBuiltin : isBuiltin (bareMsgType type) with
      | true => exact ⟨(parsed.2, .builtin (bareMsgType type)),
          fieldLayout_eq_some_iff.mpr ⟨hArity, .inl ⟨hBuiltin, rfl⟩⟩⟩
      | false =>
        obtain ⟨sub, hSub⟩ := Option.isSome_iff_exists.mp (hAll type hType hBuiltin)
        obtain ⟨l, hl⟩ := Option.isSome_iff_exists.mp (hSubs sub (mem_embedded hType hBuiltin hSub))
        exact ⟨(parsed.2, l), fieldLayout_eq_some_iff.mpr ⟨hArity, .inr ⟨hBuiltin, sub, hSub, hl⟩⟩⟩
    obtain ⟨fields, hFields⟩ := exists_forall₂ hField
    rw [Option.isSome_map, mapM_eq_some_iff.mpr hFields]
    rfl
  obtain ⟨fuel, l, hl⟩ := exists_fuelled layout_monotonic hReturns h
  exact ⟨l, fuel, hl⟩

/-! ## The md5 text -/

/-- A line that begins and ends with characters that are no blanks, and is one line. -/
structure Inked (line : Str) : Prop where
  first : ∃ c, line.head? = some c ∧ isspace c = false
  last : ∃ inner c, line = inner ++ [c] ∧ isspace c = false
  single : '\n' ∉ line

theorem PlainWord.first {word : Str} (h : PlainWord word) : ∃ c, word.head? = some c ∧ isspace c = false := by
  obtain ⟨c, tail, rfl⟩ := List.exists_cons_of_ne_nil h.1
  exact ⟨c, rfl, (h.2 c List.mem_cons_self).1⟩

theorem PlainWord.last {word : Str} (h : PlainWord word) : ∃ inner c, word = inner ++ [c] ∧ isspace c = false :=
  ⟨word.dropLast, word.getLast h.1, (List.dropLast_append_getLast h.1).symm, (h.2 _ (List.getLast_mem h.1)).1⟩

theorem PlainWord.not_mem {word : Str} (h : PlainWord word) {c : Char} (hBlank : isspace c = true) : c ∉ word :=
  fun hMem => absurd ((h.2 c hMem).1.symm.trans hBlank) (by decide)

theorem fieldLine_inked {written name : Str} (hWritten : PlainWord written) (hName : PlainWord name) :
    Inked (written ++ ' ' :: name) := by
  obtain ⟨c, hFirst, hBlank⟩ := hWritten.first
  obtain ⟨inner, d, rfl, hLast⟩ := hName.last
  refine ⟨⟨c, by rw [List.head?_append, hFirst]; rfl, hBlank⟩, ⟨written ++ ' ' :: inner, d, by simp, hLast⟩, ?_⟩
  rw [List.mem_append, List.mem_cons]
  rintro (hMem | hMem | hMem)
  · exact hWritten.not_mem (by decide) hMem
  · exact absurd hMem (by decide)
  · exact hName.not_mem (by decide) hMem

theorem last_of_stripped {s inner : Str} {c : Char} (h : strip s = s) (hLast : s = inner ++ [c]) :
    isspace c = false := by
  have hEnd : ∀ hSome : strip s ≠ [], ¬ isspace ((strip s).getLast hSome) = true :=
    List.rdropWhile_last_not isspace (lstrip s)
  rw [h, hLast] at hEnd
  simpa using hEnd (by simp)

theorem constantLine_inked {spec : MsgSpec} (h : spec.Tidy) {c : Constant} (hc : c ∈ spec.constants) :
    Inked (constantLine c) := by
  have hPrimitive : ∀ type ∈ primitiveTypes, (∃ d, type.head? = some d ∧ isspace d = false) ∧ '\n' ∉ type := by
    simp [primitiveTypes, str, isspace]
  obtain ⟨⟨first, hFirst, hFirstBlank⟩, hType⟩ := hPrimitive c.type (h.constantTypes c hc)
  obtain ⟨hName, hVal⟩ := h.constantLines c hc
  refine ⟨⟨first, by rw [constantLine, List.head?_append, hFirst]; rfl, hFirstBlank⟩, ?_, ?_⟩
  · rcases List.eq_nil_or_concat c.valText with hEmpty | ⟨inner, last, hConcat⟩
    · exact ⟨c.type ++ ' ' :: c.name, '=', by simp [constantLine, hEmpty], by decide⟩
    · rw [List.concat_eq_append] at hConcat
      exact ⟨c.type ++ ' ' :: (c.name ++ '=' :: inner), last, by simp [constantLine, hConcat],
        last_of_stripped (h.stripped c hc) hConcat⟩
  · rw [constantLine, List.mem_append, List.mem_cons, List.mem_append, List.mem_cons]
    rintro (hMem | hMem | hMem | hMem | hMem)
    · exact hType hMem
    · exact absurd hMem (by decide)
    · exact hName hMem
    · exact absurd hMem (by decide)
    · exact hVal hMem

theorem strip_terminated {lines : List Str} (h : ∀ line ∈ lines, Inked line) (hSome : lines ≠ []) :
    strip (terminated '\n' lines) ++ ['\n'] = terminated '\n' lines := by
  obtain ⟨front, line, rfl⟩ : ∃ front line, lines = front ++ [line] :=
    ⟨lines.dropLast, lines.getLast hSome, (List.dropLast_append_getLast hSome).symm⟩
  have hBody : terminated '\n' (front ++ [line]) = (terminated '\n' front ++ line) ++ ['\n'] := by
    rw [terminated_append]
    simp
  obtain ⟨inner, last, hLine, hLast⟩ := (h line (by simp)).last
  have hFirst : ∃ c, (terminated '\n' front ++ line).head? = some c ∧ isspace c = false := by
    cases front with
    | nil => exact (h line (by simp)).first
    | cons top front =>
      obtain ⟨c, hc, hBlank⟩ := (h top (by simp)).first
      refine ⟨c, ?_, hBlank⟩
      rw [terminated_cons, List.append_assoc, List.head?_append, hc]
      rfl
  obtain ⟨c, hc, hBlank⟩ := hFirst
  have hEnd : terminated '\n' front ++ line = (terminated '\n' front ++ inner) ++ [last] := by
    rw [hLine, List.append_assoc]
  rw [hBody, strip_line hc hEnd hBlank hLast]

theorem lines_of_strip {lines lines' : List Str} (h : ∀ line ∈ lines, Inked line)
    (h' : ∀ line ∈ lines', Inked line)
    (hEq : strip (terminated '\n' lines) = strip (terminated '\n' lines')) : lines = lines' := by
  have hNonempty : ∀ {lines : List Str}, (∀ line ∈ lines, Inked line) → lines ≠ [] →
      strip (terminated '\n' lines) ≠ [] := by
    intro lines hInked hSome hNil
    have hText := strip_terminated hInked hSome
    obtain ⟨line, rest, rfl⟩ := List.exists_cons_of_ne_nil hSome
    obtain ⟨c, hc, -⟩ := (hInked line List.mem_cons_self).first
    rw [hNil, terminated_cons, List.nil_append] at hText
    cases line with
    | nil => cases hc
    | cons d line => simp at hText
  by_cases hNone : lines = []
  · by_cases hNone' : lines' = []
    · rw [hNone, hNone']
    · subst hNone
      exact absurd hEq.symm (hNonempty h' hNone')
  · by_cases hNone' : lines' = []
    · subst hNone'
      exact absurd hEq (hNonempty h hNone)
    · refine terminated_injective (fun line hMem => (h line hMem).single) (fun line hMem => (h' line hMem).single) ?_
      rw [← strip_terminated h hNone, ← strip_terminated h' hNone', hEq]

/-! ## Equal md5, equal layout -/

theorem builtin_not_hex {type : Str} (h : isBuiltin (bareMsgType type) = true) :
    ∃ c ∈ type, c ∉ str "0123456789abcdef" := by
  have hBuiltin : bareMsgType type ∈ builtinTypes := by simpa [isBuiltin] using h
  have hAll : ∀ builtin ∈ builtinTypes, ∃ c ∈ builtin, c ∉ str "0123456789abcdef" := fun builtin h =>
    List.any_iff_exists_prop.mp (List.all_eq_true.mp
      (show builtinTypes.all (fun builtin => builtin.any fun c => c ∉ str "0123456789abcdef") = true by decide)
      builtin h)
  obtain ⟨c, hc, hHex⟩ := hAll _ hBuiltin
  exact ⟨c, mem_of_mem_bareMsgType hc, hHex⟩

theorem registered_tidy {sub : MsgSpec} {type : Str} (hCtx : ctx.Tidy) (h : ctx.getRegistered type = some sub) :
    sub.Tidy := by
  obtain ⟨key, _, hSub⟩ := Option.bind_eq_some_iff.mp h
  exact hCtx _ _ _ hSub

variable {hash : Str → Str}

theorem computeMd5_hex {fuel : Nat} {spec : MsgSpec} {md5 : Str}
    (h : computeMd5 hash ctx fuel spec = some md5) : ∃ text, md5 = hash text := by
  cases fuel with
  | zero => cases h
  | succ fuel =>
    obtain ⟨text, _, rfl⟩ := Option.map_eq_some_iff.mp h
    exact ⟨text, rfl⟩

theorem HexDigest.plain (hHash : HexDigest hash) (text : Str) : PlainWord (hash text) := by
  refine ⟨hHash.nonempty text, fun c hc => ?_⟩
  have hAll : ∀ c ∈ str "0123456789abcdef", isspace c = false ∧ c ≠ '=' :=
    List.all_iff_forall_prop.mp (by decide)
  exact hAll c (hHash.digits text c hc)

theorem writtenType_plain (hHash : HexDigest hash) {fuel : Nat} {type written : Str} (hType : PlainWord type)
    (h : writtenType (computeMd5 hash ctx fuel) ctx type = some written) : PlainWord written := by
  rcases writtenType_eq_some_iff.mp h with ⟨_, rfl⟩ | ⟨_, sub, _, hMd5⟩
  · exact hType
  · obtain ⟨text, rfl⟩ := computeMd5_hex hMd5
    exact hHash.plain text

theorem fieldLine_plain (hHash : HexDigest hash) {fuel : Nat} {spec : MsgSpec} (h : spec.Tidy)
    {field : Str × Str} (hField : field ∈ spec.fields) {line : Str}
    (hLine : fieldLine (computeMd5 hash ctx fuel) ctx field = some line) :
    ∃ written, writtenType (computeMd5 hash ctx fuel) ctx field.1 = some written ∧ PlainWord written ∧
      PlainWord field.2 ∧ line = written ++ ' ' :: field.2 := by
  obtain ⟨hType, hName⟩ := List.of_mem_zip (show (field.1, field.2) ∈ spec.types.zip spec.names from hField)
  obtain ⟨written, hWritten, rfl⟩ := Option.map_eq_some_iff.mp hLine
  exact ⟨written, hWritten, writtenType_plain hHash (h.types _ hType) hWritten, h.names _ hName, rfl⟩

theorem lines_of_fields (hHash : HexDigest hash) {fuel : Nat} {spec : MsgSpec} (h : spec.Tidy) {lines : List Str}
    (hLines : List.Forall₂ (fun field line => fieldLine (computeMd5 hash ctx fuel) ctx field = some line)
      spec.fields lines) :
    (∀ line ∈ spec.constants.map constantLine ++ lines, Inked line) ∧
      (spec.constants.map constantLine ++ lines).filter (fun line => !line.contains '=') = lines := by
  have hField : ∀ line ∈ lines, Inked line ∧ '=' ∉ line := by
    intro line hMem
    obtain ⟨field, hFieldMem, hLine⟩ := exists_left_of_forall₂ hLines hMem
    obtain ⟨written, -, hWritten, hName, rfl⟩ := fieldLine_plain hHash h hFieldMem hLine
    refine ⟨fieldLine_inked hWritten hName, ?_⟩
    rw [List.mem_append, List.mem_cons]
    rintro (hEq | hEq | hEq)
    · exact (hWritten.2 _ hEq).2 rfl
    · exact absurd hEq (by decide)
    · exact (hName.2 _ hEq).2 rfl
  constructor
  · intro line hMem
    rcases List.mem_append.mp hMem with hConstant | hRest
    · obtain ⟨c, hc, rfl⟩ := List.mem_map.mp hConstant
      exact constantLine_inked h hc
    · exact (hField line hRest).1
  · have hConstants : (spec.constants.map constantLine).filter (fun line => !line.contains '=') = [] := by
      rw [List.filter_eq_nil_iff]
      intro line hMem
      obtain ⟨c, _, rfl⟩ := List.mem_map.mp hMem
      simp [constantLine]
    have hRest : lines.filter (fun line => !line.contains '=') = lines := by
      rw [List.filter_eq_self]
      intro line hMem
      simpa using (hField line hMem).2
    rw [List.filter_append, hConstants, hRest, List.nil_append]

theorem types_of_md5 (hHash : HexDigest hash) {ctx' : MsgContext} {fuel fuel' : Nat} {spec spec' : MsgSpec}
    (h : spec.Tidy) (h' : spec'.Tidy) {md5 : Str} (hMd5 : computeMd5 hash ctx (fuel + 1) spec = some md5)
    (hMd5' : computeMd5 hash ctx' (fuel' + 1) spec' = some md5) :
    List.Forall₂ (fun type type' => ∃ written, writtenType (computeMd5 hash ctx fuel) ctx type = some written ∧
      writtenType (computeMd5 hash ctx' fuel') ctx' type' = some written) spec.types spec'.types := by
  obtain ⟨text, hText, rfl⟩ := Option.map_eq_some_iff.mp hMd5
  obtain ⟨text', hText', hHashes⟩ := Option.map_eq_some_iff.mp hMd5'
  obtain rfl := hHash.injective hHashes
  obtain ⟨lines, hLines, rfl⟩ := computeMd5Text_eq_some_iff.mp hText
  obtain ⟨lines', hLines', hStrip⟩ := computeMd5Text_eq_some_iff.mp hText'
  obtain ⟨hInked, hFilter⟩ := lines_of_fields hHash h hLines
  obtain ⟨hInked', hFilter'⟩ := lines_of_fields hHash h' hLines'
  have hAll := lines_of_strip hInked hInked' hStrip
  obtain rfl : lines = lines' := by rw [← hFilter, ← hFilter', hAll]
  have hFields := forall₂_meet
    ((List.forall₂_and_left _ _).mpr ⟨fun _ hField => hField, hLines⟩ : List.Forall₂ (fun field line =>
      field ∈ spec.fields ∧ fieldLine (computeMd5 hash ctx fuel) ctx field = some line) spec.fields lines)
    ((List.forall₂_and_left _ _).mpr ⟨fun _ hField => hField, hLines'⟩ : List.Forall₂ (fun field line =>
      field ∈ spec'.fields ∧ fieldLine (computeMd5 hash ctx' fuel') ctx' field = some line) spec'.fields lines)
  have hTypes : spec.fields.map Prod.fst = spec.types := List.map_fst_zip (Nat.le_of_eq spec.sameLength)
  have hTypes' : spec'.fields.map Prod.fst = spec'.types := List.map_fst_zip (Nat.le_of_eq spec'.sameLength)
  rw [← hTypes, ← hTypes', List.forall₂_map_left_iff, List.forall₂_map_right_iff]
  refine hFields.imp fun field field' hBoth => ?_
  obtain ⟨line, ⟨hMem, hLine⟩, hMem', hLine'⟩ := hBoth
  obtain ⟨written, hWritten, hPlain, -, hText⟩ := fieldLine_plain hHash h hMem hLine
  obtain ⟨written', hWritten', hPlain', -, hText'⟩ := fieldLine_plain hHash h' hMem' hLine'
  obtain ⟨hEq, -⟩ := eq_of_append_cons (hPlain.not_mem (by decide)) (hPlain'.not_mem (by decide))
    (hText.symm.trans hText')
  exact ⟨written, hWritten, hEq ▸ hWritten'⟩

/-- Two types agree if they are builtin, or have suffixes that mean the same and agree deeper down. -/
def TypesAgree (ctx ctx' : MsgContext) (type type' : Str) : Prop :=
  isBuiltin (bareMsgType type) = false → arityOf type = arityOf type' ∧
    ∀ sub sub', ctx.getRegistered (bareMsgType type) = some sub →
      ctx'.getRegistered (bareMsgType type') = some sub' → SuffixesAgree ctx ctx' sub sub'

theorem suffixesAgree_iff {ctx' : MsgContext} {spec spec' : MsgSpec} :
    SuffixesAgree ctx ctx' spec spec' ↔
      ∀ pair ∈ spec.types.zip spec'.types, TypesAgree ctx ctx' pair.1 pair.2 := by
  constructor
  · rintro ⟨hArity, hDeep⟩ pair hPair hMessage
    exact ⟨hArity pair hPair hMessage, hDeep pair hPair hMessage⟩
  · intro h
    exact ⟨fun pair hPair hMessage => (h pair hPair hMessage).1, fun pair hPair hMessage =>
      (h pair hPair hMessage).2⟩

theorem writtenType_cases (hHash : HexDigest hash) {ctx' : MsgContext} {fuel fuel' : Nat}
    {type type' written : Str} (h : writtenType (computeMd5 hash ctx fuel) ctx type = some written)
    (h' : writtenType (computeMd5 hash ctx' fuel') ctx' type' = some written) :
    (isBuiltin (bareMsgType type) = true ∧ type = type') ∨
      (isBuiltin (bareMsgType type) = false ∧ isBuiltin (bareMsgType type') = false ∧
        ∃ sub sub', ctx.getRegistered (bareMsgType type) = some sub ∧
          ctx'.getRegistered (bareMsgType type') = some sub' ∧
          computeMd5 hash ctx fuel sub = some written ∧ computeMd5 hash ctx' fuel' sub' = some written) := by
  have hNotHex : ∀ {type text : Str}, isBuiltin (bareMsgType type) = true → type ≠ hash text := by
    rintro type text hBuiltin rfl
    obtain ⟨c, hc, hHex⟩ := builtin_not_hex hBuiltin
    exact hHex (hHash.digits text c hc)
  rcases writtenType_eq_some_iff.mp h with ⟨hBuiltin, rfl⟩ | ⟨hMessage, sub, hSub, hMd5⟩
  · rcases writtenType_eq_some_iff.mp h' with ⟨_, rfl⟩ | ⟨_, sub', _, hMd5'⟩
    · exact .inl ⟨hBuiltin, rfl⟩
    · obtain ⟨text, hText⟩ := computeMd5_hex hMd5'
      exact absurd hText (hNotHex hBuiltin)
  · rcases writtenType_eq_some_iff.mp h' with ⟨hBuiltin', rfl⟩ | ⟨hMessage', sub', hSub', hMd5'⟩
    · obtain ⟨text, hText⟩ := computeMd5_hex hMd5
      exact absurd hText (hNotHex hBuiltin')
    · exact .inr ⟨hMessage, hMessage', sub, sub', hSub, hSub', hMd5, hMd5'⟩

theorem layout_eq_iff (hHash : HexDigest hash) {ctx' : MsgContext} (hCtx : ctx.Tidy) (hCtx' : ctx'.Tidy)
    {fuel fuel' : Nat} {spec spec' : MsgSpec} (h : spec.Tidy) (h' : spec'.Tidy) {md5 : Str}
    (hMd5 : computeMd5 hash ctx fuel spec = some md5) (hMd5' : computeMd5 hash ctx' fuel' spec' = some md5)
    {depth depth' : Nat} {l l' : Layout} (hLayout : layout ctx depth spec = some l)
    (hLayout' : layout ctx' depth' spec' = some l') : l = l' ↔ SuffixesAgree ctx ctx' spec spec' := by
  induction fuel generalizing fuel' spec spec' md5 depth depth' l l' with
  | zero => cases hMd5
  | succ fuel ih =>
    obtain _ | fuel' := fuel'
    · cases hMd5'
    obtain _ | depth := depth
    · cases hLayout
    obtain _ | depth' := depth'
    · cases hLayout'
    obtain ⟨fields, hFields, rfl⟩ := Option.map_eq_some_iff.mp hLayout
    obtain ⟨fields', hFields', rfl⟩ := Option.map_eq_some_iff.mp hLayout'
    rw [Layout.message.injEq, suffixesAgree_iff]
    refine eq_iff_forall_zip (fun type type' field field' hField hField' hWritten => ?_)
      (mapM_eq_some_iff.mp hFields) (mapM_eq_some_iff.mp hFields') (types_of_md5 hHash h h' hMd5 hMd5')
    obtain ⟨written, hWritten, hWritten'⟩ := hWritten
    obtain ⟨hArity, hBranch⟩ := fieldLayout_eq_some_iff.mp hField
    obtain ⟨hArity', hBranch'⟩ := fieldLayout_eq_some_iff.mp hField'
    rcases writtenType_cases hHash hWritten hWritten' with
      ⟨hBuiltin, rfl⟩ | ⟨hMessage, hMessage', sub, sub', hSub, hSub', hSubMd5, hSubMd5'⟩
    · have hEq : field = field' := by
        refine Prod.ext (Option.some.inj (hArity.symm.trans hArity')) ?_
        rcases hBranch with ⟨_, hBase⟩ | ⟨hNot, _⟩
        · rcases hBranch' with ⟨_, hBase'⟩ | ⟨hNot, _⟩
          · rw [hBase, hBase']
          · exact absurd (hBuiltin.symm.trans hNot) (by decide)
        · exact absurd (hBuiltin.symm.trans hNot) (by decide)
      exact ⟨fun _ hNot => absurd (hBuiltin.symm.trans hNot) (by decide), fun _ => hEq⟩
    · obtain ⟨hNot, _⟩ | ⟨_, _, hSame, hSubLayout⟩ := hBranch
      · exact absurd (hMessage.symm.trans hNot) (by decide)
      obtain ⟨hNot, _⟩ | ⟨_, _, hSame', hSubLayout'⟩ := hBranch'
      · exact absurd (hMessage'.symm.trans hNot) (by decide)
      obtain rfl := Option.some.inj (hSub.symm.trans hSame)
      obtain rfl := Option.some.inj (hSub'.symm.trans hSame')
      have hDeep := ih (registered_tidy hCtx hSub) (registered_tidy hCtx' hSub') hSubMd5 hSubMd5' hSubLayout hSubLayout'
      rw [Prod.ext_iff, hDeep]
      constructor
      · rintro ⟨hFirst, hAgree⟩ -
        refine ⟨by rw [hArity, hArity', hFirst], fun other other' hOther hOther' => ?_⟩
        cases hSub.symm.trans hOther
        cases hSub'.symm.trans hOther'
        exact hAgree
      · intro hAgree
        obtain ⟨hArities, hSubs⟩ := hAgree hMessage
        rw [hArity, hArity'] at hArities
        exact ⟨Option.some.inj hArities, hSubs sub sub' hSub hSub'⟩

/-- Two resolvable messages have an md5 and a layout each; if the md5 are equal then the layouts are
equal exactly when the array suffixes of their embedded types agree at every depth. -/
theorem equal_md5_equal_layout_iff (hHash : HexDigest hash) {ctx ctx' : MsgContext} (hCtx : ctx.Tidy)
    (hCtx' : ctx'.Tidy) {spec spec' : MsgSpec} (h : spec.Tidy) (h' : spec'.Tidy)
    (hResolvable : Resolvable ctx spec) (hResolvable' : Resolvable ctx' spec') :
    ∃ md5 md5' l l', Md5Is hash ctx spec md5 ∧ Md5Is hash ctx' spec' md5' ∧ LayoutIs ctx spec l ∧
      LayoutIs ctx' spec' l' ∧ (md5 = md5' → (l = l' ↔ SuffixesAgree ctx ctx' spec spec')) := by
  obtain ⟨md5, hMd5⟩ : ∃ md5, Md5Is hash ctx spec md5 := hResolvable.md5
  obtain ⟨md5', hMd5'⟩ : ∃ md5, Md5Is hash ctx' spec' md5 := hResolvable'.md5
  obtain ⟨l, hLayout⟩ := hResolvable.layout
  obtain ⟨l', hLayout'⟩ := hResolvable'.layout
  refine ⟨md5, md5', l, l', hMd5, hMd5', hLayout, hLayout', ?_⟩
  rintro rfl
  obtain ⟨fuel, hFuel⟩ := hMd5
  obtain ⟨fuel', hFuel'⟩ := hMd5'
  obtain ⟨depth, hDepth⟩ := hLayout
  obtain ⟨depth', hDepth'⟩ := hLayout'
  exact layout_eq_iff hHash hCtx hCtx' h h' hFuel hFuel' hDepth hDepth'

/-! ## A scalar and an array of the same message -/

def ownDigest (text : Str) : Str := 'c' :: terminated 'b' (text.map fun c => List.replicate c.toNat 'a')

theorem mem_ownDigest {text : Str} {c : Char} (h : c ∈ ownDigest text) : c = 'a' ∨ c = 'b' ∨ c = 'c' := by
  rcases List.mem_cons.mp h with rfl | hRest
  · simp
  · obtain ⟨line, hLine, hMem⟩ := List.mem_flatMap.mp hRest
    obtain ⟨d, _, rfl⟩ := List.mem_map.mp hLine
    rcases List.mem_append.mp hMem with hReplicate | hSep
    · exact .inl (List.eq_of_mem_replicate hReplicate)
    · exact .inr (.inl (List.mem_singleton.mp hSep))

theorem ownDigest_injective : Function.Injective ownDigest := by
  intro s t hSame
  have hLine : ∀ text : Str, ∀ line ∈ text.map fun c => List.replicate c.toNat 'a', 'b' ∉ line := by
    intro text line hLine hMem
    obtain ⟨d, _, rfl⟩ := List.mem_map.mp hLine
    exact absurd (List.eq_of_mem_replicate hMem) (by decide)
  refine List.map_injective_iff.mpr (fun c d hReplicate => ?_)
    (terminated_injective (hLine s) (hLine t) (List.cons.inj hSame).2)
  have hLength := congrArg List.length hReplicate
  rw [List.length_replicate, List.length_replicate] at hLength
  exact Char.toNat_inj.mp hLength

theorem injective_override {f : Str → Str} (hf : Function.Injective f) {text digest : Str}
    (hNew : ∀ s, f s ≠ digest) : Function.Injective fun s => if s = text then digest else f s := by
  intro s t hEq
  simp only at hEq
  by_cases hs : s = text
  · by_cases ht : t = text
    · rw [hs, ht]
    · rw [if_pos hs, if_neg ht] at hEq
      exact absurd hEq.symm (hNew t)
  · by_cases ht : t = text
    · rw [if_neg hs, if_pos ht] at hEq
      exact absurd hEq (hNew s)
    · rw [if_neg hs, if_neg ht] at hEq
      exact hf hEq

def subDigest : Str := str "19aac5e823802d733295ea3ec20e6350"

def specDigest : Str := str "11c6f45034dd33a61bbb3b0d7be1b36f"

def sampleHash (text : Str) : Str :=
  if text = str "int32 x" then subDigest
  else if text = subDigest ++ str " s" then specDigest else ownDigest text

theorem sampleHash_hexDigest : HexDigest sampleHash := by
  have hOwn : ∀ text, ∀ digest ∈ [subDigest, specDigest], ownDigest text ≠ digest := by
    intro text digest hDigest hEq
    have hOne : ∀ digest ∈ [subDigest, specDigest], '1' ∈ digest := by decide
    have hMem := hOne digest hDigest
    rw [← hEq] at hMem
    have := mem_ownDigest hMem
    revert this
    decide
  refine ⟨?_, fun text => ?_, fun text c hc => ?_⟩
  · refine injective_override (injective_override ownDigest_injective fun s => hOwn s _ (by simp)) fun s => ?_
    split
    · decide
    · exact hOwn s _ (by simp)
  · rw [sampleHash]
    split
    · decide
    · split
      · decide
      · exact List.cons_ne_nil _ _
  · have hHex : ∀ digest ∈ [subDigest, specDigest], ∀ c ∈ digest, c ∈ str "0123456789abcdef" := by
      simp only [List.forall_mem_cons, List.not_mem_nil, false_implies, implies_true, and_true]
      exact ⟨List.all_iff_forall_prop.mp (by decide), List.all_iff_forall_prop.mp (by decide)⟩
    rw [sampleHash] at hc
    split at hc
    · exact hHex _ (by simp) c hc
    · split at hc
      · exact hHex _ (by simp) c hc
      · rcases mem_ownDigest hc with rfl | rfl | rfl <;> decide

def sampleSub : MsgSpec where
  types := [str "int32"]
  names := [str "x"]
  constants := []
  text := str "int32 x"
  fullName := str "pkg/Sub"
  shortName := str "Sub"
  package := str "pkg"
  sameLength := rfl
  distinctNames := by decide
  parsedFields := by decide

/-- A message with the one field `s`. -/
def sampleSpec (name type : String) (hParse : (parseType (str type)).isSome) : MsgSpec where
  types := [str type]
  names := [str "s"]
  constants := []
  text := str type ++ str " s"
  fullName := str "pkg/" ++ str name
  shortName := str name
  package := str "pkg"
  sameLength := rfl
  distinctNames := by decide
  parsedFields := by simpa using hParse

def sampleContext : MsgContext where
  registered package base := if package = str "pkg" ∧ base = str "Sub" then some sampleSub else none

def sampleScalar : MsgSpec := sampleSpec "One" "pkg/Sub" (by decide)

def sampleArray : MsgSpec := sampleSpec "Three" "pkg/Sub[3]" (by decide)

theorem sampleContext_tidy : sampleContext.Tidy := by
  intro package base spec h
  simp only [sampleContext] at h
  split at h
  · cases h
    exact ⟨by decide, by decide, by decide, by decide, by decide⟩
  · cases h

theorem sample_tidy : sampleScalar.Tidy ∧ sampleArray.Tidy :=
  ⟨⟨by decide, by decide, by decide, by decide, by decide⟩,
    ⟨by decide, by decide, by decide, by decide, by decide⟩⟩

theorem sample_resolvable : Resolvable sampleContext sampleScalar ∧ Resolvable sampleContext sampleArray := by
  have hSub : Resolvable sampleContext sampleSub :=
    .intro (by unfold AllRegistered; decide) fun c hc => by cases hc
  exact ⟨.intro (by unfold AllRegistered; decide) fun c hc => by
      cases List.mem_singleton.mp (show c ∈ [sampleSub] from hc)
      exact hSub,
    .intro (by unfold AllRegistered; decide) fun c hc => by
      cases List.mem_singleton.mp (show c ∈ [sampleSub] from hc)
      exact hSub⟩

theorem sample_equal_md5_iff :
    ∃ md5 md5' l l', Md5Is sampleHash sampleContext sampleScalar md5 ∧
      Md5Is sampleHash sampleContext sampleArray md5' ∧ LayoutIs sampleContext sampleScalar l ∧
      LayoutIs sampleContext sampleArray l' ∧
      (md5 = md5' → (l = l' ↔ SuffixesAgree sampleContext sampleContext sampleScalar sampleArray)) :=
  equal_md5_equal_layout_iff sampleHash_hexDigest sampleContext_tidy sampleContext_tidy sample_tidy.1 sample_tidy.2
    sample_resolvable.1 sample_resolvable.2

/-- `pkg/Sub s` and `pkg/Sub[3] s` have the same md5 and different layouts. -/
theorem sample_equal_md5_unequal_layout :
    HexDigest sampleHash ∧ ∃ md5 l l', Md5Is sampleHash sampleContext sampleScalar md5 ∧
      Md5Is sampleHash sampleContext sampleArray md5 ∧ LayoutIs sampleContext sampleScalar l ∧
      LayoutIs sampleContext sampleArray l' ∧ l ≠ l' := by
  refine ⟨sampleHash_hexDigest, specDigest, .message [(.scalar, .message [(.scalar, .builtin (str "int32"))])],
    .message [(.fixed 3, .message [(.scalar, .builtin (str "int32"))])], ⟨2, rfl⟩, ⟨2, rfl⟩, ⟨2, rfl⟩, ⟨2, rfl⟩, ?_⟩
  simp

end XcRos.Msg
