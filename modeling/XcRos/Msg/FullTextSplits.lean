import XcRos.Msg.FullText

/-! # Taking a full text apart

What is written for a message comes apart into its text and the texts of all its dependencies,
except that a dependency with `roslib/Header` in its name comes back under another name.
-/

namespace XcRos.Msg

open XcRos.Foundation Relation

/-- `\n` and the ruler as a line. -/
def rulerLine : Str := '\n' :: (ruler ++ ['\n'])

def readName (d : Str) : Str := replaceAll roslibHeader headerFullName 0 d

/-! ## One part -/

theorem readName_unchanged {d : Str} (h : ¬ roslibHeader <:+: d) : readName d = d := replaceAll_of_not_infix h

theorem replaceAll_depMsg (d : Str) {text : Str} (h : ¬ roslibHeader <:+: text) :
    replaceAll roslibHeader headerFullName 0 (depMsg d text) = depMsg (readName d) text := by
  have hOld : roslibHeader ≠ [] := by decide
  have hFront : ∀ c ∈ str "MSG: ", roslibHeader.head? ≠ some c := by decide
  rw [depMsg, List.append_assoc, replaceAll_append hOld hFront, replaceAll_append_cons hOld (by decide),
    replaceAll_of_not_infix h, depMsg, List.append_assoc]
  rfl

theorem undelimited_depMsg {d text : Str} (hName : '\n' ∉ d) (hText : ruler ∉ text.splitOn '\n') :
    Undelimited rulerLine (depMsg d text) := by
  have hFront : '\n' ∉ str "MSG: " ++ d := by
    intro hMem
    obtain hMem | hMem := List.mem_append.mp hMem
    · exact absurd hMem (by decide)
    · exact hName hMem
  refine undelimited_of_line (by decide) ?_
  rw [depMsg, List.splitOn_append_cons_self_of_not_mem hFront, List.mem_cons]
  rintro (hEq | hMem)
  · have hHead : ('M' :: (str "SG: " ++ d)).head? = some '=' := by
      rw [show 'M' :: (str "SG: " ++ d) = str "MSG: " ++ d from rfl, ← hEq]
      decide
    cases hHead
  · exact hText hMem

theorem word_readName {d : Str} (h : Word d) : Word (readName d) := by
  have hSolid : ∀ c ∈ headerFullName, isspace c = false := by decide
  constructor
  · obtain ⟨c, rest, rfl⟩ := List.exists_cons_of_ne_nil h.nonempty
    rw [readName, replaceAll]
    split
    · exact List.append_ne_nil_of_left_ne_nil (by decide) _
    · exact List.cons_ne_nil _ _
  · intro c hc
    obtain hOwn | hNew := mem_replaceAll hc
    · exact h.noBlank c hOwn
    · exact hSolid c hNew

/-! ## Names with the old header -/

theorem append_roslibHeader (front back : Str) :
    front ++ roslibHeader ++ back = front ++ str "roslib" ++ '/' :: (str "Header" ++ back) := by
  rw [show roslibHeader = str "roslib" ++ '/' :: str "Header" from rfl]
  simp only [List.append_assoc, List.cons_append]

theorem append_headerFullName (front back : Str) :
    front ++ headerFullName ++ back = front ++ str "std_msgs" ++ '/' :: (str "Header" ++ back) := by
  rw [show headerFullName = str "std_msgs" ++ '/' :: str "Header" from rfl]
  simp only [List.append_assoc, List.cons_append]

theorem roslibHeader_infix {package base : Str} (hPackage : '/' ∉ package) (hBase : '/' ∉ base)
    (h : roslibHeader <:+: package ++ '/' :: base) :
    ∃ front back, package = front ++ str "roslib" ∧ base = str "Header" ++ back := by
  obtain ⟨front, back, hEq⟩ := h
  have hCount := congrArg (List.count '/') hEq
  simp only [List.count_append, List.count_cons_self, List.count_eq_zero_of_not_mem hPackage,
    List.count_eq_zero_of_not_mem hBase, show roslibHeader.count '/' = 1 by decide] at hCount
  have hFront : '/' ∉ front ++ str "roslib" := by
    intro hMem
    obtain hMem | hMem := List.mem_append.mp hMem
    · have := List.count_pos_iff.mpr hMem
      omega
    · exact absurd hMem (by decide)
  obtain ⟨hPackage', hBase'⟩ := eq_of_append_cons hFront hPackage ((append_roslibHeader front back).symm.trans hEq)
  exact ⟨front, back, hPackage'.symm, hBase'.symm⟩

theorem undelimited_roslibHeader {front : Str} (h : '/' ∉ front) : Undelimited roslibHeader front := by
  rintro before x back rfl hSome ⟨rest, hRest⟩
  have hx : '/' ∉ x ++ str "roslib" := by
    intro hMem
    obtain hMem | hMem := List.mem_append.mp hMem
    · exact h (List.mem_append_right _ hMem)
    · exact absurd hMem (by decide)
  rw [append_roslibHeader] at hRest
  obtain ⟨hSame, -⟩ := eq_of_append_cons (by decide) hx ((append_roslibHeader [] rest).symm.trans hRest)
  have hLength := congrArg List.length hSame
  have hPositive := List.length_pos_iff.mpr hSome
  simp only [List.nil_append, List.length_append] at hLength
  omega

theorem readName_ne {d e : Str} (hd : roslibHeader <:+: d) (he : e.count '/' = 1) : readName e ≠ d := by
  rintro rfl
  obtain ⟨package, base, rfl, hPackage⟩ := List.eq_append_cons_of_mem (List.count_pos_iff.mp (he ▸ Nat.one_pos))
  have hBase : '/' ∉ base := by
    intro hMem
    have hPositive := List.count_pos_iff.mpr hMem
    rw [List.count_append, List.count_cons_self] at he
    omega
  by_cases hHeader : roslibHeader <:+: package ++ '/' :: base
  · obtain ⟨front, back, rfl, rfl⟩ := roslibHeader_infix hPackage hBase hHeader
    have hFront : '/' ∉ front := fun hMem => hPackage (List.mem_append_left _ hMem)
    have hBack : '/' ∉ back := fun hMem => hBase (List.mem_append_right _ hMem)
    have hRest : ¬ roslibHeader <:+: back := fun hInfix => hBack (hInfix.subset (by decide))
    have hRead : readName (front ++ str "roslib" ++ '/' :: (str "Header" ++ back)) =
        front ++ str "std_msgs" ++ '/' :: (str "Header" ++ back) := by
      have hOnce := @replaceAll_once _ _ roslibHeader headerFullName (by decide) front
        (undelimited_roslibHeader hFront) back
      rw [ replaceAll_of_not_infix hRest, append_headerFullName, append_roslibHeader] at hOnce
      exact hOnce
    rw [hRead] at hd
    have hNew : '/' ∉ front ++ str "std_msgs" := by
      intro hMem
      obtain hMem | hMem := List.mem_append.mp hMem
      · exact hFront hMem
      · exact absurd hMem (by decide)
    obtain ⟨front', -, hName, -⟩ := roslibHeader_infix hNew hBase hd
    have hLast := congrArg List.getLast? hName
    rw [List.getLast?_append_of_ne_nil _ (by decide), List.getLast?_append_of_ne_nil _ (by decide)] at hLast
    exact absurd hLast (by decide)
  · rw [readName_unchanged hHeader] at hd
    exact hHeader hd

/-! ## The whole text -/

theorem dynamicTexts_intercalate {text : Str} {ds : List Str} {texts : Str → Str} (hWords : ∀ d ∈ ds, Word d)
    (hText : ruler ∉ text.splitOn '\n') (hTexts : ∀ d ∈ ds, ruler ∉ (texts d).splitOn '\n')
    (hOld : ¬ roslibHeader <:+: text) (hOlds : ∀ d ∈ ds, ¬ roslibHeader <:+: texts d) :
    dynamicTexts (rulerLine.intercalate (text :: ds.map fun d => depMsg d (texts d))) =
      .ok (text, ds.map fun d => (readName d, texts d)) := by
  have hReplaced : (text :: ds.map fun d => depMsg d (texts d)).map (replaceAll roslibHeader headerFullName 0) =
      text :: ds.map fun d => depMsg (readName d) (texts d) := by
    rw [List.map_cons, replaceAll_of_not_infix hOld, List.map_map]
    refine congrArg (text :: ·) (List.map_congr_left fun d hd => ?_)
    exact replaceAll_depMsg d (hOlds d hd)
  have hParts : ∀ part ∈ text :: ds.map fun d => depMsg (readName d) (texts d), Undelimited rulerLine part := by
    intro part hPart
    obtain rfl | hPart := List.mem_cons.mp hPart
    · exact undelimited_of_line (by decide) hText
    · obtain ⟨d, hd, rfl⟩ := List.mem_map.mp hPart
      refine undelimited_depMsg (fun hMem => ?_) (hTexts d hd)
      exact absurd ((word_readName (hWords d hd)).noBlank '\n' hMem) (by decide)
  have hSplits : dynamicSplits (rulerLine.intercalate (text :: ds.map fun d => depMsg d (texts d))) =
      text :: ds.map fun d => depMsg (readName d) (texts d) := by
    rw [dynamicSplits, rulerLine, replaceAll_intercalate (by decide) (by decide) (by decide +kernel), hReplaced]
    exact splitAround_intercalate (List.cons_ne_nil _ _) hParts
  rw [dynamicTexts, hSplits, List.tail_cons, List.headD_cons,
    dependentTypes_map readName texts fun d hd => word_readName (hWords d hd)]

variable {F : Type} {py : Python F}

theorem Consistent.recorded_of_transGen {ctx : DependContext} (hCtx : Consistent py ctx) {name d : Str}
    (hRecorded : (ctx.dependencies name).isSome) (h : TransGen (FieldOf ctx.messages) name d) :
    (ctx.dependencies d).isSome := by
  have hStep : ∀ {a b : Str}, (ctx.dependencies a).isSome → FieldOf ctx.messages a b →
      (ctx.dependencies b).isSome := by
    rintro a b hSome ⟨spec, hSpec, hField⟩
    obtain ⟨depends, hDepends⟩ := Option.isSome_iff_exists.mp hSome
    obtain ⟨held, hHeld, rfl, rfl⟩ := hCtx.recorded a depends hDepends
    cases hHeld.getRegistered.symm.trans hSpec
    cases hCtx.complete _ hSome with
    | intro _ hCalls =>
      rw [hDepends] at hCalls
      cases hCalls b hField with
      | intro hNext _ => exact hNext
  induction h with
  | single hField => exact hStep hRecorded hField
  | tail _ hField ih => exact hStep ih hField

structure Written (py : Python F) (ctx : DependContext) (name : Str) (spec : MsgSpec) (ds : List Str) : Prop where
  distinct : ds.Nodup
  types : ∀ d, d ∈ ds ↔ TransGen (FieldOf ctx.messages) name d
  held : ∀ d ∈ ds, ∃ sub, Held py ctx sub ∧ sub.fullName = d
  own : Held py ctx spec

theorem Consistent.computeFullText {ctx : DependContext} (hCtx : Consistent py ctx) {spec : MsgSpec}
    (hHeld : Held py ctx spec) (hRecorded : (ctx.dependencies spec.fullName).isSome) {fuel : Nat}
    {out : Except DependError (List Str)} (h : getAllDepends ctx.dependencies fuel spec.fullName = some out) :
    ∃ ds, Written py ctx spec.fullName spec ds ∧ Msg.computeFullText ctx fuel spec =
      some (.ok (rulerLine.intercalate (spec.text :: ds.map fun d => depMsg d (textOf ctx.messages d)))) := by
  obtain ⟨all, rfl, hMem⟩ := hCtx.getAllDepends_mem hRecorded h
  have hTypes : ∀ d, d ∈ uniqueDeps all ↔ TransGen (FieldOf ctx.messages) spec.fullName d := fun d =>
    mem_uniqueDeps.trans (hMem d)
  have hHolds : ∀ d ∈ uniqueDeps all, ∃ sub, Held py ctx sub ∧ sub.fullName = d := by
    intro d hd
    obtain ⟨depends, hDepends⟩ :=
      Option.isSome_iff_exists.mp (hCtx.recorded_of_transGen hRecorded ((hTypes d).mp hd))
    obtain ⟨sub, hSub, hFull, -⟩ := hCtx.recorded d depends hDepends
    exact ⟨sub, hSub, hFull⟩
  have hRegistered : ∀ d ∈ uniqueDeps all, (ctx.messages.getRegistered d).isSome := by
    intro d hd
    obtain ⟨sub, hSub, rfl⟩ := hHolds d hd
    rw [hSub.getRegistered]
    rfl
  obtain ⟨buff, hBuff, hJoined⟩ := writeDepends_eq hRegistered spec.text
  refine ⟨uniqueDeps all, ⟨nodup_uniqueDeps all, hTypes, hHolds, hHeld⟩, ?_⟩
  rw [Msg.computeFullText, h]
  dsimp only
  rw [hBuff]
  dsimp only
  rw [hJoined]
  rfl

theorem Held.ruler_not_mem {ctx : DependContext} {spec : MsgSpec} (h : Held py ctx spec) :
    ruler ∉ spec.text.splitOn '\n' := by
  obtain ⟨package, baseType, -, hStored⟩ := h
  obtain ⟨ds, hAccepted⟩ := hStored.accepted
  rw [← split_eq_splitOn]
  exact not_mem_of_accepted hAccepted

theorem textOf_eq {messages : MsgContext} {d : Str} {sub : MsgSpec} (h : messages.getRegistered d = some sub) :
    textOf messages d = sub.text := by
  rw [textOf, h]
  rfl

theorem Written.dynamicTexts {ctx : DependContext} {name : Str} {spec : MsgSpec} {ds : List Str}
    (h : Written py ctx name spec ds) (hOld : ¬ roslibHeader <:+: spec.text)
    (hOlds : ∀ d, TransGen (FieldOf ctx.messages) name d → ¬ roslibHeader <:+: textOf ctx.messages d) :
    Msg.dynamicTexts (rulerLine.intercalate (spec.text :: ds.map fun d => depMsg d (textOf ctx.messages d))) =
      .ok (spec.text, ds.map fun d => (readName d, textOf ctx.messages d)) := by
  refine dynamicTexts_intercalate (fun d hd => ?_) h.own.ruler_not_mem (fun d hd => ?_) hOld
    fun d hd => hOlds d ((h.types d).mp hd)
  · obtain ⟨sub, hSub, rfl⟩ := h.held d hd
    obtain ⟨package, baseType, -, hStored⟩ := hSub
    exact hStored.word
  · obtain ⟨sub, hSub, rfl⟩ := h.held d hd
    rw [textOf_eq hSub.getRegistered]
    exact hSub.ruler_not_mem

theorem Consistent.fullTextSplits {ctx : DependContext} (hCtx : Consistent py ctx) {spec : MsgSpec}
    (hHeld : Held py ctx spec) (hRecorded : (ctx.dependencies spec.fullName).isSome)
    (hOld : ¬ roslibHeader <:+: spec.text)
    (hOlds : ∀ d, TransGen (FieldOf ctx.messages) spec.fullName d → ¬ roslibHeader <:+: textOf ctx.messages d)
    (hNames : ∀ d, TransGen (FieldOf ctx.messages) spec.fullName d → ¬ roslibHeader <:+: d) :
    FullTextSplits ctx spec := by
  obtain ⟨fuel, out, hAll⟩ := hCtx.getAllDepends_ends hRecorded
  obtain ⟨ds, hWritten, hText⟩ := hCtx.computeFullText hHeld hRecorded hAll
  have hFirst : (ds.map fun d => (readName d, textOf ctx.messages d)).map Prod.fst = ds := by
    rw [List.map_map]
    refine (List.map_congr_left fun d hd => ?_).trans (List.map_id ds)
    exact readName_unchanged (hNames d ((hWritten.types d).mp hd))
  refine ⟨fuel, _, _, hText, hWritten.dynamicTexts hOld hOlds, ?_, ?_, ?_⟩
  · rw [hFirst]
    exact hWritten.distinct
  · rw [hFirst]
    exact hWritten.types
  · intro part hPart
    obtain ⟨d, hd, rfl⟩ := List.mem_map.mp hPart
    obtain ⟨sub, hSub, rfl⟩ := hWritten.held d hd
    refine ⟨sub, ?_, textOf_eq hSub.getRegistered⟩
    rw [readName_unchanged (hNames _ ((hWritten.types _).mp hd))]
    exact hSub.getRegistered

theorem Consistent.not_fullTextSplits {ctx : DependContext} (hCtx : Consistent py ctx) {spec : MsgSpec}
    (hHeld : Held py ctx spec) (hRecorded : (ctx.dependencies spec.fullName).isSome)
    (hOld : ¬ roslibHeader <:+: spec.text)
    (hOlds : ∀ d, TransGen (FieldOf ctx.messages) spec.fullName d → ¬ roslibHeader <:+: textOf ctx.messages d) {d : Str}
    (hd : TransGen (FieldOf ctx.messages) spec.fullName d) (hName : roslibHeader <:+: d) :
    ¬ FullTextSplits ctx spec := by
  rintro ⟨fuel, text, parts, hText, hParts, hSeparates⟩
  obtain ⟨out, hAll⟩ : ∃ out, getAllDepends ctx.dependencies fuel spec.fullName = some out := by
    cases hOut : getAllDepends ctx.dependencies fuel spec.fullName with
    | none =>
      rw [Msg.computeFullText, hOut] at hText
      cases hText
    | some out => exact ⟨out, rfl⟩
  obtain ⟨ds, hWritten, hJoined⟩ := hCtx.computeFullText hHeld hRecorded hAll
  obtain rfl := Except.ok.inj (Option.some.inj (hText.symm.trans hJoined))
  rw [hWritten.dynamicTexts hOld hOlds] at hParts
  cases hParts
  obtain ⟨part, hPart, hSame⟩ := List.mem_map.mp ((hSeparates.types d).mpr hd)
  obtain ⟨e, he, rfl⟩ := List.mem_map.mp hPart
  obtain ⟨sub, hSub, rfl⟩ := hWritten.held e he
  obtain ⟨package, baseType, -, hStored⟩ := hSub
  have hSlash : sub.fullName.count '/' = 1 := by
    have hAtMost := (isSome_packageResourceName_iff sub.fullName).mp (by rw [hStored.key]; rfl)
    have hAtLeast := List.count_pos_iff.mpr hStored.typeName.slash
    omega
  exact readName_ne hName hSlash hSame

/-- The full text of a message that was loaded with its dependencies comes apart into the texts of
all of them exactly if no dependency has `roslib/Header` in its name. -/
theorem fullTextSplits_iff (hWords : WordsUnbroken py) {ctx : DependContext} (h : Loaded py ctx) {name : Str}
    (hName : MessageName py name) {spec : MsgSpec} (hSpec : ctx.messages.getRegistered name = some spec)
    (hRecorded : (ctx.dependencies name).isSome) (hOld : ¬ roslibHeader <:+: spec.text)
    (hOlds : ∀ d, TransGen (FieldOf ctx.messages) name d → ¬ roslibHeader <:+: textOf ctx.messages d) :
    FullTextSplits ctx spec ↔ ∀ d, TransGen (FieldOf ctx.messages) name d → ¬ roslibHeader <:+: d := by
  have hCtx := h.consistent hWords
  obtain ⟨hHeld, rfl⟩ := hCtx.held hName.typeName hSpec
  constructor
  · intro hSplits d hd hHeader
    exact hCtx.not_fullTextSplits hHeld hRecorded hOld hOlds hd hHeader hSplits
  · exact hCtx.fullTextSplits hHeld hRecorded hOld hOlds

/-! ## Two messages -/

theorem typeName_of_key {name package base : Str} (hKey : packageResourceName name = some (package, base))
    (hPackage : package ≠ []) (hPlain : '[' ∉ name) : TypeName name := by
  obtain ⟨-, -, rfl | ⟨-, hNone, -⟩⟩ := packageResourceName_eq_some hKey
  · refine ⟨List.mem_append_right _ List.mem_cons_self, hPlain, fun base' hOther => ?_⟩
    rw [hKey] at hOther
    cases hOther
    exact absurd rfl hPackage
  · exact absurd hNone hPackage

def loadText (ctx : DependContext) (name text : Str) : DependContext :=
  { ctx with messages := loadInto asciiPython ctx.messages text name }

theorem loaded_loadText {ctx : DependContext} (h : Loaded asciiPython ctx) {name text : Str}
    (hName : MessageName asciiPython name)
    (hOk : (loadMsgFromString asciiPython ctx.messages text name).isOk = true) (hNew : ctx.dependencies name = none) :
    Loaded asciiPython (loadText ctx name text) := by
  cases hLoad : loadMsgFromString asciiPython ctx.messages text name with
  | error e =>
    rw [hLoad] at hOk
    cases hOk
  | ok r =>
    obtain ⟨loaded, messages⟩ := r
    have hAgain : (ctx.dependencies name).isSome → ctx.messages.getRegistered name = some loaded.spec := by
      rw [hNew]
      exact fun hSome => by cases hSome
    have hContext : loadText ctx name text = { ctx with messages } := by
      rw [loadText, loadInto, hLoad]
    rw [hContext]
    exact h.text hName hLoad hAgain

/-- Records the dependencies of a registered message, which are registered already. -/
def recordDepends (ctx : DependContext) (name : Str) : DependContext :=
  match ctx.messages.getRegistered name with
  | none => ctx
  | some spec => ((loadMsgDepends asciiPython ⟨[], []⟩ 3 ctx spec).map Prod.snd).getD ctx

theorem loaded_recordDepends {ctx : DependContext} (h : Loaded asciiPython ctx) {name : Str}
    (hName : MessageName asciiPython name) : Loaded asciiPython (recordDepends ctx name) := by
  rw [recordDepends]
  split
  · exact h
  · rename_i spec hSpec
    cases hDepends : loadMsgDepends asciiPython ⟨[], []⟩ 3 ctx spec with
    | none => exact h
    | some outcome => exact h.depends hName hSpec hDepends

/-- `A` with a field of `inner`, in one package. -/
def pairContext (package inner : Str) : DependContext :=
  recordDepends
    (loadText (loadText ⟨createDefault asciiPython, fun _ => none⟩ (package ++ '/' :: inner) (str "int8 x"))
      (package ++ str "/A") (inner ++ str " field"))
    (package ++ str "/A")

structure Pair (package inner : Str) : Prop where
  outerName : MessageName asciiPython (package ++ str "/A")
  innerName : MessageName asciiPython (package ++ '/' :: inner)
  loads : (loadMsgFromString asciiPython (createDefault asciiPython) (str "int8 x") (package ++ '/' :: inner)).isOk = true
  loadsOuter : (loadMsgFromString asciiPython
    (loadText ⟨createDefault asciiPython, fun _ => none⟩ (package ++ '/' :: inner) (str "int8 x")).messages
    (inner ++ str " field") (package ++ str "/A")).isOk = true
  recorded : ((pairContext package inner).dependencies (package ++ str "/A")).isSome
  registered : ((pairContext package inner).messages.getRegistered (package ++ str "/A")).map
    (fun spec => (spec.text, dependsOf spec.node)) = some (inner ++ str " field", [package ++ '/' :: inner])
  registeredInner : ((pairContext package inner).messages.getRegistered (package ++ '/' :: inner)).map
    (fun spec => (spec.text, dependsOf spec.node)) = some (str "int8 x", [])

variable {package inner : Str}

theorem Pair.loaded (h : Pair package inner) : Loaded asciiPython (pairContext package inner) := by
  have hInner := loaded_loadText .fresh h.innerName h.loads rfl
  exact loaded_recordDepends (loaded_loadText hInner h.outerName h.loadsOuter rfl) h.outerName

theorem Pair.closure (h : Pair package inner) (d : Str) :
    TransGen (FieldOf (pairContext package inner).messages) (package ++ str "/A") d ↔ d = package ++ '/' :: inner := by
  obtain ⟨outerSpec, hOuter, hOuterPair⟩ := Option.map_eq_some_iff.mp h.registered
  obtain ⟨innerSpec, hInner, hInnerPair⟩ := Option.map_eq_some_iff.mp h.registeredInner
  have hOuterFields : dependsOf outerSpec.node = [package ++ '/' :: inner] := congrArg Prod.snd hOuterPair
  have hInnerFields : dependsOf innerSpec.node = [] := congrArg Prod.snd hInnerPair
  constructor
  · intro hPath
    induction hPath with
    | single hField =>
      obtain ⟨spec, hSpec, hMem⟩ := hField
      cases hOuter.symm.trans hSpec
      rw [hOuterFields] at hMem
      exact List.mem_singleton.mp hMem
    | tail _ hField ih =>
      obtain ⟨spec, hSpec, hMem⟩ := hField
      rw [ih] at hSpec
      cases hInner.symm.trans hSpec
      rw [hInnerFields] at hMem
      cases hMem
  · rintro rfl
    exact .single ⟨outerSpec, hOuter, by rw [hOuterFields]; exact List.mem_singleton_self _⟩

theorem Pair.textOf (h : Pair package inner) :
    textOf (pairContext package inner).messages (package ++ '/' :: inner) = str "int8 x" := by
  obtain ⟨innerSpec, hInner, hInnerPair⟩ := Option.map_eq_some_iff.mp h.registeredInner
  rw [textOf_eq hInner]
  exact congrArg Prod.fst hInnerPair

theorem Pair.spec (h : Pair package inner) (hOld : ¬ roslibHeader <:+: inner ++ str " field") :
    ∃ spec, (pairContext package inner).messages.getRegistered (package ++ str "/A") = some spec ∧
      ¬ roslibHeader <:+: spec.text ∧
      ∀ d, TransGen (FieldOf (pairContext package inner).messages) (package ++ str "/A") d →
        ¬ roslibHeader <:+: Msg.textOf (pairContext package inner).messages d := by
  obtain ⟨spec, hSpec, hPair⟩ := Option.map_eq_some_iff.mp h.registered
  have hText : spec.text = inner ++ str " field" := congrArg Prod.fst hPair
  refine ⟨spec, hSpec, by rwa [hText], fun d hd => ?_⟩
  rw [(h.closure d).mp hd, h.textOf]
  decide +kernel

theorem pair_pkg : Pair (str "pkg") (str "B") where
  outerName := ⟨@typeName_of_key _ (str "pkg") (str "A") rfl (by decide) (by decide), by decide⟩
  innerName := ⟨@typeName_of_key _ (str "pkg") (str "B") rfl (by decide) (by decide), by decide⟩
  loads := by decide +kernel
  loadsOuter := by decide +kernel
  recorded := by decide +kernel
  registered := by decide +kernel
  registeredInner := by decide +kernel

theorem pair_roslib : Pair (str "roslib") (str "HeaderBag") where
  outerName := ⟨@typeName_of_key _ (str "roslib") (str "A") rfl (by decide) (by decide), by decide⟩
  innerName := ⟨@typeName_of_key _ (str "roslib") (str "HeaderBag") rfl (by decide) (by decide), by decide⟩
  loads := by decide +kernel
  loadsOuter := by decide +kernel
  recorded := by decide +kernel
  registered := by decide +kernel
  registeredInner := by decide +kernel

theorem fullTextSplits_iff_pkg :
    ∃ spec, (pairContext (str "pkg") (str "B")).messages.getRegistered (str "pkg/A") = some spec ∧
      FullTextSplits (pairContext (str "pkg") (str "B")) spec := by
  obtain ⟨spec, hSpec, hOld, hOlds⟩ := pair_pkg.spec (by decide +kernel)
  have hWords : WordsUnbroken asciiPython := fun c hc => by cases hc
  refine ⟨spec, hSpec, (fullTextSplits_iff hWords pair_pkg.loaded pair_pkg.outerName hSpec pair_pkg.recorded hOld
    hOlds).mpr fun d hd => ?_⟩
  rw [(pair_pkg.closure d).mp hd]
  decide +kernel

/-- `roslib/A` with a field of `roslib/HeaderBag`, which comes back as `std_msgs/HeaderBag`. -/
theorem roslib_dependency_lost :
    ∃ ctx spec, Loaded asciiPython ctx ∧ ctx.messages.getRegistered (str "roslib/A") = some spec ∧
      (ctx.dependencies (str "roslib/A")).isSome ∧ ¬ roslibHeader <:+: spec.text ∧
      (∀ d, TransGen (FieldOf ctx.messages) (str "roslib/A") d → ¬ roslibHeader <:+: textOf ctx.messages d) ∧
      ¬ FullTextSplits ctx spec := by
  obtain ⟨spec, hSpec, hOld, hOlds⟩ := pair_roslib.spec (by decide +kernel)
  have hWords : WordsUnbroken asciiPython := fun c hc => by cases hc
  have hCtx := pair_roslib.loaded.consistent hWords
  obtain ⟨hHeld, hFull⟩ := hCtx.held pair_roslib.outerName.typeName hSpec
  refine ⟨_, spec, pair_roslib.loaded, hSpec, pair_roslib.recorded, hOld, hOlds, ?_⟩
  rw [← hFull] at hOlds
  exact hCtx.not_fullTextSplits hHeld (hFull ▸ pair_roslib.recorded) hOld hOlds
    (hFull ▸ (pair_roslib.closure _).mpr rfl) (by decide +kernel)

end XcRos.Msg
