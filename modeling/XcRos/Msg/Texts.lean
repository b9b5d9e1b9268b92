import XcRos.Msg.DependsTermination
import XcRos.Msg.LoaderLines

/-! # Messages loaded from texts

A context takes messages from texts in any order, and dependencies are recorded in between, through
any search paths. A message whose dependencies are recorded is only loaded again with the
definition that it has. Then what is recorded are the types of the fields of what is registered,
throughout and without cycles.
-/

namespace XcRos.Msg

open XcRos.Foundation Relation

/-- The full name of a message, as the loader accepts it for the type of a field. -/
structure MessageName {F : Type} (py : Python F) (name : Str) : Prop where
  typeName : TypeName name
  legal : isLegalResourceName py.unicodeWord name = true

/-- `\w` matches no blanks beyond ASCII. -/
def WordsUnbroken {F : Type} (py : Python F) : Prop := ∀ c, py.unicodeWord c = true → isspace c = false

/-- `load_msg_from_string` and `load_msg_depends` in any order; with them `load_msg_by_type`, which
loads the text of a file. -/
inductive Loaded {F : Type} (py : Python F) : DependContext → Prop
  | fresh : Loaded py ⟨createDefault py, fun _ => none⟩
  | text {ctx : DependContext} {text name : Str} {loaded : LoadedSpec F} {messages : MsgContext} (h : Loaded py ctx)
      (hName : MessageName py name) (hLoad : loadMsgFromString py ctx.messages text name = .ok (loaded, messages))
      (hAgain : (ctx.dependencies name).isSome → ctx.messages.getRegistered name = some loaded.spec) :
      Loaded py { ctx with messages }
  | depends {ctx ctx' : DependContext} {path : SearchPath} {fuel : Nat} {name : Str} {spec : MsgSpec}
      {out : Except DependError (List Str)} (h : Loaded py ctx) (hName : MessageName py name)
      (hSpec : ctx.messages.getRegistered name = some spec)
      (hDepends : loadMsgDepends py path fuel ctx spec = some (out, ctx')) : Loaded py ctx'

def FieldOf (messages : MsgContext) (name dependency : Str) : Prop :=
  ∃ spec, messages.getRegistered name = some spec ∧ dependency ∈ dependsOf spec.node

variable {F : Type} {py : Python F}

/-! ## Names -/

theorem isspace_of_isAlphanum {c : Char} (h : c.isAlphanum = true) : isspace c = false := by
  rw [Char.isAlphanum, Char.isAlpha, Char.isUpper, Char.isLower, Char.isDigit] at h
  simp only [Bool.or_eq_true, Bool.and_eq_true, decide_eq_true_eq, ge_iff_le, UInt32.le_iff_toNat_le] at h
  have hNat : c.toNat = c.val.toNat := rfl
  simp only [isspace, hNat, Bool.or_eq_false_iff, Bool.and_eq_false_iff, decide_eq_false_iff_not, beq_eq_false_iff_ne]
  simp only [show 'A'.val.toNat = 65 from rfl, show 'Z'.val.toNat = 90 from rfl, show 'a'.val.toNat = 97 from rfl,
    show 'z'.val.toNat = 122 from rfl, show '0'.val.toNat = 48 from rfl, show '9'.val.toNat = 57 from rfl] at h
  omega

theorem isspace_of_isWord (hWords : WordsUnbroken py) {c : Char} (h : isWord py.unicodeWord c = true) :
    isspace c = false := by
  rw [isWord] at h
  simp only [Bool.or_eq_true, Bool.and_eq_true, beq_iff_eq] at h
  obtain (hPlain | rfl) | ⟨-, hBeyond⟩ := h
  · exact isspace_of_isAlphanum hPlain
  · decide
  · exact hWords c hBeyond

theorem word_of_legal (hWords : WordsUnbroken py) {name : Str} (h : isLegalResourceName py.unicodeWord name = true) :
    Word name := by
  cases name with
  | nil => cases h
  | cons first rest =>
    rw [isLegalResourceName] at h
    simp only [Bool.and_eq_true, List.all_eq_true, Bool.or_eq_true, beq_iff_eq] at h
    obtain ⟨⟨hFirst, hRest⟩, -⟩ := h
    refine ⟨List.cons_ne_nil first rest, fun c hc => ?_⟩
    obtain rfl | hc := List.mem_cons.mp hc
    · exact isspace_of_isAlphanum (by rw [Char.isAlphanum, hFirst, Bool.true_or])
    · obtain hWord | rfl := hRest c hc
      · exact isspace_of_isWord hWords hWord
      · decide

/-! ## What is registered -/

/-- A message that was loaded from its text: its name, and what is read off the names of its types. -/
structure Stored (py : Python F) (package baseType : Str) (spec : MsgSpec) : Prop where
  typeName : TypeName spec.fullName
  word : Word spec.fullName
  key : packageResourceName spec.fullName = some (package, baseType)
  proper : Proper spec.node
  words : ∀ d ∈ dependsOf spec.node, Word d
  accepted : ∃ ds, loadLines py package (split '\n' spec.text) = .ok ds

theorem word_of_dependsOf {n : Node} (hPackage : ∀ c ∈ n.1, isspace c = false)
    (hTypes : ∀ type ∈ n.2, ∀ c ∈ bareMsgType type, isspace c = false) {d : Str} (hProper : Proper n)
    (hd : d ∈ dependsOf n) : Word d := by
  have hSlash := (hProper.typeName hd).slash
  refine ⟨List.ne_nil_of_mem hSlash, ?_⟩
  obtain ⟨hMem, -⟩ := List.mem_filter.mp hd
  obtain ⟨type, hType, rfl⟩ := List.mem_map.mp hMem
  have hOwn := hTypes type hType
  rw [resolveType]
  split
  · exact hOwn
  · split
    · decide
    · split
      · exact hOwn
      · intro c hc
        obtain hc | hc := List.mem_append.mp hc
        · exact hPackage c hc
        · obtain rfl | hc := List.mem_cons.mp hc
          · decide
          · exact hOwn c hc

theorem stored_of_load (hWords : WordsUnbroken py) {messages registered : MsgContext} {text name : Str}
    (hType : TypeName name) (hWord : Word name) {loaded : LoadedSpec F}
    (h : loadMsgFromString py messages text name = .ok (loaded, registered)) :
    ∃ package baseType, Stored py package baseType loaded.spec ∧ loaded.spec.fullName = name ∧
      loaded.spec.text = text ∧
      registered = ⟨fun p b => if (p, b) = (package, baseType) then some loaded.spec else messages.registered p b⟩ := by
  obtain ⟨package, baseType, ds, hKey, hLines, hSpec, hRegister⟩ := loadMsgFromString_eq_ok_iff.mp h
  obtain ⟨-, hDeclares, hText, hFull, hPackage, -⟩ := specOf_eq_ok_iff.mp hSpec
  obtain ⟨hSlash, -, -⟩ := packageResourceName_eq_some hKey
  have hSplit := hType.eq_of_key hKey
  have hPlain : '[' ∉ package := fun hMem => hType.plain (hSplit ▸ List.mem_append_left _ hMem)
  have hSolid : ∀ c ∈ package, isspace c = false := fun c hc => hWord.noBlank c (hSplit ▸ List.mem_append_left _ hc)
  have hTypes : ∀ type ∈ typesOf ds, (bareMsgType type).head? ≠ some '/' :=
    loadLines_types (fun _ _ hField => loadFieldLine_head hPlain hSlash hField) hLines
  have hBlanks : ∀ type ∈ typesOf ds, ∀ c ∈ bareMsgType type, isspace c = false := by
    refine loadLines_types (fun line field hField => ?_) hLines
    obtain ⟨fieldType, hLegal, hResolved⟩ := loadFieldLine_type hField
    have hOwn := (word_of_legal hWords hLegal).noBlank
    rw [hResolved]
    obtain hHeader | ⟨-, hWithin⟩ | hKept := bareMsgType_resolveFieldType hPlain fieldType
    · rw [hHeader]
      decide
    · rw [hWithin]
      intro c hc
      obtain hc | hc := List.mem_append.mp hc
      · exact hSolid c hc
      · obtain rfl | hc := List.mem_cons.mp hc
        · decide
        · exact hOwn c hc
    · rwa [hKept]
  have hNode : loaded.spec.node = (package, typesOf ds) := by
    rw [MsgSpec.node, hPackage, hDeclares.types]
  have hProper : Proper loaded.spec.node := by
    rw [hNode]
    exact ⟨hPlain, hSlash, hTypes⟩
  refine ⟨package, baseType, ⟨?_, ?_, ?_, hProper, fun d hd => ?_, ds, ?_⟩, hFull, hText, ?_⟩
  · rwa [hFull]
  · rwa [hFull]
  · rwa [hFull]
  · rw [hNode] at hd hProper
    exact word_of_dependsOf hSolid hBlanks hProper hd
  · rwa [hText]
  · rw [register_eq hType.plain hKey] at hRegister
    exact (Option.some.inj hRegister).symm

theorem loadMsgByType_text {path : SearchPath} {ctx ctx' : DependContext} {name : Str} (hName : name ≠ header)
    {spec : MsgSpec} (h : loadMsgByType py path ctx name = .ok (spec, ctx')) :
    ∃ text loaded, loadMsgFromString py ctx.messages text name = .ok (loaded, ctx'.messages) ∧ loaded.spec = spec ∧
      ctx'.dependencies = ctx.dependencies := by
  rw [loadMsgByType, if_neg hName] at h
  split at h
  · cases h
  · split at h
    · cases h
    · rename_i file _
      split at h
      · cases h
      · rename_i loaded messages hLoad
        cases h
        exact ⟨_, loaded, hLoad, rfl, rfl⟩

/-! ## The contexts of a run -/

def Held (py : Python F) (ctx : DependContext) (spec : MsgSpec) : Prop :=
  ∃ package baseType, ctx.messages.registered package baseType = some spec ∧ Stored py package baseType spec

theorem Held.mono {ctx ctx' : DependContext} {spec : MsgSpec} (h : Held py ctx spec) (hGrows : Grows ctx ctx') :
    Held py ctx' spec := by
  obtain ⟨package, baseType, hSpec, hStored⟩ := h
  exact ⟨package, baseType, hGrows.registered package baseType spec hSpec, hStored⟩

theorem Held.getRegistered {ctx : DependContext} {spec : MsgSpec} (h : Held py ctx spec) :
    ctx.messages.getRegistered spec.fullName = some spec := by
  obtain ⟨package, baseType, hSpec, hStored⟩ := h
  rw [MsgContext.getRegistered, bareMsgType_of_not_mem hStored.typeName.plain, hStored.key, Option.bind_some, hSpec]

/-- Recorded, and everything that is recorded for it as well, to an end. -/
def Complete (dependencies : Str → Option (List Str)) : Str → Prop :=
  Hereditary (fun name => (dependencies name).getD []) (fun name => (dependencies name).isSome)

structure Consistent (py : Python F) (ctx : DependContext) : Prop where
  registered : ∀ package baseType spec, ctx.messages.registered package baseType = some spec →
    package = [] ∧ isBuiltin baseType = true ∨ Stored py package baseType spec
  recorded : ∀ name depends, ctx.dependencies name = some depends →
    ∃ spec, Held py ctx spec ∧ spec.fullName = name ∧ depends = dependsOf spec.node
  complete : ∀ name, (ctx.dependencies name).isSome → Complete ctx.dependencies name

theorem Consistent.held {ctx : DependContext} (hCtx : Consistent py ctx) {name : Str} (hName : TypeName name)
    {spec : MsgSpec} (h : ctx.messages.getRegistered name = some spec) : Held py ctx spec ∧ spec.fullName = name := by
  rw [MsgContext.getRegistered, bareMsgType_of_not_mem hName.plain] at h
  obtain ⟨⟨package, baseType⟩, hKey, hRegistered⟩ := Option.bind_eq_some_iff.mp h
  obtain ⟨rfl, hBuiltin⟩ | hStored := hCtx.registered package baseType spec hRegistered
  · rw [hName.message baseType hKey] at hBuiltin
    cases hBuiltin
  · refine ⟨⟨package, baseType, hRegistered, hStored⟩, ?_⟩
    rw [hStored.typeName.eq_of_key hStored.key, hName.eq_of_key hKey]

theorem OnlyBuiltins.consistent {messages : MsgContext} (h : OnlyBuiltins messages) (py : Python F) :
    Consistent py ⟨messages, fun _ => none⟩ := by
  refine ⟨fun p b spec hSpec => .inl (h.builtin p b spec hSpec), fun name depends hName => ?_, fun name hName => ?_⟩
  · cases hName
  · cases hName

theorem Consistent.register {ctx ctx' : DependContext} (hCtx : Consistent py ctx) {package baseType : Str}
    {spec : MsgSpec} (hStored : Stored py package baseType spec) (hDependencies : ctx'.dependencies = ctx.dependencies)
    (hMessages : ctx'.messages =
      ⟨fun p b => if (p, b) = (package, baseType) then some spec else ctx.messages.registered p b⟩)
    (hAgain : (ctx.dependencies spec.fullName).isSome → ctx.messages.getRegistered spec.fullName = some spec) :
    Consistent py ctx' := by
  refine ⟨fun p b registered hRegistered => ?_, fun name depends hName => ?_, ?_⟩
  · rw [hMessages] at hRegistered
    dsimp only at hRegistered
    split at hRegistered
    · rename_i hKey
      cases hKey
      cases hRegistered
      exact .inr hStored
    · exact hCtx.registered p b registered hRegistered
  · rw [hDependencies] at hName
    obtain ⟨old, hHeld, rfl, hDepends⟩ := hCtx.recorded name depends hName
    obtain ⟨p, b, hOld, hOldStored⟩ := hHeld
    refine ⟨old, ⟨p, b, ?_, hOldStored⟩, rfl, hDepends⟩
    rw [hMessages]
    dsimp only
    split
    · rename_i hKey
      cases hKey
      -- the same key is the same name, and that is recorded
      have hSame : spec.fullName = old.fullName := by
        rw [hStored.typeName.eq_of_key hStored.key, hOldStored.typeName.eq_of_key hOldStored.key]
      rw [hSame] at hAgain
      have hHeldOld := Held.getRegistered ⟨package, baseType, hOld, hOldStored⟩
      exact (hAgain (by rw [hName]; rfl)).symm.trans hHeldOld
    · exact hOld
  · rw [hDependencies]
    exact hCtx.complete

theorem Consistent.setDepends {ctx : DependContext} (hCtx : Consistent py ctx) {spec : MsgSpec}
    (hHeld : Held py ctx spec) (hAll : ∀ d ∈ dependsOf spec.node, (ctx.dependencies d).isSome) :
    Consistent py (ctx.setDepends spec.fullName (dependsOf spec.node)) := by
  cases hOld : ctx.dependencies spec.fullName with
  | some depends =>
    -- recorded again, with the same types
    obtain ⟨old, hOldHeld, hFull, hDepends⟩ := hCtx.recorded spec.fullName depends hOld
    have hSame : old = spec := by
      have hGet := hOldHeld.getRegistered
      rw [hFull, hHeld.getRegistered] at hGet
      exact (Option.some.inj hGet).symm
    have hUnchanged : ctx.setDepends spec.fullName (dependsOf spec.node) = ctx := by
      rw [DependContext.setDepends]
      congr 1
      funext name
      split
      · rename_i hName
        rw [hName, hOld, hDepends, hSame]
      · rfl
    rw [hUnchanged]
    exact hCtx
  | none =>
    have hOther : ∀ {name : Str}, name ≠ spec.fullName →
        (ctx.setDepends spec.fullName (dependsOf spec.node)).dependencies name = ctx.dependencies name := by
      intro name hName
      exact if_neg hName
    have hOwn : (ctx.setDepends spec.fullName (dependsOf spec.node)).dependencies spec.fullName =
        some (dependsOf spec.node) := if_pos rfl
    have hKept : ∀ name, Complete ctx.dependencies name →
        Complete (ctx.setDepends spec.fullName (dependsOf spec.node)).dependencies name := by
      intro name hComplete
      induction hComplete with
      | @intro name hSome _ ih =>
        have hName : name ≠ spec.fullName := by
          rintro rfl
          rw [hOld] at hSome
          cases hSome
        refine .intro ?_ ?_
        · rw [hOther hName]
          exact hSome
        · rw [hOther hName]
          exact ih
    refine ⟨hCtx.registered, fun name depends hName => ?_, fun name hName => ?_⟩
    · by_cases hFull : name = spec.fullName
      · rw [hFull, hOwn] at hName
        exact ⟨spec, hHeld, hFull.symm, (Option.some.inj hName).symm⟩
      · rw [hOther hFull] at hName
        exact hCtx.recorded name depends hName
    · by_cases hFull : name = spec.fullName
      · refine .intro hName fun d hd => ?_
        rw [hFull, hOwn] at hd
        exact hKept d (hCtx.complete d (hAll d hd))
      · rw [hOther hFull] at hName
        exact hKept name (hCtx.complete name hName)

/-! ## Recording dependencies -/

variable {path : SearchPath}

theorem Consistent.retrieve (hWords : WordsUnbroken py) {ctx ctx' : DependContext} (hCtx : Consistent py ctx) {name : Str}
    (hName : TypeName name) (hWord : Word name) {spec : MsgSpec} (h : retrieve py path ctx name = .ok (spec, ctx')) :
    Consistent py ctx' ∧ Grows ctx ctx' ∧ Held py ctx' spec ∧ spec.fullName = name := by
  have hBare := bareMsgType_of_not_mem hName.plain
  rw [Msg.retrieve, hBare] at h
  split at h
  · cases h
  · rename_i package baseType hKey
    split at h
    · rename_i hRegistered
      cases h
      obtain ⟨hHeld, hFull⟩ := hCtx.held hName (by rw [MsgContext.getRegistered, hBare, hKey]; exact hRegistered)
      exact ⟨hCtx, .refl ctx, hHeld, hFull⟩
    · rename_i hNone
      split at h
      · cases h
      · rename_i loadedSpec between hLoad
        obtain ⟨text, loaded, hText, rfl, hDependencies⟩ := loadMsgByType_text hName.ne_header hLoad
        obtain ⟨p, b, hStored, hFull, -, hMessages⟩ := stored_of_load hWords hName hWord hText
        have hOwn := hStored.key
        rw [hFull, hKey] at hOwn
        cases hOwn
        rw [register_eq hName.plain hKey] at h
        cases h
        -- the second registration changes nothing
        have hTwice : (⟨fun p b => if (p, b) = (package, baseType) then some loaded.spec else between.messages.registered p b⟩ :
            MsgContext) = between.messages := by
          rw [hMessages]
          congr 1
          funext p b
          dsimp only
          split <;> rfl
        rw [hTwice]
        have hUnrecorded : ctx.dependencies loaded.spec.fullName = none := by
          cases hRecorded : ctx.dependencies loaded.spec.fullName with
          | none => rfl
          | some depends =>
            obtain ⟨old, hHeld, hOldName, -⟩ := hCtx.recorded loaded.spec.fullName depends hRecorded
            have hGet := hHeld.getRegistered
            rw [hOldName, hFull, MsgContext.getRegistered, hBare, hKey, Option.bind_some, hNone] at hGet
            cases hGet
        have hConsistent : Consistent py between :=
          hCtx.register hStored hDependencies hMessages fun hSome => by rw [hUnrecorded] at hSome; cases hSome
        refine ⟨hConsistent, ⟨fun p b other hOther => ?_, fun _ h => hDependencies ▸ h⟩, ⟨package, baseType, ?_, hStored⟩, hFull⟩
        · dsimp only
          rw [hMessages]
          dsimp only
          rw [if_neg, hOther]
          rintro hEq
          cases hEq
          rw [hNone] at hOther
          cases hOther
        · dsimp only
          rw [hMessages]
          exact if_pos rfl

structure Recorded (py : Python F) (ctx : DependContext) (name : Str) (out : Except DependError (List Str))
    (ctx' : DependContext) : Prop where
  consistent : Consistent py ctx'
  grows : Grows ctx ctx'
  recorded : out.isOk = true → (ctx'.dependencies name).isSome

theorem dependLoop_recorded (hWords : WordsUnbroken py) {descend : DependContext → MsgSpec → Option (Outcome (List Str))}
    (hDescend : ∀ ctx spec out ctx', Consistent py ctx → Held py ctx spec → descend ctx spec = some (out, ctx') →
      Recorded py ctx spec.fullName out ctx')
    {package : Str} {types : List Str} (hProper : Proper (package, types)) (hWord : ∀ d ∈ dependsOf (package, types), Word d)
    {ctx ctx' : DependContext} (hCtx : Consistent py ctx) {out : Except DependError (List Str)}
    (h : dependLoop py path descend package types ctx = some (out, ctx')) :
    Consistent py ctx' ∧ Grows ctx ctx' ∧ ∀ depends, out = .ok depends →
      depends = dependsOf (package, types) ∧ ∀ d ∈ depends, (ctx'.dependencies d).isSome := by
  induction types generalizing ctx out with
  | nil =>
    cases h
    refine ⟨hCtx, .refl ctx', fun depends hOut => ?_⟩
    cases hOut
    exact ⟨rfl, fun d hd => absurd hd List.not_mem_nil⟩
  | cons type types ih =>
    rw [dependLoop] at h
    dsimp only at h
    split at h
    · rename_i hBuiltin
      rw [dependsOf_cons_builtin types hBuiltin] at hWord ⊢
      exact ih hProper.tail hWord hCtx h
    · rename_i hMessage
      have hCons := dependsOf_cons types (Bool.eq_false_iff.mpr hMessage)
      have hName : TypeName (resolveType (bareMsgType type) package) := hProper.typeName (hCons ▸ List.mem_cons_self)
      rw [hCons] at hWord ⊢
      generalize resolveType (bareMsgType type) package = name at h hName hWord
      obtain ⟨hNameWord, hWord⟩ := List.forall_mem_cons.mp hWord
      split at h
      · cases h
        exact ⟨hCtx, .refl ctx', fun depends hOut => by cases hOut⟩
      · rename_i spec between hRetrieve
        obtain ⟨hBetween, hGrows, hHeld, hFull⟩ := hCtx.retrieve hWords hName hNameWord hRetrieve
        have hDown : ∀ out ctx', (if (between.dependencies name).isSome then some (.ok [], between)
            else descend between spec : Option (Outcome (List Str))) = some (out, ctx') →
            Recorded py between name out ctx' := by
          intro out ctx' hStep
          split at hStep
          · rename_i hRecorded
            cases hStep
            exact ⟨hBetween, .refl between, fun _ => hRecorded⟩
          · exact hFull ▸ hDescend between spec out ctx' hBetween hHeld hStep
        generalize (if (between.dependencies name).isSome then some (.ok [], between)
            else descend between spec : Option (Outcome (List Str))) = down at h hDown
        split at h
        · cases h
        · rename_i e last
          cases h
          have hLast := hDown (.error e) ctx' rfl
          exact ⟨hLast.consistent, hGrows.trans hLast.grows, fun depends hOut => by cases hOut⟩
        · rename_i below last
          have hLast := hDown (.ok below) last rfl
          split at h
          · cases h
          · rename_i e final hLoop
            cases h
            obtain ⟨hConsistent, hMore, -⟩ := ih hProper.tail hWord hLast.consistent hLoop
            exact ⟨hConsistent, (hGrows.trans hLast.grows).trans hMore, fun depends hOut => by cases hOut⟩
          · rename_i depends final hLoop
            cases h
            obtain ⟨hConsistent, hMore, hResult⟩ := ih hProper.tail hWord hLast.consistent hLoop
            refine ⟨hConsistent, (hGrows.trans hLast.grows).trans hMore, fun ds hOut => ?_⟩
            cases hOut
            obtain ⟨rfl, hAll⟩ := hResult depends rfl
            exact ⟨rfl, List.forall_mem_cons.mpr ⟨hMore.recorded name (hLast.recorded rfl), hAll⟩⟩

theorem Consistent.loadMsgDepends (hWords : WordsUnbroken py) {fuel : Nat} {ctx ctx' : DependContext} {spec : MsgSpec}
    (hCtx : Consistent py ctx) (hHeld : Held py ctx spec) {out : Except DependError (List Str)}
    (h : loadMsgDepends py path fuel ctx spec = some (out, ctx')) : Recorded py ctx spec.fullName out ctx' := by
  induction fuel generalizing ctx ctx' spec out with
  | zero => cases h
  | succ fuel ih =>
    rw [Msg.loadMsgDepends] at h
    obtain ⟨package, baseType, hRegistered, hStored⟩ := hHeld
    split at h
    · cases h
    · rename_i e last hLoop
      cases h
      obtain ⟨hConsistent, hGrows, -⟩ :=
        dependLoop_recorded hWords (fun ctx spec out ctx' hCtx hHeld => ih hCtx hHeld) hStored.proper hStored.words hCtx hLoop
      exact ⟨hConsistent, hGrows, fun hOk => by cases hOk⟩
    · rename_i depends last hLoop
      rw [if_neg (fun hNil => absurd hStored.typeName.slash (by rw [hNil]; exact List.not_mem_nil))] at h
      cases h
      obtain ⟨hConsistent, hGrows, hResult⟩ :=
        dependLoop_recorded hWords (fun ctx spec out ctx' hCtx hHeld => ih hCtx hHeld) hStored.proper hStored.words hCtx hLoop
      obtain ⟨rfl, hAll⟩ := hResult depends rfl
      have hLast : Held py last spec := Held.mono ⟨package, baseType, hRegistered, hStored⟩ hGrows
      refine ⟨hConsistent.setDepends hLast hAll, ⟨hGrows.registered, fun name hName => ?_⟩, fun _ => ?_⟩
      · have hBefore := hGrows.recorded name hName
        rw [DependContext.setDepends]
        dsimp only
        split
        · rfl
        · exact hBefore
      · rw [DependContext.setDepends]
        dsimp only
        rw [if_pos rfl]
        rfl

theorem Loaded.consistent (hWords : WordsUnbroken py) {ctx : DependContext} (h : Loaded py ctx) : Consistent py ctx := by
  induction h with
  | fresh => exact (onlyBuiltins_createDefault py).consistent py
  | text _ hName hLoad hAgain ih =>
    obtain ⟨package, baseType, hStored, hFull, -, hMessages⟩ :=
      stored_of_load hWords hName.typeName (word_of_legal hWords hName.legal) hLoad
    exact ih.register hStored rfl hMessages (by rwa [hFull])
  | depends _ hName hSpec hDepends ih => exact (ih.loadMsgDepends hWords (ih.held hName.typeName hSpec).1 hDepends).consistent

/-! ## All dependencies -/

theorem Consistent.getAllDepends_ends {ctx : DependContext} (hCtx : Consistent py ctx) {name : Str}
    (hRecorded : (ctx.dependencies name).isSome) :
    ∃ fuel outcome, getAllDepends ctx.dependencies fuel name = some outcome := by
  refine exists_fuelled (getAllDepends_monotonic ctx.dependencies) (fun below name hRecorded hBelow => ?_)
    (hCtx.complete name hRecorded)
  obtain ⟨ds, hDs⟩ := Option.isSome_iff_exists.mp hRecorded
  rw [hDs] at hBelow ⊢
  exact extendAll_isSome hBelow

theorem Consistent.getAllDepends_mem {ctx : DependContext} (hCtx : Consistent py ctx) {fuel : Nat} {name : Str}
    (hRecorded : (ctx.dependencies name).isSome) {out : Except DependError (List Str)}
    (h : getAllDepends ctx.dependencies fuel name = some out) :
    ∃ all, out = .ok all ∧ ∀ d, d ∈ all ↔ TransGen (FieldOf ctx.messages) name d := by
  induction fuel generalizing name out with
  | zero => cases h
  | succ fuel ih =>
    obtain ⟨depends, hDepends⟩ := Option.isSome_iff_exists.mp hRecorded
    obtain ⟨spec, hHeld, rfl, rfl⟩ := hCtx.recorded name depends hDepends
    have hExtend : extendAll (getAllDepends ctx.dependencies fuel) (dependsOf spec.node) = some out := by
      rw [getAllDepends, fuelled, hDepends] at h
      exact h
    have hClosed : ∀ d ∈ dependsOf spec.node, (ctx.dependencies d).isSome := by
      intro d hd
      cases hCtx.complete spec.fullName hRecorded with
      | intro _ hCalls =>
        rw [hDepends] at hCalls
        cases hCalls d hd with
        | intro hSome _ => exact hSome
    obtain ⟨all, hOut, hMem⟩ := extendAll_mem (fun d hd out hBelow => ih (hClosed d hd) hBelow) hExtend
    refine ⟨all, hOut, fun d => ?_⟩
    rw [hMem, TransGen.head'_iff]
    constructor
    · rintro ⟨c, hc, hPath⟩
      exact ⟨c, ⟨spec, hHeld.getRegistered, hc⟩, hPath⟩
    · rintro ⟨c, ⟨spec', hSpec', hc⟩, hPath⟩
      cases hHeld.getRegistered.symm.trans hSpec'
      exact ⟨c, hc, hPath⟩

end XcRos.Msg
