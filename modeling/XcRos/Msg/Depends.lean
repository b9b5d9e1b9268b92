import XcRos.Foundation.Walk
import XcRos.Msg.Loader
import XcRos.Msg.Service

/-! # Loading dependencies

`load_msg_depends` takes the field types of a message in order, loads each that is not registered
yet, and descends into it as long as no dependencies are recorded for it; they are recorded behind
the descent. The walk over all definitions, without registration and record, gives up at the same
places and ends at the same time.
-/

namespace XcRos.Msg

open XcRos.Foundation

/-- `MsgNotFound`, what the loader raises, an assertion and `KeyError`. -/
inductive DependError where
  | msgNotFound (package baseType : Str)
  | load (e : LoadError)
  | noFullName
  | key (fullMsgType : Str)
deriving DecidableEq, Repr

/-- The directories of each package, and the files that can be read, with their texts. -/
structure SearchPath where
  packages : List (Str × List Str)
  files : List (Str × Str)

/-- `MsgContext` with the dependencies that are recorded in it. -/
structure DependContext where
  messages : MsgContext
  dependencies : Str → Option (List Str)

def DependContext.setDepends (ctx : DependContext) (fullMsgType : Str) (depends : List Str) : DependContext :=
  { ctx with dependencies := fun name => if name = fullMsgType then some depends else ctx.dependencies name }

/-- `os.path.join` -/
def joinPath (dir name : Str) : Str :=
  if dir = [] ∨ dir.getLast? = some '/' then dir ++ name else dir ++ '/' :: name

/-- `get_msg_file`; nothing is `MsgNotFound`. -/
def getMsgFile (path : SearchPath) (package baseType : Str) : Option Str :=
  (path.packages.lookup package).bind fun dirs =>
    (dirs.map (joinPath · (baseType ++ str ".msg"))).find? fun file => (path.files.lookup file).isSome

def resolveType (msgType packageContext : Str) : Str :=
  if isBuiltin (bareMsgType msgType) then msgType
  else if bareMsgType msgType = header then headerFullName
  else if '/' ∈ msgType then msgType
  else packageContext ++ '/' :: msgType

section

variable {F : Type} (py : Python F) (path : SearchPath)

/-- The context behind `load_msg_from_string`; it is left alone when that raises. -/
def loadInto (ctx : MsgContext) (text fullName : Str) : MsgContext :=
  match loadMsgFromString py ctx text fullName with
  | .error _ => ctx
  | .ok (_, ctx) => ctx

def timeMsg : Str := str "uint32 secs\nuint32 nsecs"

def durationMsg : Str := str "int32 secs\nint32 nsecs"

/-- `MsgContext.create_default` -/
def createDefault : MsgContext :=
  loadInto py (loadInto py .empty timeMsg (str "time")) durationMsg (str "duration")

def loadMsgByType (ctx : DependContext) (msgType : Str) : Except DependError (MsgSpec × DependContext) :=
  let msgType := if msgType = header then headerFullName else msgType
  match packageResourceName msgType with
  | none => .error (.load (.invalidName msgType))
  | some (package, baseType) =>
    match getMsgFile path package baseType with
    | none => .error (.msgNotFound package baseType)
    | some file =>
      match loadMsgFromString py ctx.messages ((path.files.lookup file).getD []) msgType with
      | .error e => .error (.load e)
      | .ok (loaded, messages) => .ok (loaded.spec, { ctx with messages })

/-- The specification of a field's type: the registered one, or else it is loaded and registered. -/
def retrieve (ctx : DependContext) (resolvedType : Str) : Except DependError (MsgSpec × DependContext) :=
  match packageResourceName (bareMsgType resolvedType) with
  | none => .error (.load (.invalidName resolvedType))
  | some (package, baseType) =>
    match ctx.messages.registered package baseType with
    | some spec => .ok (spec, ctx)
    | none =>
      match loadMsgByType py path ctx resolvedType with
      | .error e => .error e
      | .ok (spec, ctx) =>
        match ctx.messages.register resolvedType spec with
        | none => .error (.load (.invalidName resolvedType))
        | some messages => .ok (spec, { ctx with messages })

/-- A result, or what was raised, with the context as it is then. -/
abbrev Outcome (α : Type) : Type := Except DependError α × DependContext

/-- The loop over the field types; `descend` is the recursive call. -/
def dependLoop (descend : DependContext → MsgSpec → Option (Outcome (List Str))) (package : Str) :
    List Str → DependContext → Option (Outcome (List Str))
  | [], ctx => some (.ok [], ctx)
  | unresolvedType :: rest, ctx =>
    let resolvedType := resolveType (bareMsgType unresolvedType) package
    if isBuiltin resolvedType then dependLoop descend package rest ctx
    else
      match retrieve py path ctx resolvedType with
      | .error e => some (.error e, ctx)
      | .ok (depspec, ctx) =>
        let descended :=
          if (ctx.dependencies resolvedType).isSome then some (.ok [], ctx) else descend ctx depspec
        match descended with
        | none => none
        | some (.error e, ctx) => some (.error e, ctx)
        | some (.ok _, ctx) =>
          match dependLoop descend package rest ctx with
          | none => none
          | some (.error e, ctx) => some (.error e, ctx)
          | some (.ok depends, ctx) => some (.ok (resolvedType :: depends), ctx)

/-- `load_msg_depends` -/
def loadMsgDepends : Nat → DependContext → MsgSpec → Option (Outcome (List Str))
  | 0, _, _ => none
  | fuel + 1, ctx, spec =>
    match dependLoop py path (loadMsgDepends fuel) spec.package spec.types ctx with
    | none => none
    | some (.error e, ctx) => some (.error e, ctx)
    | some (.ok depends, ctx) =>
      if spec.fullName = [] then some (.error .noFullName, ctx)
      else some (.ok depends, ctx.setDepends spec.fullName depends)

/-- `load_depends` of a message or a service -/
def loadDepends (fuel : Nat) (ctx : DependContext) : MsgSpec ⊕ SrvSpec → Option (Outcome (List Str))
  | .inl spec => loadMsgDepends py path fuel ctx spec
  | .inr srv =>
    match loadMsgDepends py path fuel ctx srv.request with
    | none => none
    | some (.error e, ctx) => some (.error e, ctx)
    | some (.ok depends, ctx) =>
      match loadMsgDepends py path fuel ctx srv.response with
      | none => none
      | some (.error e, ctx) => some (.error e, ctx)
      | some (.ok more, ctx) => some (.ok (depends ++ more), ctx)

theorem loadDepends_message (fuel : Nat) (ctx : DependContext) (spec : MsgSpec) :
    loadDepends py path fuel ctx (.inl spec) = loadMsgDepends py path fuel ctx spec := by
  rw [loadDepends]

end

/-! ## The walk over the definitions -/

/-- What the dependencies of a message are resolved from: its package and field types. -/
abbrev Node := Str × List Str

def MsgSpec.node (spec : MsgSpec) : Node := (spec.package, spec.types)

def dependsOf (n : Node) : List Str :=
  (n.2.map fun type => resolveType (bareMsgType type) n.1).filter (!isBuiltin ·)

section

variable {F : Type} (py : Python F) (path : SearchPath)

def fileNode (package baseType : Str) : Option Node :=
  (getMsgFile path package baseType).bind fun file =>
    match loadMsgFromString py .empty ((path.files.lookup file).getD []) (package ++ '/' :: baseType) with
    | .ok (loaded, _) => some loaded.spec.node
    | .error _ => none

def defined (type : Str) : Option Node :=
  (packageResourceName type).bind fun key => fileNode py path key.1 key.2

def definedDepends (n : Node) : List (Option Node) := (dependsOf n).map (defined py path)

end

variable {F : Type} {py : Python F} {path : SearchPath}

/-! ## Names -/

/-- The full name of a message; nothing without a package is called like a builtin. -/
structure TypeName (name : Str) : Prop where
  slash : '/' ∈ name
  plain : '[' ∉ name
  message : ∀ base, packageResourceName name = some ([], base) → isBuiltin base = false

/-- A package and field types as the loader leaves them. -/
structure Proper (n : Node) : Prop where
  plain : '[' ∉ n.1
  slash : '/' ∉ n.1
  types : ∀ type ∈ n.2, (bareMsgType type).head? ≠ some '/'

theorem bareMsgType_of_not_mem {name : Str} (h : '[' ∉ name) : bareMsgType name = name :=
  List.takeWhile_eq_self_iff.mpr fun _ hc => decide_eq_true fun hEq => h (hEq ▸ hc)

theorem not_mem_bareMsgType (type : Str) : '[' ∉ bareMsgType type := fun h =>
  absurd (List.mem_takeWhile_imp h) (by decide)

theorem Proper.typeName {n : Node} (h : Proper n) {name : Str} (hName : name ∈ dependsOf n) : TypeName name := by
  obtain ⟨hMem, hMessage⟩ := List.mem_filter.mp hName
  obtain ⟨type, hType, rfl⟩ := List.mem_map.mp hMem
  have hBare := not_mem_bareMsgType type
  rw [resolveType, bareMsgType_bareMsgType] at hMessage ⊢
  split
  · rename_i hBuiltin
    rw [if_pos hBuiltin, hBuiltin] at hMessage
    cases hMessage
  · rename_i hBuiltin
    split
    · refine ⟨by decide, by decide, fun base hKey => ?_⟩
      rw [show packageResourceName headerFullName = some (str "std_msgs", str "Header") from rfl] at hKey
      cases hKey
    · split
      · rename_i hSlash
        refine ⟨hSlash, hBare, fun base hKey => ?_⟩
        obtain ⟨-, -, hText | ⟨hNone, -⟩⟩ := packageResourceName_eq_some hKey
        · exact absurd (by rw [hText]; rfl) (h.types type hType)
        · exact absurd hSlash hNone
      · rename_i hSlash
        refine ⟨List.mem_append_right _ List.mem_cons_self, fun hMem => ?_, fun base hKey => ?_⟩
        · obtain hMem | hMem := List.mem_append.mp hMem
          · exact h.plain hMem
          · obtain hEq | hMem := List.mem_cons.mp hMem
            · cases hEq
            · exact hBare hMem
        · rw [packageResourceName_append_cons h.slash hSlash] at hKey
          rw [← (Prod.mk.inj (Option.some.inj hKey)).2]
          exact Bool.eq_false_iff.mpr hBuiltin

theorem loadFieldLine_head {package line : Str} (hPlain : '[' ∉ package) (hPackage : '/' ∉ package)
    {field : Str × Str} (h : loadFieldLine py line package = .ok field) :
    (bareMsgType field.1).head? ≠ some '/' := by
  obtain ⟨fieldType, hLegal, hType⟩ := loadFieldLine_type h
  have hOwn : (bareMsgType fieldType).head? ≠ some '/' := by
    intro hHead
    obtain ⟨rest, hBare⟩ := List.head?_eq_some_iff.mp hHead
    rw [hBare] at hLegal
    cases hLegal
  rw [hType]
  obtain hHeader | ⟨hSome, hResolved⟩ | hKept := bareMsgType_resolveFieldType hPlain fieldType
  · rw [hHeader]
    decide
  · rw [hResolved, List.head?_append_of_ne_nil _ hSome]
    exact fun hHead => hPackage (List.mem_of_mem_head? hHead)
  · rwa [hKept]

/-! ## Loading one message -/

theorem load_node {ctx registered : MsgContext} {text name name' package baseType baseType' : Str}
    {loaded : LoadedSpec F} (hName : packageResourceName name = some (package, baseType))
    (hName' : packageResourceName name' = some (package, baseType'))
    (h : loadMsgFromString py ctx text name = .ok (loaded, registered)) (ctx' : MsgContext) :
    ∃ loaded' registered', loadMsgFromString py ctx' text name' = .ok (loaded', registered') ∧
      loaded'.spec.node = loaded.spec.node := by
  obtain ⟨package', shortName, ds, hOwn, hLines, hSpec, -⟩ := loadMsgFromString_eq_ok_iff.mp h
  cases hName.symm.trans hOwn
  obtain ⟨hWell, hDeclares, -, -, hPackage, -⟩ := specOf_eq_ok_iff.mp hSpec
  obtain ⟨loaded', registered', hLoad', hDeclares'⟩ := exists_load hName' hLines hWell ctx'
  obtain ⟨package', shortName', ds', hOwn', hLines', hSpec', -⟩ := loadMsgFromString_eq_ok_iff.mp hLoad'
  cases hName'.symm.trans hOwn'
  obtain ⟨-, -, -, -, hPackage', -⟩ := specOf_eq_ok_iff.mp hSpec'
  refine ⟨loaded', registered', hLoad', ?_⟩
  rw [MsgSpec.node, MsgSpec.node, hPackage, hPackage', hDeclares.types, hDeclares'.types]

theorem loadMsgByType_ok {ctx ctx' : DependContext} {msgType : Str} {spec : MsgSpec}
    (h : loadMsgByType py path ctx msgType = .ok (spec, ctx')) :
    ∃ package baseType, packageResourceName spec.fullName = some (package, baseType) ∧
      spec.fullName = (if msgType = header then headerFullName else msgType) ∧ spec.package = package ∧
      fileNode py path package baseType = some spec.node ∧
      ctx.messages.register spec.fullName spec = some ctx'.messages ∧ ctx'.dependencies = ctx.dependencies := by
  rw [loadMsgByType] at h
  generalize (if msgType = header then headerFullName else msgType) = name at h ⊢
  split at h
  · cases h
  · rename_i package baseType hName
    split at h
    · cases h
    · rename_i file hFile
      split at h
      · cases h
      · rename_i loaded messages hLoad
        cases h
        obtain ⟨_, _, ds, hOwn, hLines, hSpec, hRegister⟩ := loadMsgFromString_eq_ok_iff.mp hLoad
        cases hName.symm.trans hOwn
        obtain ⟨-, -, -, hFull, hPackage, -⟩ := specOf_eq_ok_iff.mp hSpec
        obtain ⟨hSlashPackage, hSlashBase, -⟩ := packageResourceName_eq_some hName
        obtain ⟨loaded', registered', hLoad', hNode⟩ :=
          load_node hName (packageResourceName_append_cons hSlashPackage hSlashBase) hLoad .empty
        refine ⟨package, baseType, hFull ▸ hName, hFull, hPackage, ?_, hFull ▸ hRegister, rfl⟩
        rw [fileNode, hFile, Option.bind_some, hLoad', ← hNode]

theorem exists_loadMsgByType {package baseType name : Str} {n : Node}
    (hName : packageResourceName name = some (package, baseType)) (hHeader : name ≠ header)
    (hFile : fileNode py path package baseType = some n) (ctx : DependContext) :
    ∃ spec ctx', loadMsgByType py path ctx name = .ok (spec, ctx') := by
  obtain ⟨file, hFound, hNode⟩ := Option.bind_eq_some_iff.mp hFile
  obtain ⟨hSlashPackage, hSlashBase, -⟩ := packageResourceName_eq_some hName
  split at hNode
  · rename_i loaded registered hLoad
    obtain ⟨loaded', registered', hLoad', -⟩ :=
      load_node (packageResourceName_append_cons hSlashPackage hSlashBase) hName hLoad ctx.messages
    refine ⟨loaded'.spec, { ctx with messages := registered' }, ?_⟩
    rw [loadMsgByType, if_neg hHeader, hName]
    dsimp only
    rw [hFound]
    dsimp only
    rw [hLoad']
  · cases hNode

/-! ## The contexts of a run -/

/-- A registered message: its name leads to it, and to its file. -/
structure Named (py : Python F) (path : SearchPath) (package baseType : Str) (spec : MsgSpec) : Prop where
  typeName : TypeName spec.fullName
  key : packageResourceName spec.fullName = some (package, baseType)
  file : fileNode py path package baseType = some spec.node
  proper : Proper spec.node

/-- What holds of a context into which messages and their dependencies were loaded. -/
structure Coherent (py : Python F) (path : SearchPath) (ctx : DependContext) : Prop where
  registered : ∀ package baseType spec, ctx.messages.registered package baseType = some spec →
    package = [] ∧ isBuiltin baseType = true ∨ Named py path package baseType spec
  finite : {spec | ∃ package baseType, ctx.messages.registered package baseType = some spec}.Finite
  recorded : ∀ name depends, ctx.dependencies name = some depends →
    ∃ n, defined py path name = some n ∧ Proper n ∧ Whole (definedDepends py path) n ∧ depends = dependsOf n ∧
      ∀ d ∈ depends, (ctx.dependencies d).isSome

structure Grows (ctx ctx' : DependContext) : Prop where
  registered : ∀ package baseType spec, ctx.messages.registered package baseType = some spec →
    ctx'.messages.registered package baseType = some spec
  recorded : ∀ name, (ctx.dependencies name).isSome → (ctx'.dependencies name).isSome

theorem Grows.refl (ctx : DependContext) : Grows ctx ctx := ⟨fun _ _ _ => id, fun _ => id⟩

theorem Grows.trans {ctx ctx' ctx'' : DependContext} (h : Grows ctx ctx') (h' : Grows ctx' ctx'') : Grows ctx ctx'' :=
  ⟨fun p b spec hSpec => h'.registered p b spec (h.registered p b spec hSpec),
    fun name hName => h'.recorded name (h.recorded name hName)⟩

def Registered (py : Python F) (path : SearchPath) (ctx : DependContext) (spec : MsgSpec) : Prop :=
  ∃ package baseType, ctx.messages.registered package baseType = some spec ∧ Named py path package baseType spec

theorem Registered.mono {ctx ctx' : DependContext} {spec : MsgSpec} (h : Registered py path ctx spec)
    (hGrows : Grows ctx ctx') : Registered py path ctx' spec := by
  obtain ⟨package, baseType, hSpec, hNamed⟩ := h
  exact ⟨package, baseType, hGrows.registered package baseType spec hSpec, hNamed⟩

theorem Named.defined {package baseType : Str} {spec : MsgSpec} (h : Named py path package baseType spec) :
    defined py path spec.fullName = some spec.node := by
  rw [Msg.defined, h.key, Option.bind_some, h.file]

theorem register_eq {messages : MsgContext} {name package baseType : Str} (hPlain : '[' ∉ name)
    (hKey : packageResourceName name = some (package, baseType)) (spec : MsgSpec) :
    messages.register name spec = some ⟨fun p b => if (p, b) = (package, baseType) then some spec else messages.registered p b⟩ := by
  rw [MsgContext.register, bareMsgType_of_not_mem hPlain, hKey]
  rfl

theorem TypeName.ne_header {name : Str} (h : TypeName name) : name ≠ header := by
  rintro rfl
  exact absurd h.slash (by decide)

theorem TypeName.eq_of_key {name package baseType : Str} (h : TypeName name)
    (hKey : packageResourceName name = some (package, baseType)) : name = package ++ '/' :: baseType := by
  obtain ⟨-, -, hText | ⟨hNone, -⟩⟩ := packageResourceName_eq_some hKey
  · exact hText
  · exact absurd h.slash hNone

theorem fileNode_proper {package baseType : Str} {n : Node} (hPlain : '[' ∉ package) (hSlash : '/' ∉ package)
    (hBase : '/' ∉ baseType) (h : fileNode py path package baseType = some n) : Proper n := by
  obtain ⟨file, -, hNode⟩ := Option.bind_eq_some_iff.mp h
  split at hNode
  · rename_i loaded registered hLoad
    cases hNode
    obtain ⟨package', _, ds, hName, hLines, hSpec, -⟩ := loadMsgFromString_eq_ok_iff.mp hLoad
    cases (packageResourceName_append_cons hSlash hBase).symm.trans hName
    obtain ⟨-, hDeclares, -, -, hPackage, -⟩ := specOf_eq_ok_iff.mp hSpec
    refine ⟨?_, ?_, ?_⟩
    · rwa [MsgSpec.node, hPackage]
    · rwa [MsgSpec.node, hPackage]
    · rw [MsgSpec.node, hDeclares.types]
      exact loadLines_types (fun _ _ hField => loadFieldLine_head hPlain hSlash hField) hLines
  · cases hNode

theorem loadMsgByType_named {ctx ctx' : DependContext} {msgType : Str} {spec : MsgSpec}
    (hName : TypeName msgType ∨ msgType = header) (h : loadMsgByType py path ctx msgType = .ok (spec, ctx')) :
    ∃ package baseType, Named py path package baseType spec ∧ ctx'.dependencies = ctx.dependencies ∧
      ctx'.messages = ⟨fun p b => if (p, b) = (package, baseType) then some spec else ctx.messages.registered p b⟩ := by
  obtain ⟨package, baseType, hKey, hFull, hPackage, hFile, hRegister, hDependencies⟩ := loadMsgByType_ok h
  have hType : TypeName spec.fullName := by
    rw [hFull]
    obtain hName | rfl := hName
    · rwa [if_neg hName.ne_header]
    · rw [if_pos rfl]
      refine ⟨by decide, by decide, fun base hBase => ?_⟩
      rw [show packageResourceName headerFullName = some (str "std_msgs", str "Header") from rfl] at hBase
      cases hBase
  obtain ⟨hSlash, hBase, -⟩ := packageResourceName_eq_some hKey
  have hPlain : '[' ∉ package := fun hMem =>
    hType.plain (hType.eq_of_key hKey ▸ List.mem_append_left _ hMem)
  have hProper := fileNode_proper hPlain hSlash hBase hFile
  refine ⟨package, baseType, ⟨hType, hKey, hFile, hProper⟩, hDependencies, ?_⟩
  rw [register_eq hType.plain hKey] at hRegister
  exact (Option.some.inj hRegister).symm

theorem Coherent.register {ctx ctx' : DependContext} (h : Coherent py path ctx) {package baseType : Str} {spec : MsgSpec}
    (hNamed : Named py path package baseType spec) (hDependencies : ctx'.dependencies = ctx.dependencies)
    (hMessages : ctx'.messages =
      ⟨fun p b => if (p, b) = (package, baseType) then some spec else ctx.messages.registered p b⟩) :
    Coherent py path ctx' := by
  refine ⟨fun p b registered hRegistered => ?_, ?_, ?_⟩
  · rw [hMessages] at hRegistered
    dsimp only at hRegistered
    split at hRegistered
    · rename_i hKey
      cases hKey
      cases hRegistered
      exact Or.inr hNamed
    · exact h.registered p b registered hRegistered
  · refine (h.finite.insert spec).subset ?_
    rintro registered ⟨p, b, hRegistered⟩
    rw [hMessages] at hRegistered
    dsimp only at hRegistered
    split at hRegistered
    · cases hRegistered
      exact Set.mem_insert _ _
    · exact Set.mem_insert_of_mem _ ⟨p, b, hRegistered⟩
  · rw [hDependencies]
    exact h.recorded

structure Retrieved (py : Python F) (path : SearchPath) (ctx : DependContext) (name : Str) (spec : MsgSpec)
    (ctx' : DependContext) : Prop where
  coherent : Coherent py path ctx'
  grows : Grows ctx ctx'
  dependencies : ctx'.dependencies = ctx.dependencies
  registered : Registered py path ctx' spec
  fullName : spec.fullName = name

theorem Coherent.retrieve_ok {ctx ctx' : DependContext} (hCtx : Coherent py path ctx) {name : Str} (hName : TypeName name)
    {spec : MsgSpec} (h : retrieve py path ctx name = .ok (spec, ctx')) : Retrieved py path ctx name spec ctx' := by
  rw [retrieve, bareMsgType_of_not_mem hName.plain] at h
  split at h
  · cases h
  · rename_i package baseType hKey
    split at h
    · rename_i hRegistered
      cases h
      obtain ⟨rfl, hBuiltin⟩ | hNamed := hCtx.registered package baseType spec hRegistered
      · rw [hName.message baseType hKey] at hBuiltin
        cases hBuiltin
      · have hFull : spec.fullName = name := by
          rw [hNamed.typeName.eq_of_key hNamed.key, hName.eq_of_key hKey]
        exact ⟨hCtx, .refl ctx, rfl, ⟨package, baseType, hRegistered, hNamed⟩, hFull⟩
    · rename_i hNone
      split at h
      · cases h
      · rename_i loaded between hLoad
        obtain ⟨package', baseType', hNamed, hDependencies, hMessages⟩ := loadMsgByType_named (.inl hName) hLoad
        obtain ⟨-, -, -, hFull, -⟩ := loadMsgByType_ok hLoad
        rw [if_neg hName.ne_header] at hFull
        have hSame : (package', baseType') = (package, baseType) := by
          have hOwn := hNamed.key
          rw [hFull, hKey] at hOwn
          exact (Option.some.inj hOwn).symm
        cases hSame
        rw [register_eq hName.plain hKey] at h
        cases h
        -- the second registration changes nothing
        have hTwice : (⟨fun p b => if (p, b) = (package, baseType) then some spec else between.messages.registered p b⟩ :
            MsgContext) = between.messages := by
          rw [hMessages]
          congr 1
          funext p b
          dsimp only
          split <;> rfl
        rw [hTwice]
        have hCoherent := hCtx.register hNamed hDependencies hMessages
        have hOwn : between.messages.registered package baseType = some spec := by
          rw [hMessages]
          exact if_pos rfl
        refine ⟨hCoherent, ⟨fun p b other hOther => ?_, fun _ h => hDependencies ▸ h⟩, hDependencies,
          ⟨package, baseType, hOwn, hNamed⟩, hFull⟩
        rw [hMessages]
        dsimp only
        rw [if_neg, hOther]
        rintro hEq
        cases hEq
        rw [hNone] at hOther
        cases hOther

theorem Coherent.retrieve_error {ctx : DependContext} (hCtx : Coherent py path ctx) {name : Str} (hName : TypeName name)
    {e : DependError} (h : retrieve py path ctx name = .error e) : defined py path name = none := by
  rw [retrieve, bareMsgType_of_not_mem hName.plain] at h
  rw [defined]
  split at h
  · rename_i hKey
    rw [hKey]
    rfl
  · rename_i package baseType hKey
    rw [hKey, Option.bind_some]
    split at h
    · cases h
    · cases hFile : fileNode py path package baseType with
      | none => rfl
      | some n =>
        obtain ⟨spec, between, hLoad⟩ := exists_loadMsgByType hKey hName.ne_header hFile ctx
        rw [hLoad] at h
        dsimp only at h
        rw [register_eq hName.plain hKey] at h
        cases h

/-! ## The recursion against the walk -/

theorem dependsOf_cons_builtin {package type : Str} (types : List Str)
    (h : isBuiltin (resolveType (bareMsgType type) package) = true) :
    dependsOf (package, type :: types) = dependsOf (package, types) := by
  rw [dependsOf, List.map_cons, List.filter_cons_of_neg (by simpa using h), dependsOf]

theorem dependsOf_cons {package type : Str} (types : List Str)
    (h : isBuiltin (resolveType (bareMsgType type) package) = false) :
    dependsOf (package, type :: types) = resolveType (bareMsgType type) package :: dependsOf (package, types) := by
  rw [dependsOf, List.map_cons, List.filter_cons_of_pos (by simpa using h), dependsOf]

theorem Proper.tail {package type : Str} {types : List Str} (h : Proper (package, type :: types)) :
    Proper (package, types) :=
  ⟨h.plain, h.slash, fun t ht => h.types t (List.mem_cons_of_mem type ht)⟩

structure Descended (py : Python F) (path : SearchPath) (ctx : DependContext) (spec : MsgSpec)
    (out : Except DependError (List Str)) (ctx' : DependContext) : Prop where
  coherent : Coherent py path ctx'
  grows : Grows ctx ctx'
  walk : ∃ more, walk (definedDepends py path) more spec.node = some out.isOk
  result : ∀ depends, out = .ok depends →
    depends = dependsOf spec.node ∧ (ctx'.dependencies spec.fullName).isSome

structure Looped (py : Python F) (path : SearchPath) (ctx : DependContext) (n : Node)
    (out : Except DependError (List Str)) (ctx' : DependContext) : Prop where
  coherent : Coherent py path ctx'
  grows : Grows ctx ctx'
  visit : ∃ more, visit (walk (definedDepends py path) more) (definedDepends py path n) = some out.isOk
  result : ∀ depends, out = .ok depends → depends = dependsOf n ∧ ∀ d ∈ depends, (ctx'.dependencies d).isSome

theorem down_spec {descend : DependContext → MsgSpec → Option (Outcome (List Str))}
    (hDescend : ∀ ctx spec out ctx', Coherent py path ctx → Registered py path ctx spec →
      descend ctx spec = some (out, ctx') → Descended py path ctx spec out ctx')
    {ctx between : DependContext} {name : Str} {spec : MsgSpec}
    (hRetrieved : Retrieved py path ctx name spec between) (out : Except DependError (List Str)) (ctx' : DependContext)
    (h : (if (between.dependencies name).isSome then some (.ok [], between) else descend between spec) =
      some (out, ctx')) :
    Coherent py path ctx' ∧ Grows between ctx' ∧
      (∃ more, walk (definedDepends py path) more spec.node = some out.isOk) ∧
      (out.isOk = true → (ctx'.dependencies name).isSome) := by
  split at h
  · rename_i hRecorded
    cases h
    obtain ⟨depends, hDepends⟩ := Option.isSome_iff_exists.mp hRecorded
    obtain ⟨n, hDefined, -, hWhole, -⟩ := hRetrieved.coherent.recorded name depends hDepends
    obtain ⟨package, baseType, -, hNamed⟩ := hRetrieved.registered
    have hNode := hNamed.defined
    rw [hRetrieved.fullName, hDefined] at hNode
    cases hNode
    exact ⟨hRetrieved.coherent, .refl between, hWhole.walk, fun _ => hRecorded⟩
  · obtain ⟨hCoherent, hGrows, hWalk, hResult⟩ :=
      hDescend between spec out ctx' hRetrieved.coherent hRetrieved.registered h
    refine ⟨hCoherent, hGrows, hWalk, fun hOk => ?_⟩
    cases out with
    | error e => cases hOk
    | ok depends => exact hRetrieved.fullName ▸ (hResult depends rfl).2

theorem dependLoop_spec {descend : DependContext → MsgSpec → Option (Outcome (List Str))}
    (hDescend : ∀ ctx spec out ctx', Coherent py path ctx → Registered py path ctx spec →
      descend ctx spec = some (out, ctx') → Descended py path ctx spec out ctx')
    {package : Str} {types : List Str} (hProper : Proper (package, types)) {ctx ctx' : DependContext}
    (hCtx : Coherent py path ctx) {out : Except DependError (List Str)}
    (h : dependLoop py path descend package types ctx = some (out, ctx')) :
    Looped py path ctx (package, types) out ctx' := by
  induction types generalizing ctx out ctx' with
  | nil =>
    cases h
    exact ⟨hCtx, .refl ctx, ⟨0, rfl⟩, fun depends hOut => by cases hOut; exact ⟨rfl, fun d hd => absurd hd List.not_mem_nil⟩⟩
  | cons type types ih =>
    rw [dependLoop] at h
    dsimp only at h
    split at h
    · rename_i hBuiltin
      obtain ⟨hCoherent, hGrows, hVisit, hResult⟩ := ih hProper.tail hCtx h
      rw [definedDepends, ← dependsOf_cons_builtin types hBuiltin, ← definedDepends] at hVisit
      rw [← dependsOf_cons_builtin types hBuiltin] at hResult
      exact ⟨hCoherent, hGrows, hVisit, hResult⟩
    · rename_i hMessage
      have hCons := dependsOf_cons types (Bool.eq_false_iff.mpr hMessage)
      have hName : TypeName (resolveType (bareMsgType type) package) :=
        hProper.typeName (hCons ▸ List.mem_cons_self)
      have hChildren : definedDepends py path (package, type :: types) =
          defined py path (resolveType (bareMsgType type) package) :: definedDepends py path (package, types) := by
        rw [definedDepends, hCons, List.map_cons, definedDepends]
      generalize resolveType (bareMsgType type) package = name at h hName hChildren hCons
      split at h
      · rename_i e hRetrieve
        cases h
        refine ⟨hCtx, .refl ctx, ⟨0, ?_⟩, fun depends hOut => by cases hOut⟩
        rw [hChildren, hCtx.retrieve_error hName hRetrieve]
        rfl
      · rename_i spec between hRetrieve
        have hRetrieved := hCtx.retrieve_ok hName hRetrieve
        obtain ⟨package', baseType, hRegistered, hNamed⟩ := hRetrieved.registered
        have hDefined := hNamed.defined
        rw [hRetrieved.fullName] at hDefined
        have hDown := down_spec hDescend hRetrieved
        generalize (if (between.dependencies name).isSome then some (.ok [], between)
            else descend between spec : Option (Outcome (List Str))) = down at h hDown
        split at h
        · cases h
        · rename_i e last
          cases h
          obtain ⟨hCoherent, hGrows, ⟨more, hWalk⟩, -⟩ := hDown (.error e) ctx' rfl
          refine ⟨hCoherent, hRetrieved.grows.trans hGrows, ⟨more, ?_⟩, fun depends hOut => by cases hOut⟩
          rw [hChildren, hDefined, visit, hWalk]
          rfl
        · rename_i below last
          obtain ⟨hCoherent, hGrows, ⟨more, hWalk⟩, hRecorded⟩ := hDown (.ok below) last rfl
          have hTrue : walk (definedDepends py path) more spec.node = some true := hWalk
          split at h
          · cases h
          · rename_i e final hLoop
            cases h
            obtain ⟨hCoherent', hGrows', ⟨more', hVisit⟩, -⟩ := ih hProper.tail hCoherent hLoop
            refine ⟨hCoherent', (hRetrieved.grows.trans hGrows).trans hGrows', ⟨max more more', ?_⟩,
              fun depends hOut => by cases hOut⟩
            rw [hChildren, hDefined, visit, walk_le (Nat.le_max_left more more') hTrue]
            exact visit_le (fun _ _ => walk_le (Nat.le_max_right more more')) hVisit
          · rename_i depends final hLoop
            cases h
            obtain ⟨hCoherent', hGrows', ⟨more', hVisit⟩, hResult⟩ := ih hProper.tail hCoherent hLoop
            refine ⟨hCoherent', (hRetrieved.grows.trans hGrows).trans hGrows', ⟨max more more', ?_⟩, fun ds hOut => ?_⟩
            · rw [hChildren, hDefined, visit, walk_le (Nat.le_max_left more more') hTrue]
              exact visit_le (fun _ _ => walk_le (Nat.le_max_right more more')) hVisit
            · cases hOut
              obtain ⟨rfl, hAll⟩ := hResult depends rfl
              exact ⟨hCons.symm, List.forall_mem_cons.mpr ⟨hGrows'.recorded name (hRecorded rfl), hAll⟩⟩

theorem loadMsgDepends_spec {fuel : Nat} {ctx ctx' : DependContext} {spec : MsgSpec} (hCtx : Coherent py path ctx)
    (hSpec : Registered py path ctx spec) {out : Except DependError (List Str)}
    (h : loadMsgDepends py path fuel ctx spec = some (out, ctx')) : Descended py path ctx spec out ctx' := by
  induction fuel generalizing ctx ctx' spec out with
  | zero => cases h
  | succ fuel ih =>
    rw [loadMsgDepends] at h
    obtain ⟨package, baseType, hRegistered, hNamed⟩ := hSpec
    split at h
    · cases h
    · rename_i e last hLoop
      cases h
      obtain ⟨hCoherent, hGrows, ⟨more, hVisit⟩, -⟩ :=
        dependLoop_spec (fun ctx spec out ctx' hCtx hSpec => ih hCtx hSpec) hNamed.proper hCtx hLoop
      exact ⟨hCoherent, hGrows, ⟨more + 1, hVisit⟩, fun depends hOut => by cases hOut⟩
    · rename_i depends last hLoop
      rw [if_neg (fun hNil => absurd hNamed.typeName.slash (by rw [hNil]; exact List.not_mem_nil))] at h
      cases h
      obtain ⟨hCoherent, hGrows, ⟨more, hVisit⟩, hResult⟩ :=
        dependLoop_spec (fun ctx spec out ctx' hCtx hSpec => ih hCtx hSpec) hNamed.proper hCtx hLoop
      have hWalk : walk (definedDepends py path) (more + 1) spec.node = some true := hVisit
      obtain ⟨hDepends, hAll⟩ := hResult depends rfl
      have hRecord : ∀ name, (last.dependencies name).isSome →
          ((last.setDepends spec.fullName depends).dependencies name).isSome := by
        intro name hName
        rw [DependContext.setDepends]
        dsimp only
        split
        · rfl
        · exact hName
      refine ⟨⟨hCoherent.registered, hCoherent.finite, fun name ds hName => ?_⟩, ⟨hGrows.registered, fun name hName => ?_⟩,
        ⟨more + 1, hWalk⟩, fun ds hOut => ?_⟩
      · rw [DependContext.setDepends] at hName
        dsimp only at hName
        split at hName
        · rename_i hOwn
          cases hName
          rw [hOwn]
          exact ⟨spec.node, hNamed.defined, hNamed.proper, whole_of_walk hWalk, hDepends, fun d hd => hRecord d (hAll d hd)⟩
        · obtain ⟨n, hDefined, hProper, hWhole, hEq, hClosed⟩ := hCoherent.recorded name ds hName
          exact ⟨n, hDefined, hProper, hWhole, hEq, fun d hd => hRecord d (hClosed d hd)⟩
      · exact hRecord name (hGrows.recorded name hName)
      · cases hOut
        refine ⟨hDepends, ?_⟩
        rw [DependContext.setDepends]
        dsimp only
        rw [if_pos rfl]
        rfl

theorem dependLoop_ends {fuel : Nat}
    (hEnds : ∀ ctx spec r, Coherent py path ctx → Registered py path ctx spec →
      walk (definedDepends py path) fuel spec.node = some r →
      ∃ out ctx', loadMsgDepends py path fuel ctx spec = some (out, ctx'))
    {package : Str} {types : List Str} (hProper : Proper (package, types)) {ctx : DependContext}
    (hCtx : Coherent py path ctx) {r : Bool}
    (h : visit (walk (definedDepends py path) fuel) (definedDepends py path (package, types)) = some r) :
    ∃ out ctx', dependLoop py path (loadMsgDepends py path fuel) package types ctx = some (out, ctx') := by
  induction types generalizing ctx with
  | nil => exact ⟨_, _, rfl⟩
  | cons type types ih =>
    rw [dependLoop]
    dsimp only
    split
    · rename_i hBuiltin
      rw [definedDepends, dependsOf_cons_builtin types hBuiltin, ← definedDepends] at h
      exact ih hProper.tail hCtx h
    · rename_i hMessage
      have hCons := dependsOf_cons types (Bool.eq_false_iff.mpr hMessage)
      have hName : TypeName (resolveType (bareMsgType type) package) :=
        hProper.typeName (hCons ▸ List.mem_cons_self)
      rw [definedDepends, hCons, List.map_cons, ← definedDepends] at h
      generalize resolveType (bareMsgType type) package = name at h hName
      cases hRetrieve : retrieve py path ctx name with
      | error e => exact ⟨_, _, rfl⟩
      | ok retrieved =>
        obtain ⟨spec, between⟩ := retrieved
        have hRetrieved := hCtx.retrieve_ok hName hRetrieve
        obtain ⟨package', baseType, -, hNamed⟩ := hRetrieved.registered
        have hDefined := hNamed.defined
        rw [hRetrieved.fullName] at hDefined
        rw [hDefined, visit] at h
        obtain ⟨found, hFound⟩ : ∃ found, walk (definedDepends py path) fuel spec.node = some found := by
          cases hWalk : walk (definedDepends py path) fuel spec.node with
          | none =>
            rw [hWalk] at h
            cases h
          | some found => exact ⟨found, rfl⟩
        obtain ⟨out, last, hDown⟩ : ∃ out last, (if (between.dependencies name).isSome then some (.ok [], between)
            else loadMsgDepends py path fuel between spec : Option (Outcome (List Str))) = some (out, last) := by
          split
          · exact ⟨_, _, rfl⟩
          · exact hEnds between spec found hRetrieved.coherent hRetrieved.registered hFound
        dsimp only
        rw [hDown]
        cases out with
        | error e => exact ⟨_, _, rfl⟩
        | ok below =>
          obtain ⟨hCoherent, -, ⟨more, hWalk⟩, -⟩ :=
            down_spec (fun _ _ _ _ hCtx hSpec h => loadMsgDepends_spec hCtx hSpec h) hRetrieved (.ok below) last hDown
          have hTrue : found = true := (whole_of_walk hWalk).eq_true hFound
          rw [hFound, hTrue] at h
          obtain ⟨out, last, hLoop⟩ := ih hProper.tail hCoherent h
          dsimp only
          rw [hLoop]
          cases out with
          | error e => exact ⟨_, _, rfl⟩
          | ok depends => exact ⟨_, _, rfl⟩

theorem loadMsgDepends_ends {fuel : Nat} {ctx : DependContext} {spec : MsgSpec} (hCtx : Coherent py path ctx)
    (hSpec : Registered py path ctx spec) {r : Bool} (h : walk (definedDepends py path) fuel spec.node = some r) :
    ∃ out ctx', loadMsgDepends py path fuel ctx spec = some (out, ctx') := by
  induction fuel generalizing ctx spec r with
  | zero => cases h
  | succ fuel ih =>
    obtain ⟨package, baseType, -, hNamed⟩ := hSpec
    obtain ⟨out, last, hLoop⟩ := dependLoop_ends (fun _ _ _ hCtx hSpec hWalk => ih hCtx hSpec hWalk) hNamed.proper hCtx h
    rw [loadMsgDepends, hLoop]
    cases out with
    | error e => exact ⟨_, _, rfl⟩
    | ok depends =>
      dsimp only
      split
      · exact ⟨_, _, rfl⟩
      · exact ⟨_, _, rfl⟩

/-! ## How many definitions there are -/

def declared (py : Python F) (package text : Str) : Option Node :=
  match loadMsgFromString py .empty text (package ++ ['/']) with
  | .ok (loaded, _) => some loaded.spec.node
  | .error _ => none

theorem finite_defined (py : Python F) (path : SearchPath) : {n | ∃ name, defined py path name = some n}.Finite := by
  let nodes := path.packages.flatMap fun entry => path.files.filterMap fun file => declared py entry.1 file.2
  refine (List.finite_toSet nodes).subset ?_
  rintro n ⟨name, hDefined⟩
  obtain ⟨⟨package, baseType⟩, hKey, hFile⟩ := Option.bind_eq_some_iff.mp hDefined
  obtain ⟨hSlash, hBase, -⟩ := packageResourceName_eq_some hKey
  obtain ⟨file, hFound, hNode⟩ := Option.bind_eq_some_iff.mp hFile
  obtain ⟨dirs, hDirs, hFind⟩ := Option.bind_eq_some_iff.mp hFound
  have hReadable : (path.files.lookup file).isSome = true := by simpa using List.find?_some hFind
  obtain ⟨text, hText⟩ := Option.isSome_iff_exists.mp hReadable
  rw [hText, Option.getD_some] at hNode
  obtain ⟨front, back, hPackages, -⟩ := List.lookup_eq_some_iff.mp hDirs
  obtain ⟨front', back', hFiles, -⟩ := List.lookup_eq_some_iff.mp hText
  split at hNode
  · rename_i loaded registered hLoad
    cases hNode
    obtain ⟨loaded', registered', hLoad', hSame⟩ := load_node (packageResourceName_append_cons hSlash hBase)
      (packageResourceName_append_cons hSlash List.not_mem_nil) hLoad .empty
    refine List.mem_flatMap.mpr ⟨(package, dirs), ?_, List.mem_filterMap.mpr ⟨(file, text), ?_, ?_⟩⟩
    · rw [hPackages]
      exact List.mem_append_right _ List.mem_cons_self
    · rw [hFiles]
      exact List.mem_append_right _ List.mem_cons_self
    · rw [declared, hLoad', ← hSame]
  · cases hNode

theorem finite_entered (n : Node) : {m | Relation.ReflTransGen (Enters (definedDepends py path)) n m}.Finite := by
  refine ((Set.finite_singleton n).union (finite_defined py path)).subset ?_
  intro m hPath
  induction hPath with
  | refl => exact Or.inl rfl
  | tail _ hStep _ =>
    obtain ⟨front, back, hNext, -⟩ := hStep
    have hMem : some _ ∈ definedDepends py path _ := hNext ▸ List.mem_append_right _ List.mem_cons_self
    obtain ⟨name, -, hDefined⟩ := List.mem_map.mp hMem
    exact Or.inr ⟨name, hDefined⟩

theorem loadMsgDepends_ends_iff {ctx : DependContext} {spec : MsgSpec} (hCtx : Coherent py path ctx)
    (hSpec : Registered py path ctx spec) :
    (∃ fuel outcome, loadMsgDepends py path fuel ctx spec = some outcome) ↔
      ∀ n, Relation.ReflTransGen (Enters (definedDepends py path)) spec.node n →
        ¬ Relation.TransGen (Enters (definedDepends py path)) n n := by
  rw [← walk_ends_iff (finite_entered spec.node)]
  constructor
  · rintro ⟨fuel, ⟨out, ctx'⟩, h⟩
    obtain ⟨more, hWalk⟩ := (loadMsgDepends_spec hCtx hSpec h).walk
    exact ⟨more, _, hWalk⟩
  · rintro ⟨fuel, r, hWalk⟩
    obtain ⟨out, ctx', h⟩ := loadMsgDepends_ends hCtx hSpec hWalk
    exact ⟨fuel, _, h⟩

end XcRos.Msg
