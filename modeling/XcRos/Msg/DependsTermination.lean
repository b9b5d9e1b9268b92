import XcRos.Msg.Depends

/-! # What ends in a context of definitions

`load_depends`, `get_all_depends` and `compute_md5` each recurse on their own. The first ends unless
it enters a cycle of definitions, the last unless it enters one of registered messages; what the
first records is complete and without cycles.
-/

namespace XcRos.Msg

open XcRos.Foundation Relation

/-! ## All dependencies -/

/-- The loop of `get_all_depends`: each type, and behind it what it depends on. -/
def extendAll (below : Str → Option (Except DependError (List Str))) :
    List Str → Option (Except DependError (List Str))
  | [] => some (.ok [])
  | d :: rest =>
    match below d with
    | none => none
    | some (.error e) => some (.error e)
    | some (.ok deps) =>
      match extendAll below rest with
      | none => none
      | some (.error e) => some (.error e)
      | some (.ok all) => some (.ok (d :: (deps ++ all)))

/-- `get_all_depends` -/
def getAllDepends (dependencies : Str → Option (List Str)) : Nat → Str → Option (Except DependError (List Str)) :=
  fuelled fun below fullMsgType =>
    match dependencies fullMsgType with
    | none => some (.error (.key fullMsgType))
    | some depends => extendAll below depends

/-! ## The md5, with what is raised -/

section

variable (sub : MsgSpec → Option (Except DependError Str)) (ctx : MsgContext)

/-- As `writtenType`, with what is raised. -/
def writeType (type : Str) : Option (Except DependError Str) :=
  let msgType := bareMsgType type
  if isBuiltin msgType then some (.ok type)
  else
    match packageResourceName msgType with
    | none => some (.error (.load (.invalidName msgType)))
    | some _ =>
      match ctx.getRegistered msgType with
      | none => some (.error (.key msgType))
      | some spec => sub spec

def writeFields : List (Str × Str) → Option (Except DependError (List Str))
  | [] => some (.ok [])
  | (type, name) :: rest =>
    match writeType sub ctx type with
    | none => none
    | some (.error e) => some (.error e)
    | some (.ok written) =>
      match writeFields rest with
      | none => none
      | some (.error e) => some (.error e)
      | some (.ok lines) => some (.ok ((written ++ ' ' :: name) :: lines))

end

/-- `compute_md5` of a message, with what is raised. -/
def md5Outcome (hash : Str → Str) (ctx : MsgContext) : Nat → MsgSpec → Option (Except DependError Str) :=
  fuelled fun sub spec =>
    (writeFields sub ctx spec.fields).map fun out => out.map fun lines =>
      hash (strip (terminated '\n' (spec.constants.map constantLine ++ lines)))

def md5Children (ctx : MsgContext) (spec : MsgSpec) : List (Option MsgSpec) :=
  (spec.types.filter fun type => !isBuiltin (bareMsgType type)).map fun type => ctx.getRegistered (bareMsgType type)

variable {hash : Str → Str} {ctx : MsgContext}

theorem writeFields_visit (sub : MsgSpec → Option (Except DependError Str)) (fields : List (Str × Str)) :
    (writeFields sub ctx fields).map Except.isOk =
      visit (fun spec => (sub spec).map Except.isOk)
        (((fields.map Prod.fst).filter fun type => !isBuiltin (bareMsgType type)).map fun type =>
          ctx.getRegistered (bareMsgType type)) := by
  induction fields with
  | nil => rfl
  | cons field fields ih =>
    obtain ⟨type, name⟩ := field
    have hRest (written : Str) : Option.map Except.isOk (match writeFields sub ctx fields with
        | none => none
        | some (.error e) => some (.error e)
        | some (.ok lines) => some (.ok ((written ++ ' ' :: name) :: lines))) =
        (writeFields sub ctx fields).map Except.isOk := by
      cases writeFields sub ctx fields with
      | none => rfl
      | some out => cases out <;> rfl
    rw [writeFields, writeType]
    cases hBuiltin : isBuiltin (bareMsgType type) with
    | true =>
      rw [if_pos rfl, List.map_cons, List.filter_cons_of_neg (by simp [hBuiltin]), ← ih]
      exact hRest type
    | false =>
      rw [if_neg (by decide), List.map_cons, List.filter_cons_of_pos (by simp [hBuiltin]), List.map_cons]
      cases hRegistered : ctx.getRegistered (bareMsgType type) with
      | none => cases packageResourceName (bareMsgType type) <;> rfl
      | some spec =>
        obtain ⟨key, hKey⟩ := packageResourceName_of_registered hRegistered
        rw [hKey, visit]
        dsimp only
        cases sub spec with
        | none => rfl
        | some out =>
          cases out with
          | error e => rfl
          | ok written => exact (hRest written).trans ih

theorem md5Outcome_walk (fuel : Nat) (spec : MsgSpec) :
    (md5Outcome hash ctx fuel spec).map Except.isOk = walk (md5Children ctx) fuel spec := by
  induction fuel generalizing spec with
  | zero => rfl
  | succ fuel ih =>
    have hOutcome : md5Outcome hash ctx (fuel + 1) spec =
        (writeFields (md5Outcome hash ctx fuel) ctx spec.fields).map fun out => out.map fun lines =>
          hash (strip (terminated '\n' (spec.constants.map constantLine ++ lines))) := rfl
    have hTypes : spec.fields.map Prod.fst = spec.types := by
      rw [MsgSpec.fields, List.map_fst_zip (Nat.le_of_eq spec.sameLength)]
    have hVisit := @writeFields_visit ctx (md5Outcome hash ctx fuel) spec.fields
    rw [hTypes, ← md5Children, funext ih] at hVisit
    have hWalk : walk (md5Children ctx) (fuel + 1) spec = visit (walk (md5Children ctx) fuel) (md5Children ctx spec) := rfl
    rw [hOutcome, hWalk, ← hVisit]
    cases writeFields (md5Outcome hash ctx fuel) ctx spec.fields with
    | none => rfl
    | some out => cases out <;> rfl

/-! ## What is recorded -/

variable {F : Type} {py : Python F} {path : SearchPath}

def DependsOn (py : Python F) (path : SearchPath) (name dependency : Str) : Prop :=
  ∃ n, defined py path name = some n ∧ dependency ∈ dependsOf n

theorem extendAll_isSome {below : Str → Option (Except DependError (List Str))} {depends : List Str}
    (h : ∀ d ∈ depends, (below d).isSome) : (extendAll below depends).isSome := by
  induction depends with
  | nil => rfl
  | cons d rest ih =>
    obtain ⟨out, hOut⟩ := Option.isSome_iff_exists.mp (h d List.mem_cons_self)
    obtain ⟨more, hMore⟩ := Option.isSome_iff_exists.mp (ih fun e he => h e (List.mem_cons_of_mem d he))
    rw [extendAll, hOut, hMore]
    cases out with
    | error e => rfl
    | ok deps => cases more <;> rfl

theorem extendAll_le {below more : Str → Option (Except DependError (List Str))}
    (h : ∀ d out, below d = some out → more d = some out) {depends : List Str} {out : Except DependError (List Str)}
    (hExtend : extendAll below depends = some out) : extendAll more depends = some out := by
  induction depends generalizing out with
  | nil => exact hExtend
  | cons d rest ih =>
    rw [extendAll] at hExtend ⊢
    split at hExtend
    · cases hExtend
    · rename_i e hBelow
      rw [h d _ hBelow]
      exact hExtend
    · rename_i deps hBelow
      rw [h d _ hBelow]
      split at hExtend
      · cases hExtend
      · rename_i e hRest
        rw [ih hRest]
        exact hExtend
      · rename_i all hRest
        rw [ih hRest]
        exact hExtend

theorem getAllDepends_monotonic (dependencies : Str → Option (List Str)) :
    Monotonic fun below fullMsgType =>
      match dependencies fullMsgType with
      | none => some (.error (.key fullMsgType))
      | some depends => extendAll below depends := by
  intro f g h name out
  dsimp only
  cases dependencies name with
  | none => exact id
  | some depends => exact extendAll_le h

theorem Coherent.hereditary {ctx : DependContext} (hCtx : Coherent py path ctx) {n : Node}
    (hWhole : Whole (definedDepends py path) n) {name : Str} (hName : defined py path name = some n)
    (hRecorded : (ctx.dependencies name).isSome) :
    Hereditary (fun name => (ctx.dependencies name).getD []) (fun name => (ctx.dependencies name).isSome) name := by
  induction hWhole generalizing name with
  | @intro n _ _ ih =>
    obtain ⟨depends, hDepends⟩ := Option.isSome_iff_exists.mp hRecorded
    obtain ⟨n', hDefined, -, -, rfl, hClosed⟩ := hCtx.recorded name depends hDepends
    cases hName.symm.trans hDefined
    refine .intro hRecorded fun d hd => ?_
    rw [hDepends, Option.getD_some] at hd
    obtain ⟨below, hBelow⟩ := Option.isSome_iff_exists.mp (hClosed d hd)
    obtain ⟨m, hDefinedBelow, -⟩ := hCtx.recorded d below hBelow
    have hChild : some m ∈ definedDepends py path n := List.mem_map.mpr ⟨d, hd, hDefinedBelow⟩
    exact ih m (List.reduceOption_mem_iff.mpr hChild) hDefinedBelow (hClosed d hd)

theorem Coherent.getAllDepends_ends {ctx : DependContext} (hCtx : Coherent py path ctx) (name : Str) :
    ∃ fuel outcome, getAllDepends ctx.dependencies fuel name = some outcome := by
  cases hDepends : ctx.dependencies name with
  | none =>
    refine ⟨1, .error (.key name), ?_⟩
    rw [getAllDepends, fuelled, hDepends]
  | some depends =>
    obtain ⟨n, hDefined, -, hWhole, -⟩ := hCtx.recorded name depends hDepends
    have hHereditary := hCtx.hereditary hWhole hDefined (by rw [hDepends]; rfl)
    refine exists_fuelled (getAllDepends_monotonic ctx.dependencies) (fun below name hRecorded hBelow => ?_) hHereditary
    obtain ⟨ds, hDs⟩ := Option.isSome_iff_exists.mp hRecorded
    rw [hDs] at hBelow ⊢
    exact extendAll_isSome hBelow

theorem extendAll_mem {below : Str → Option (Except DependError (List Str))} {r : Str → Str → Prop} {ds : List Str}
    (hBelow : ∀ d ∈ ds, ∀ out, below d = some out → ∃ all, out = .ok all ∧ ∀ x, x ∈ all ↔ TransGen r d x)
    {out : Except DependError (List Str)} (h : extendAll below ds = some out) :
    ∃ all, out = .ok all ∧ ∀ x, x ∈ all ↔ ∃ c ∈ ds, ReflTransGen r c x := by
  induction ds generalizing out with
  | nil =>
    cases h
    exact ⟨[], rfl, fun x => iff_of_false List.not_mem_nil fun ⟨c, hc, _⟩ => absurd hc List.not_mem_nil⟩
  | cons d ds ih =>
    have hTail : ∀ e ∈ ds, ∀ out, below e = some out →
        ∃ all, out = .ok all ∧ ∀ x, x ∈ all ↔ TransGen r e x := fun e he => hBelow e (List.mem_cons_of_mem d he)
    rw [extendAll] at h
    split at h
    · cases h
    · rename_i e hFailed
      obtain ⟨all, hError, -⟩ := hBelow d List.mem_cons_self _ hFailed
      cases hError
    · rename_i deps hDeps
      obtain ⟨all, hOk, hMem⟩ := hBelow d List.mem_cons_self _ hDeps
      cases hOk
      split at h
      · cases h
      · rename_i e hFailed
        obtain ⟨more, hError, -⟩ := ih hTail hFailed
        cases hError
      · rename_i more hMore
        obtain ⟨all, hOk, hMemRest⟩ := ih hTail hMore
        cases hOk
        cases h
        refine ⟨_, rfl, fun x => ?_⟩
        have hHead : x = d ∨ TransGen r d x ↔ ReflTransGen r d x := by
          rw [reflTransGen_iff_eq_or_transGen]
        rw [List.mem_cons, List.mem_append, hMem, hMemRest, ← or_assoc, hHead]
        constructor
        · rintro (hPath | ⟨c, hc, hPath⟩)
          · exact ⟨d, List.mem_cons_self, hPath⟩
          · exact ⟨c, List.mem_cons_of_mem d hc, hPath⟩
        · rintro ⟨c, hc, hPath⟩
          obtain rfl | hc := List.mem_cons.mp hc
          · exact Or.inl hPath
          · exact Or.inr ⟨c, hc, hPath⟩

theorem Coherent.getAllDepends_mem {ctx : DependContext} (hCtx : Coherent py path ctx) {fuel : Nat} {name : Str}
    (hRecorded : (ctx.dependencies name).isSome) {out : Except DependError (List Str)}
    (h : getAllDepends ctx.dependencies fuel name = some out) :
    ∃ all, out = .ok all ∧ ∀ d, d ∈ all ↔ TransGen (DependsOn py path) name d := by
  induction fuel generalizing name out with
  | zero => cases h
  | succ fuel ih =>
    obtain ⟨depends, hDepends⟩ := Option.isSome_iff_exists.mp hRecorded
    obtain ⟨n, hDefined, -, -, rfl, hClosed⟩ := hCtx.recorded name depends hDepends
    have hExtend : extendAll (getAllDepends ctx.dependencies fuel) (dependsOf n) = some out := by
      rw [getAllDepends, fuelled, hDepends] at h
      exact h
    obtain ⟨all, hOut, hMem⟩ := extendAll_mem (fun d hd out hBelow => ih (hClosed d hd) hBelow) hExtend
    refine ⟨all, hOut, fun d => ?_⟩
    rw [hMem, TransGen.head'_iff]
    constructor
    · rintro ⟨c, hc, hPath⟩
      exact ⟨c, ⟨n, hDefined, hc⟩, hPath⟩
    · rintro ⟨c, ⟨n', hDefined', hc⟩, hPath⟩
      cases hDefined.symm.trans hDefined'
      exact ⟨c, hc, hPath⟩

/-! ## Runs -/

/-- A context in which messages were loaded by their names, and dependencies of messages in it. -/
inductive Reached (py : Python F) (path : SearchPath) : DependContext → Prop
  | fresh : Reached py path ⟨createDefault py, fun _ => none⟩
  | load {ctx ctx' : DependContext} {msgType : Str} {spec : MsgSpec} (h : Reached py path ctx)
      (hName : TypeName msgType ∨ msgType = header)
      (hLoad : loadMsgByType py path ctx msgType = .ok (spec, ctx')) : Reached py path ctx'
  | depends {ctx ctx' : DependContext} {fuel : Nat} {name : Str} {spec : MsgSpec} {out : Except DependError (List Str)}
      (h : Reached py path ctx) (hName : TypeName name) (hSpec : ctx.messages.getRegistered name = some spec)
      (hDepends : loadMsgDepends py path fuel ctx spec = some (out, ctx')) : Reached py path ctx'

theorem Coherent.registered_of_name {ctx : DependContext} (hCtx : Coherent py path ctx) {name : Str}
    (hName : TypeName name) {spec : MsgSpec} (hSpec : ctx.messages.getRegistered name = some spec) :
    Registered py path ctx spec ∧ spec.fullName = name := by
  rw [MsgContext.getRegistered, bareMsgType_of_not_mem hName.plain] at hSpec
  obtain ⟨⟨package, baseType⟩, hKey, hRegistered⟩ := Option.bind_eq_some_iff.mp hSpec
  obtain ⟨rfl, hBuiltin⟩ | hNamed := hCtx.registered package baseType spec hRegistered
  · rw [hName.message baseType hKey] at hBuiltin
    cases hBuiltin
  · refine ⟨⟨package, baseType, hRegistered, hNamed⟩, ?_⟩
    rw [hNamed.typeName.eq_of_key hNamed.key, hName.eq_of_key hKey]

structure OnlyBuiltins (messages : MsgContext) : Prop where
  builtin : ∀ package baseType spec, messages.registered package baseType = some spec →
    package = [] ∧ isBuiltin baseType = true
  finite : {spec | ∃ package baseType, messages.registered package baseType = some spec}.Finite

theorem OnlyBuiltins.loadInto {messages : MsgContext} (h : OnlyBuiltins messages) {name : Str}
    (hSlash : '/' ∉ name) (hPlain : '[' ∉ name) (hBuiltin : isBuiltin name = true) (py : Python F) (text : Str) :
    OnlyBuiltins (loadInto py messages text name) := by
  rw [Msg.loadInto]
  split
  · exact h
  · rename_i loaded registered hLoad
    obtain ⟨_, _, ds, -, -, -, hRegister⟩ := loadMsgFromString_eq_ok_iff.mp hLoad
    have hKey : packageResourceName name = some ([], name) := by
      rw [packageResourceName, if_neg hSlash]
    rw [register_eq hPlain hKey] at hRegister
    cases hRegister
    refine ⟨fun p b spec hSpec => ?_, (h.finite.insert loaded.spec).subset ?_⟩
    · dsimp only at hSpec
      split at hSpec
      · rename_i hOwn
        cases hOwn
        exact ⟨rfl, hBuiltin⟩
      · exact h.builtin p b spec hSpec
    · rintro spec ⟨p, b, hSpec⟩
      dsimp only at hSpec
      split at hSpec
      · cases hSpec
        exact Set.mem_insert _ _
      · exact Set.mem_insert_of_mem _ ⟨p, b, hSpec⟩

theorem onlyBuiltins_empty : OnlyBuiltins .empty := by
  refine ⟨fun p b spec hSpec => ?_, Set.finite_empty.subset ?_⟩
  · cases hSpec
  · rintro spec ⟨p, b, hSpec⟩
    cases hSpec

theorem onlyBuiltins_createDefault (py : Python F) : OnlyBuiltins (createDefault py) := by
  have hTime : OnlyBuiltins (loadInto py .empty timeMsg (str "time")) :=
    onlyBuiltins_empty.loadInto (by decide) (by decide) (by decide) py timeMsg
  exact hTime.loadInto (by decide) (by decide) (by decide) py durationMsg

theorem OnlyBuiltins.coherent {messages : MsgContext} (h : OnlyBuiltins messages) (py : Python F)
    (path : SearchPath) : Coherent py path ⟨messages, fun _ => none⟩ := by
  refine ⟨fun p b spec hSpec => Or.inl (h.builtin p b spec hSpec), h.finite, fun name depends hName => ?_⟩
  cases hName

theorem Reached.coherent {ctx : DependContext} (h : Reached py path ctx) : Coherent py path ctx := by
  induction h with
  | fresh => exact (onlyBuiltins_createDefault py).coherent py path
  | load _ hName hLoad ih =>
    obtain ⟨package, baseType, hNamed, hDependencies, hMessages⟩ := loadMsgByType_named hName hLoad
    exact ih.register hNamed hDependencies hMessages
  | depends _ hName hSpec hDepends ih =>
    exact (loadMsgDepends_spec ih (ih.registered_of_name hName hSpec).1 hDepends).coherent

theorem finite_md5Entered {ctx : DependContext} (hCtx : Coherent py path ctx) (spec : MsgSpec) :
    {s | ReflTransGen (Enters (md5Children ctx.messages)) spec s}.Finite := by
  refine ((Set.finite_singleton spec).union hCtx.finite).subset ?_
  intro s hPath
  induction hPath with
  | refl => exact Or.inl rfl
  | @tail _ s _ hStep _ =>
    obtain ⟨front, back, hNext, -⟩ := hStep
    have hMem : some s ∈ md5Children ctx.messages _ := hNext ▸ List.mem_append_right _ List.mem_cons_self
    obtain ⟨type, -, hRegistered⟩ := List.mem_map.mp hMem
    obtain ⟨key, -, hKey⟩ := Option.bind_eq_some_iff.mp hRegistered
    exact Or.inr ⟨key.1, key.2, hKey⟩

theorem md5Outcome_ends_iff (hash : Str → Str) {ctx : DependContext} (hCtx : Coherent py path ctx) (spec : MsgSpec) :
    (∃ fuel outcome, md5Outcome hash ctx.messages fuel spec = some outcome) ↔
      ∀ s, ReflTransGen (Enters (md5Children ctx.messages)) spec s →
        ¬ TransGen (Enters (md5Children ctx.messages)) s s := by
  rw [← walk_ends_iff (finite_md5Entered hCtx spec)]
  constructor
  · rintro ⟨fuel, outcome, h⟩
    refine ⟨fuel, outcome.isOk, ?_⟩
    rw [← md5Outcome_walk, h]
    rfl
  · rintro ⟨fuel, r, hWalk⟩
    rw [← @md5Outcome_walk hash] at hWalk
    obtain ⟨outcome, hOutcome, -⟩ := Option.map_eq_some_iff.mp hWalk
    exact ⟨fuel, outcome, hOutcome⟩

/-- The three recursions end, and what the first loads is all that the second lists, exactly if no
cycle is entered. -/
theorem depends_terminate_iff (hash : Str → Str) {ctx : DependContext} (h : Reached py path ctx) {name : Str} (hName : TypeName name)
    {spec : MsgSpec} (hSpec : ctx.messages.getRegistered name = some spec) :
    ((∃ fuel outcome, loadDepends py path fuel ctx (.inl spec) = some outcome) ∧
      (∃ fuel outcome, getAllDepends ctx.dependencies fuel name = some outcome) ∧
      (∃ fuel outcome, md5Outcome hash ctx.messages fuel spec = some outcome) ∧
      ∀ fuel depends ctx', loadDepends py path fuel ctx (.inl spec) = some (.ok depends, ctx') →
        ∃ fuel all, getAllDepends ctx'.dependencies fuel name = some (.ok all) ∧
          ∀ d, d ∈ all ↔ TransGen (DependsOn py path) name d) ↔
      (∀ n, ReflTransGen (Enters (definedDepends py path)) spec.node n →
        ¬ TransGen (Enters (definedDepends py path)) n n) ∧
      ∀ s, ReflTransGen (Enters (md5Children ctx.messages)) spec s →
        ¬ TransGen (Enters (md5Children ctx.messages)) s s := by
  have hCtx := h.coherent
  obtain ⟨hRegistered, hFull⟩ := hCtx.registered_of_name hName hSpec
  simp only [loadDepends_message]
  rw [← loadMsgDepends_ends_iff hCtx hRegistered, ← md5Outcome_ends_iff hash hCtx spec]
  constructor
  · rintro ⟨hLoad, -, hMd5, -⟩
    exact ⟨hLoad, hMd5⟩
  · rintro ⟨hLoad, hMd5⟩
    refine ⟨hLoad, hCtx.getAllDepends_ends name, hMd5, fun fuel depends ctx' hDepends => ?_⟩
    obtain ⟨hCoherent, -, -, hResult⟩ := loadMsgDepends_spec hCtx hRegistered hDepends
    have hRecorded := (hResult depends rfl).2
    rw [hFull] at hRecorded
    obtain ⟨fuel', outcome, hAll⟩ := hCoherent.getAllDepends_ends name
    obtain ⟨all, rfl, hMem⟩ := hCoherent.getAllDepends_mem hRecorded hAll
    exact ⟨fuel', all, hAll, hMem⟩

/-! ## Samples -/

def chainPath : SearchPath where
  packages := [(str "pkg", [str "msg"])]
  files := [(str "msg/A.msg", str "B b"), (str "msg/B.msg", str "int32 x")]

def selfPath : SearchPath where
  packages := [(str "pkg", [str "msg"])]
  files := [(str "msg/A.msg", str "A again")]

theorem typeName_sample : TypeName (str "pkg/A") := by
  refine ⟨by decide, by decide, fun base hKey => ?_⟩
  rw [show packageResourceName (str "pkg/A") = some (str "pkg", str "A") from rfl] at hKey
  cases hKey

theorem load_sample {path : SearchPath} {types : List Str}
    (hFile : fileNode asciiPython path (str "pkg") (str "A") = some (str "pkg", types)) :
    ∃ ctx spec, Reached asciiPython path ctx ∧ ctx.messages.getRegistered (str "pkg/A") = some spec ∧
      spec.node = (str "pkg", types) ∧ ctx.messages.getRegistered (str "pkg/B") = none := by
  have hKey : packageResourceName (str "pkg/A") = some (str "pkg", str "A") := rfl
  have hOther : packageResourceName (str "pkg/B") = some (str "pkg", str "B") := rfl
  obtain ⟨messages, hFresh, hBuiltins⟩ :
      ∃ messages, Reached asciiPython path ⟨messages, fun _ => none⟩ ∧ OnlyBuiltins messages :=
    ⟨_, .fresh, onlyBuiltins_createDefault asciiPython⟩
  obtain ⟨spec, ctx, hLoad⟩ := exists_loadMsgByType hKey typeName_sample.ne_header hFile ⟨messages, fun _ => none⟩
  obtain ⟨package, baseType, hNamed, -, hMessages⟩ := loadMsgByType_named (.inl typeName_sample) hLoad
  obtain ⟨-, -, -, hFull, -⟩ := loadMsgByType_ok hLoad
  rw [if_neg typeName_sample.ne_header] at hFull
  have hOwn := hNamed.key
  rw [hFull, hKey] at hOwn
  cases hOwn
  refine ⟨ctx, spec, hFresh.load (.inl typeName_sample) hLoad, ?_, ?_, ?_⟩
  · rw [MsgContext.getRegistered, bareMsgType_of_not_mem typeName_sample.plain, hKey, Option.bind_some, hMessages]
    dsimp only
    rw [if_pos rfl]
  · exact Option.some.inj (hNamed.file.symm.trans hFile)
  · rw [MsgContext.getRegistered, bareMsgType_of_not_mem (by decide), hOther, Option.bind_some, hMessages]
    dsimp only
    rw [if_neg (by decide)]
    cases hNone : messages.registered (str "pkg") (str "B") with
    | none => rfl
    | some other => cases (hBuiltins.builtin _ _ other hNone).1

theorem depends_terminate_chain :
    ∃ ctx spec, Reached asciiPython chainPath ctx ∧ ctx.messages.getRegistered (str "pkg/A") = some spec ∧
      (∃ fuel outcome, loadDepends asciiPython chainPath fuel ctx (.inl spec) = some outcome) ∧
      (∃ fuel outcome, getAllDepends ctx.dependencies fuel (str "pkg/A") = some outcome) ∧
      (∃ fuel outcome, md5Outcome id ctx.messages fuel spec = some outcome) ∧
      ∀ fuel depends ctx', loadDepends asciiPython chainPath fuel ctx (.inl spec) = some (.ok depends, ctx') →
        ∃ fuel all, getAllDepends ctx'.dependencies fuel (str "pkg/A") = some (.ok all) ∧
          ∀ d, d ∈ all ↔ TransGen (DependsOn asciiPython chainPath) (str "pkg/A") d := by
  have hFile : fileNode asciiPython chainPath (str "pkg") (str "A") = some (str "pkg", [str "pkg/B"]) := by
    decide +kernel
  obtain ⟨ctx, spec, hReached, hSpec, hNode, hNone⟩ := load_sample hFile
  have hTypes : spec.types = [str "pkg/B"] := congrArg Prod.snd hNode
  have hChildren : md5Children ctx.messages spec = [none] := by
    rw [md5Children, hTypes]
    exact congrArg (fun child => [child]) hNone
  refine ⟨ctx, spec, hReached, hSpec, (depends_terminate_iff id hReached typeName_sample hSpec).mpr ⟨?_, ?_⟩⟩
  · rw [hNode]
    exact (walk_ends_iff (finite_entered _)).mp ⟨3, true, by decide +kernel⟩
  · refine (walk_ends_iff (finite_md5Entered hReached.coherent spec)).mp ⟨1, false, ?_⟩
    rw [walk, fuelled, hChildren]
    rfl

/-- Neither the dependencies nor the md5 of the message come to an end. -/
theorem depends_of_itself :
    ∃ ctx spec, Reached asciiPython selfPath ctx ∧ ctx.messages.getRegistered (str "pkg/A") = some spec ∧
      (∀ fuel, loadDepends asciiPython selfPath fuel ctx (.inl spec) = none) ∧
      ∀ fuel, md5Outcome id ctx.messages fuel spec = none := by
  have hFile : fileNode asciiPython selfPath (str "pkg") (str "A") = some (str "pkg", [str "pkg/A"]) := by
    decide +kernel
  obtain ⟨ctx, spec, hReached, hSpec, hNode, -⟩ := load_sample hFile
  have hTypes : spec.types = [str "pkg/A"] := congrArg Prod.snd hNode
  have hCtx := hReached.coherent
  have hChildren : md5Children ctx.messages spec = [some spec] := by
    rw [md5Children, hTypes]
    exact congrArg (fun child => [child]) hSpec
  have hDefined : definedDepends asciiPython selfPath spec.node = [some spec.node] := by
    rw [hNode]
    decide +kernel
  have hLoad : ¬ ∃ fuel outcome, loadMsgDepends asciiPython selfPath fuel ctx spec = some outcome := by
    rw [loadMsgDepends_ends_iff hCtx (hCtx.registered_of_name typeName_sample hSpec).1]
    intro h
    exact h spec.node .refl (.single ⟨[], [], hDefined, List.not_mem_nil, fun c hc => absurd hc List.not_mem_nil⟩)
  have hMd5 : ¬ ∃ fuel outcome, md5Outcome id ctx.messages fuel spec = some outcome := by
    rw [md5Outcome_ends_iff id hCtx spec]
    intro h
    exact h spec .refl (.single ⟨[], [], hChildren, List.not_mem_nil, fun c hc => absurd hc List.not_mem_nil⟩)
  refine ⟨ctx, spec, hReached, hSpec, fun fuel => ?_, fun fuel => ?_⟩
  · rw [loadDepends_message]
    exact Option.eq_none_iff_forall_ne_some.mpr fun outcome h => hLoad ⟨fuel, outcome, h⟩
  · exact Option.eq_none_iff_forall_ne_some.mpr fun outcome h => hMd5 ⟨fuel, outcome, h⟩

end XcRos.Msg
