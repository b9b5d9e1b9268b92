import XcRos.Gencpp.IsFixedLength
import XcRos.Genpy.CheckType
import XcRos.Msg.DependsTermination

/-! # Types in both languages

The C++ generator loads the messages that a message embeds from their files, and the Python generator takes them from
its context. If this was filled from the same files, the struct and the class have the same fields.
-/

namespace XcRos.Genpy

open XcRos.Foundation XcRos.Msg XcRos.Gencpp

/-! ## Types that correspond -/

def primCode : Serialization.Prim → Code
  | .int8 => .int true 1
  | .uint8 => .int false 1
  | .int16 => .int true 2
  | .uint16 => .int false 2
  | .int32 => .int true 4
  | .uint32 => .int false 4
  | .int64 => .int true 8
  | .uint64 => .int false 8
  | .float => .single
  | .double => .double

mutual

inductive Corresponds : Ty → Serialization.Ty → Prop
  | simple {s : Simple} {p : Serialization.Prim} (hCode : primCode p = s.code) :
      Corresponds (.simple s) (.simple (.prim p))
  | string : Corresponds .string .string
  | vector {t : Ty} {u : Serialization.Ty} (h : Corresponds t u) : Corresponds (.array none t) (.vector u)
  | array {t : Ty} {u : Serialization.Ty} (n : Nat) (h : Corresponds t u) : Corresponds (.array (some n) t) (.array u n)
  | time : Corresponds (.message (str "time") (stampMembers .uint32)) (.simple .time)
  | duration : Corresponds (.message (str "duration") (stampMembers .int32)) (.simple .duration)
  | message {cls : Str} {members : Members} {fields : Serialization.Fields} (h : CorrespondsEach members fields) :
      Corresponds (.message cls members) (.message fields)

inductive CorrespondsEach : Members → Serialization.Fields → Prop
  | nil : CorrespondsEach .nil .nil
  | cons {name : Str} {t : Ty} {u : Serialization.Ty} {rest : Members} {fields : Serialization.Fields}
      (h : Corresponds t u) (hRest : CorrespondsEach rest fields) : CorrespondsEach (.cons name t rest) (.cons u fields)

end

theorem lookup_simple {base : Str} {s : Simple} (h : simpleOf base = some s) :
    isBuiltin base = true ∧ ∃ p, msgTypeToCpp.lookup base = some (.simple (.prim p)) ∧ primCode p = s.code := by
  rw [← name_of_simpleOf h]
  cases s <;> exact ⟨rfl, _, rfl, rfl⟩

/-! ## Stamps -/

variable {F : Type} {py : Python F} {path : SearchPath}

theorem fields_loadInto {messages : MsgContext} {text name : Str} {ds : List (Declaration F)} (hSlash : '/' ∉ name)
    (hPlain : '[' ∉ name) (hLines : loadLines py [] (split '\n' text) = .ok ds) {base : Str} {spec : MsgSpec}
    (h : (loadInto py messages text name).registered [] base = some spec) :
    messages.registered [] base = some spec ∨ base = name ∧ spec.fields = (typesOf ds).zip (namesOf ds) := by
  rw [loadInto] at h
  split at h
  · exact .inl h
  · rename_i loaded registered hLoad
    obtain ⟨package, base', ds', hKey, hLines', hSpec, hRegister⟩ := loadMsgFromString_eq_ok_iff.mp hLoad
    rw [packageResourceName, if_neg hSlash] at hKey
    cases hKey
    cases hLines.symm.trans hLines'
    obtain ⟨-, hDeclares, -⟩ := specOf_eq_ok_iff.mp hSpec
    rw [register_eq hPlain (by rw [packageResourceName, if_neg hSlash])] at hRegister
    cases hRegister
    dsimp only at h
    split at h
    · rename_i hOwn
      cases hOwn
      cases h
      exact .inr ⟨rfl, by rw [MsgSpec.fields, hDeclares.types, hDeclares.names]⟩
    · exact .inl h

/-- The fields of the two types that are always there. -/
def stampFields (type : Str) : List (Str × Str) := [(type, str "secs"), (type, str "nsecs")]

theorem fields_createDefault {base : Str} {spec : MsgSpec} (h : (createDefault py).registered [] base = some spec) :
    base = str "time" ∧ spec.fields = stampFields (str "uint32") ∨
      base = str "duration" ∧ spec.fields = stampFields (str "int32") := by
  have hTimeLines : loadLines py [] (split '\n' timeMsg) =
      .ok [.field (str "uint32") (str "secs"), .field (str "uint32") (str "nsecs")] := rfl
  have hDurationLines : loadLines py [] (split '\n' durationMsg) =
      .ok [.field (str "int32") (str "secs"), .field (str "int32") (str "nsecs")] := rfl
  obtain hTime | hDuration := fields_loadInto (by decide) (by decide) hDurationLines h
  · obtain hNone | hTime := fields_loadInto (by decide) (by decide) hTimeLines hTime
    · cases hNone
    · exact .inl hTime
  · exact .inr hDuration

theorem stamp_of_accepted {ctx : MsgContext} (hCtx : AcceptedContext py ctx) {base : Str} {spec : MsgSpec}
    (hSpec : ctx.registered [] base = some spec) :
    base = str "time" ∧ spec.fields = stampFields (str "uint32") ∨
      base = str "duration" ∧ spec.fields = stampFields (str "int32") := by
  obtain hDefault | ⟨name, hName, hMessage, -⟩ := hCtx _ _ _ hSpec
  · exact fields_createDefault hDefault
  · have hLegal := hMessage.legal
    rw [hMessage.typeName.eq_of_key hName] at hLegal
    cases hLegal

theorem resolve_stamp {messages : MsgContext} {fuel : Nat} {spec : MsgSpec} {members : Members} (s : Simple)
    (hFields : spec.fields = stampFields s.name) (h : resolve messages fuel spec = some members) :
    members = stampMembers s := by
  cases fuel with
  | zero => cases h
  | succ fuel =>
    have hMembers : resolveMembers (resolve messages fuel) messages spec.fields = some members := h
    rw [hFields] at hMembers
    cases s <;> exact (Option.some.inj hMembers).symm

/-! ## The two generators -/

section

variable {ctx : DependContext} {fuel more : Nat}

/-- What the recursion of both generators keeps to: they are at definitions of one package and the same field types. -/
def Agree (path : SearchPath) (py : Python F) (ctx : DependContext) (fuel more : Nat) : Prop :=
  ∀ spec spec' members fields, Registered py path ctx spec → spec'.node = spec.node →
    resolve ctx.messages fuel spec = some members → generatedFields py path more spec' = some fields →
    CorrespondsEach members fields

theorem typeName_of_slash {base : Str} (hSlash : '/' ∈ base) (hBracket : '[' ∉ base) (hHead : base.head? ≠ some '/') :
    TypeName base := by
  refine ⟨hSlash, hBracket, fun own hKey => ?_⟩
  obtain ⟨-, -, hText | ⟨hNone, -⟩⟩ := packageResourceName_eq_some hKey
  · exact absurd (by rw [hText]; rfl) hHead
  · exact absurd hSlash hNone

theorem isBuiltin_of_slash {base : Str} (hSlash : '/' ∈ base) : isBuiltin base = false := by
  have hNone : ∀ type ∈ builtinTypes, '/' ∉ type := by decide
  rw [isBuiltin, Bool.eq_false_iff, ne_eq, List.contains_iff_mem]
  exact fun hMem => hNone base hMem hSlash

theorem node_of_loaded (hReached : Reached py path ctx) {name : Str} (hName : TypeName name) {spec spec' : MsgSpec}
    (hSpec : ctx.messages.getRegistered name = some spec) (hLoaded : loadedSpec py path name = some spec') :
    Registered py path ctx spec ∧ spec'.node = spec.node := by
  obtain ⟨hRegistered, hFull⟩ := hReached.coherent.registered_of_name hName hSpec
  refine ⟨hRegistered, ?_⟩
  obtain ⟨_, _, -, hNamed⟩ := hRegistered
  obtain ⟨after, hLoad⟩ := (loadedSpec_eq_some_iff ctx).mp hLoaded
  obtain ⟨_, _, hKey, hFull', -, hFile, -⟩ := loadMsgByType_ok hLoad
  rw [if_neg hName.ne_header, ← hFull] at hFull'
  rw [hFull', hNamed.key] at hKey
  cases hKey
  exact Option.some.inj (hFile.symm.trans hNamed.file)

theorem corresponds_message (hReached : Reached py path ctx) (hBelow : Agree path py ctx fuel more) {base : Str}
    (hSlash : '/' ∈ base) (hBracket : '[' ∉ base) (hHead : base.head? ≠ some '/') {spec : MsgSpec} {members : Members}
    (hSpec : ctx.messages.getRegistered base = some spec) (hMembers : resolve ctx.messages fuel spec = some members)
    {package : Str} {u : Serialization.Ty}
    (hCpp : ((loadedSpec py path (Msg.resolveType base package)).bind fun spec =>
      (generatedFields py path more spec).map .message) = some u) : Corresponds (.message base members) u := by
  have hName := typeName_of_slash hSlash hBracket hHead
  have hType : Msg.resolveType base package = base := by
    rw [Msg.resolveType, bareMsgType_of_not_mem hBracket, isBuiltin_of_slash hSlash, if_neg Bool.false_ne_true,
      if_neg hName.ne_header, if_pos hSlash]
  obtain ⟨spec', hLoaded, hFields⟩ := Option.bind_eq_some_iff.mp hCpp
  obtain ⟨fields, hStruct, rfl⟩ := Option.map_eq_some_iff.mp hFields
  rw [hType] at hLoaded
  obtain ⟨hRegistered, hNode⟩ := node_of_loaded hReached hName hSpec hLoaded
  exact .message (hBelow spec spec' members fields hRegistered hNode hMembers hStruct)

theorem corresponds_base (hReached : Reached py path ctx) (hCtx : AcceptedContext py ctx.messages) (hBelow : Agree path py ctx fuel more) {base : Str} {t : Ty}
    (hBase : ResolvedBase (resolve ctx.messages fuel) ctx.messages base t) (hBracket : '[' ∉ base)
    (hHead : base.head? ≠ some '/') {package : Str} {u : Serialization.Ty}
    (hCpp : (if isBuiltin base then msgTypeToCpp.lookup base
      else (loadedSpec py path (Msg.resolveType base package)).bind fun spec =>
        (generatedFields py path more spec).map .message) = some u) : Corresponds t u := by
  cases hBase with
  | simple hSimple =>
    obtain ⟨hBuiltin, p, hLookup, hCode⟩ := lookup_simple hSimple
    rw [if_pos hBuiltin, hLookup] at hCpp
    cases hCpp
    exact .simple hCode
  | string =>
    obtain rfl : Serialization.Ty.string = u := Option.some.inj hCpp
    exact .string
  | message _ _ hName hSpec hSub =>
    obtain hStamp | hSlash := hName
    · have hBuiltin : isBuiltin base = true := by obtain rfl | rfl := hStamp <;> decide
      have hKey : ctx.messages.getRegistered base = ctx.messages.registered [] base := by
        obtain rfl | rfl := hStamp <;> rfl
      rw [hKey] at hSpec
      obtain ⟨rfl, hFields⟩ | ⟨rfl, hFields⟩ := stamp_of_accepted hCtx hSpec
      · obtain rfl := resolve_stamp .uint32 hFields hSub
        obtain rfl : Serialization.Ty.simple .time = u := Option.some.inj hCpp
        exact .time
      · obtain rfl := resolve_stamp .int32 hFields hSub
        obtain rfl : Serialization.Ty.simple .duration = u := Option.some.inj hCpp
        exact .duration
    · rw [isBuiltin_of_slash hSlash, if_neg Bool.false_ne_true] at hCpp
      exact corresponds_message hReached hBelow hSlash hBracket hHead hSpec hSub hCpp

theorem corresponds_type (hReached : Reached py path ctx) (hCtx : AcceptedContext py ctx.messages) (hBelow : Agree path py ctx fuel more) {type : Str}
    (hHead : (bareMsgType type).head? ≠ some '/') {t : Ty}
    (hType : resolveType (resolve ctx.messages fuel) ctx.messages type = some t) {package : Str} {u : Serialization.Ty}
    (hCpp : msgTypeToCppType py path (generatedFields py path more) package type = some u) : Corresponds t u := by
  obtain ⟨⟨base, arity⟩, hParse, hRest⟩ := Option.bind_eq_some_iff.mp hType
  obtain ⟨elem, hElem, hArity⟩ := Option.bind_eq_some_iff.mp hRest
  obtain ⟨_, hParse', hRest'⟩ := Option.bind_eq_some_iff.mp hCpp
  cases hParse.symm.trans hParse'
  obtain ⟨plain, hPlain, hWith⟩ := Option.bind_eq_some_iff.mp hRest'
  obtain rfl := parseType_base hParse
  have hBase := corresponds_base hReached hCtx hBelow (resolvedBase hElem) (not_mem_bareMsgType type) hHead hPlain
  cases arity with
  | scalar =>
    cases hArity
    cases hWith
    exact hBase
  | «variable» =>
    cases hArity
    cases hWith
    exact .vector hBase
  | fixed n =>
    simp only at hArity
    split at hArity
    · cases hArity
      rw [withArity, if_neg (by omega)] at hWith
      cases hWith
      exact .array n.toNat hBase
    · cases hArity

theorem correspondsEach_types {messages : MsgContext} {sub : MsgSpec → Option Members} {cpp : Str → Option Serialization.Ty}
    {fields : List (Str × Str)} (hEach : ∀ field ∈ fields, ∀ t u, resolveType sub messages field.1 = some t →
      cpp field.1 = some u → Corresponds t u) {members : Members} {out : Serialization.Fields}
    (hMembers : resolveMembers sub messages fields = some members)
    (hFields : structFields cpp (fields.map Prod.fst) = some out) : CorrespondsEach members out := by
  induction fields generalizing members out with
  | nil =>
    cases hMembers
    cases hFields
    exact .nil
  | cons field fields ih =>
    obtain ⟨hOwn, hRest⟩ := List.forall_mem_cons.mp hEach
    obtain ⟨t, hType, hTail⟩ := Option.bind_eq_some_iff.mp hMembers
    obtain ⟨rest, hRestMembers, rfl⟩ := Option.map_eq_some_iff.mp hTail
    obtain ⟨u, hCpp, hTail'⟩ := Option.bind_eq_some_iff.mp hFields
    obtain ⟨more, hRestFields, rfl⟩ := Option.map_eq_some_iff.mp hTail'
    exact .cons (hOwn t u hType hCpp) (ih hRest hRestMembers hRestFields)

/-- The class and the struct of one message have the same fields. -/
theorem agree_of_reached (hReached : Reached py path ctx) (hCtx : AcceptedContext py ctx.messages) : Agree path py ctx fuel more := by
  induction fuel generalizing more with
  | zero =>
    intro spec spec' members fields _ _ hMembers
    cases hMembers
  | succ fuel ih =>
    intro spec spec' members fields hRegistered hNode hMembers hFields
    obtain ⟨_, _, -, hNamed⟩ := hRegistered
    cases more with
    | zero => cases hFields
    | succ more =>
      have hTypes : spec'.types = spec.fields.map Prod.fst := by
        rw [MsgSpec.fields, List.map_fst_zip spec.sameLength.le]
        exact (Prod.mk.inj hNode).2
      rw [generatedFields, hTypes] at hFields
      refine correspondsEach_types (fun field hField t u hType hCpp => ?_) hMembers hFields
      have hMem : field.1 ∈ spec.types := (List.of_mem_zip hField).1
      exact corresponds_type hReached hCtx ih (hNamed.proper.types _ hMem) hType hCpp

end

end XcRos.Genpy
