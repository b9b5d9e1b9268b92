import XcRos.Genpy.ReadFn

/-! # What deserialize does

The body of `deserialize` reads the members from the start of the bytes into the instance that it is called of, and
brings the times of the message into canonical form. `struct.error` comes out of it as a `DeserializationError`.
-/

namespace XcRos.Genpy

open XcRos.Foundation XcRos.Msg

/-- `serialize`, of which the bytes are what it writes into the buffer. -/
def serialize (env : Env) (code : List Stmt) (self : PyVal) : Option Bytes :=
  (execAll env code (.method self)).map Frame.buff

inductive Raised where
  /-- `genpy.DeserializationError` -/
  | deserializationError
  | other
deriving DecidableEq, Repr

/-- `except struct.error` -/
def Raised.ofFault : Fault → Raised
  | .struct => .deserializationError
  | .other => .other

/-- `deserialize`, which returns `self`. -/
def deserialize (env : Env) (code : List Stmt) (self : PyVal) : Except Raised PyVal :=
  ((runAll env code (.method self)).bind fun f => raising .other (f.valueOf .self)).mapError .ofFault

/-! ## Instantiation -/

section

variable {ctx : MsgContext} {resolves : MsgSpec → Option Members}

theorem bareMsgType_array {type base : Str} {arity : Arity} (hParse : parseType type = some (base, arity))
    (hArity : arity ≠ .scalar) : bareMsgType type ≠ type := by
  intro hSame
  have hBracket : '[' ∉ type := hSame ▸ not_mem_bareMsgType type
  rw [parseType] at hParse
  split at hParse
  · cases hParse
  · cases hParse
    exact hArity rfl

theorem computeConstructor_resolved (hCtx : PrimitivesUnregistered ctx) {type : Str} {t : Ty}
    (h : Resolved resolves ctx type t) (hRegistered : (ctx.getRegistered type).isSome = true) (package : Str) :
    ∃ cls, computeConstructor ctx package type = some cls := by
  cases h with
  | scalar _ hBracket hBase =>
    cases hBase with
    | simple hSimple =>
      rw [hCtx _ (mem_primitiveTypes hSimple)] at hRegistered
      cases hRegistered
    | string =>
      rw [hCtx _ (by decide)] at hRegistered
      cases hRegistered
    | message _ _ hName hSpec => exact ⟨_, computeConstructor_registered hBracket hName hSpec package⟩
  | array hParse hArity =>
    rw [computeConstructor]
    split
    · exact ⟨_, rfl⟩
    · split
      · exact ⟨_, rfl⟩
      · exact ⟨_, if_pos (bareMsgType_array hParse hArity)⟩

theorem instantiate_resolved (hCtx : PrimitivesUnregistered ctx) {fields : List (Str × Str)} {members : Members}
    (h : resolveMembers resolves ctx fields = some members) (package : Str) :
    ∃ front, instantiate ctx package (fields.map fun field => (field.1, [remapReserved field.2])) = some front ∧
      ∀ stmt ∈ front, ∃ slot ∈ members.slots, ∃ cls, stmt = .ifNone ⟨.self, [slot]⟩ cls := by
  induction fields generalizing members with
  | nil => exact ⟨[], rfl, fun _ hStmt => absurd hStmt List.not_mem_nil⟩
  | cons field fields ih =>
    obtain ⟨type, name⟩ := field
    obtain ⟨t, hType, hRest⟩ := Option.bind_eq_some_iff.mp h
    obtain ⟨rest, hFields, rfl⟩ := Option.map_eq_some_iff.mp hRest
    obtain ⟨front, hFront, hAsked⟩ := ih hFields
    have hBehind : ∀ stmt ∈ front, ∃ slot ∈ (Members.cons name t rest).slots, ∃ cls, stmt = .ifNone ⟨.self, [slot]⟩ cls := by
      intro stmt hStmt
      obtain ⟨slot, hSlot, hEq⟩ := hAsked stmt hStmt
      exact ⟨slot, List.mem_cons_of_mem _ hSlot, hEq⟩
    rw [List.map_cons, instantiate, hFront]
    by_cases hRegistered : (ctx.getRegistered type).isSome = true
    · obtain ⟨cls, hClass⟩ := computeConstructor_resolved hCtx (resolved hType) hRegistered package
      rw [if_pos hRegistered, hClass]
      refine ⟨_, rfl, fun stmt hStmt => ?_⟩
      rcases List.mem_cons.mp hStmt with rfl | hStmt
      · exact ⟨remapReserved name, List.mem_cons_self, cls, rfl⟩
      · exact hBehind stmt hStmt
    · rw [if_neg hRegistered]
      exact ⟨front, rfl, hBehind⟩

theorem exec_instantiate {env : Env} {members : Members} (hSlots : members.slots.Nodup) {cls : Str}
    {olds : List (Str × PyVal)} (hInstance : members.Instance olds) {front : List Stmt}
    (hFront : ∀ stmt ∈ front, ∃ slot ∈ members.slots, ∃ cls, stmt = .ifNone ⟨.self, [slot]⟩ cls) :
    execAll env front (.method (.obj cls olds)) = some (.method (.obj cls olds)) := by
  induction front with
  | nil => rfl
  | cons stmt front ih =>
    obtain ⟨slot, hSlot, made, rfl⟩ := hFront stmt List.mem_cons_self
    obtain ⟨member, hMember, rfl⟩ := List.mem_map.mp hSlot
    obtain ⟨w, hw, hPart⟩ := Members.instance_part hInstance hSlots member hMember
    have hGet : (Frame.method (.obj cls olds)).get ⟨.self, [remapReserved member.1]⟩ = some w := by
      rw [(method_scoped (.obj cls olds) 0).holds.get, at?_attribute, hw]
    have hAsk : (Stmt.ifNone ⟨.self, [remapReserved member.1]⟩ made).exec env (.method (.obj cls olds)) =
        some (.method (.obj cls olds)) := by
      rw [Stmt.exec, hGet, Option.bind_some]
      cases w with
      | none => exact absurd rfl (Ty.ne_none_of_instance hPart)
      | _ => rfl
    rw [execAll, hAsk, Option.bind_some]
    exact ih fun stmt hStmt => hFront stmt (List.mem_cons_of_mem _ hStmt)

end

/-! ## Places of the leaves -/

theorem instance_leaf {path : Path} {u t : Ty} {w : PyVal} (hInstance : t.Instance w) (hSlots : t.WellFormed)
    (hLeaf : (path, u) ∈ t.leaves) : ∃ v, w.at? (slotPath path) = some v ∧ u.Instance v := by
  induction path generalizing t w with
  | nil =>
    cases t with
    | message cls members =>
      obtain ⟨member, _, rest, _, hEq⟩ := Members.mem_leaves.mp hLeaf
      cases hEq
    | simple | string | array =>
      have := List.mem_singleton.mp hLeaf
      cases this
      exact ⟨w, rfl, hInstance⟩
  | cons name path ih =>
    obtain ⟨cls, members, rfl, member, hMember, rfl, hRest⟩ := Ty.mem_leaves_cons hLeaf
    obtain ⟨attrs, rfl, hMembers⟩ := hInstance
    obtain ⟨v, hv, hPart⟩ := Members.instance_part hMembers hSlots.1 member hMember
    obtain ⟨leaf, hAt, hLeafInstance⟩ := ih hPart (members.wellFormed_iff.mp hSlots.2 member hMember) hRest
    refine ⟨leaf, ?_, hLeafInstance⟩
    rw [slotPath, List.map_cons, at?_cons, hv]
    exact hAt

theorem places_of_leaves {members : Members} (hSlots : members.slots.Nodup) (hFormed : members.WellFormed)
    {entries : List Entry} (hLeaves : leavesOf entries = members.leaves.map slotted) (cls : Str) {olds : List (Str × PyVal)}
    (hInstance : members.Instance olds) : Places entries (.obj cls olds) := by
  have hLeaf : ∀ e ∈ entries, ∃ leaf ∈ members.leaves, slotPath leaf.1 = e.1.2 ∧ leaf.2 = e.2 := by
    intro e he
    have hMem : (e.1.2, e.2) ∈ members.leaves.map slotted := hLeaves ▸ List.mem_map.mpr ⟨e, he, rfl⟩
    obtain ⟨leaf, hLeaf, hEq⟩ := List.mem_map.mp hMem
    exact ⟨leaf, hLeaf, Prod.mk.inj hEq⟩
  constructor
  · intro e he
    obtain ⟨leaf, hIn, hPath, _⟩ := hLeaf e he
    obtain ⟨member, _, rest, _, rfl⟩ := Members.mem_leaves.mp hIn
    rw [← hPath]
    exact List.cons_ne_nil _ _
  · intro e he
    obtain ⟨leaf, hIn, hPath, hTy⟩ := hLeaf e he
    have hWhole : (Ty.message cls members).Instance (.obj cls olds) := ⟨olds, rfl, hInstance⟩
    obtain ⟨w, hw, hPart⟩ := @instance_leaf leaf.1 leaf.2 (.message cls members) _ hWhole ⟨hSlots, hFormed⟩ hIn
    exact ⟨w, hPath ▸ hw, hTy ▸ hPart⟩
  · have hPaths : entries.map (fun e => e.1.2) = members.leaves.map fun leaf => slotPath leaf.1 := by
      have := congrArg (List.map Prod.fst) hLeaves
      rwa [leavesOf, List.map_map, List.map_map] at this
    rw [hPaths]
    exact members.leaves_apart hSlots hFormed

/-! ## The function -/

theorem run_postDeserialize (env : Env) (fields : Fields) (f : Frame) :
    runAll env (postDeserialize fields) f ≠ .error .struct := by
  rw [postDeserialize]
  induction fields.filter fun field => field.1 = str "time" ∨ field.1 = str "duration" generalizing f with
  | nil => rintro ⟨⟩
  | cons field fields ih =>
    rw [List.map_cons, runAll, Stmt.run]
    cases (Stmt.canon ⟨.self, field.2⟩).exec env f with
    | none => rintro ⟨⟩
    | some f' => exact ih f'

section

variable {ctx : MsgContext} {fuel : Nat} {spec : MsgSpec} {members : Members}

/-- The members are read into the instance, behind which only the times are left to do. -/
structure Deserializes (ctx : MsgContext) (fuel : Nat) (spec : MsgSpec) (members : Members) (code : List Stmt) : Prop where
  reads : ∀ (input : Bytes) (cls : Str) (olds : List (Str × PyVal)), members.Instance olds →
    ∀ attrs n, members.read input = .ok (attrs, n) → ∃ f : Frame, f.valueOf .self = some (.obj cls attrs) ∧ f.stop = n ∧
      runAll ⟨input, newInstance ctx fuel⟩ code (.method (.obj cls olds)) =
        runAll ⟨input, newInstance ctx fuel⟩ (postDeserialize (makePythonSafe (specFields spec))) f
  raises : ∀ (input : Bytes) (cls : Str) (olds : List (Str × PyVal)), members.Instance olds →
    ∀ fault, members.read input = .error fault →
      runAll ⟨input, newInstance ctx fuel⟩ code (.method (.obj cls olds)) = .error fault

theorem deserializeFn_deserializes (hCtx : PrimitivesUnregistered ctx) (h : resolve ctx fuel spec = some members)
    (hSlots : members.slots.Nodup) (package : Str) (counter : Nat) :
    ∃ code, deserializeFn ctx fuel package (makePythonSafe (specFields spec)) counter = some code ∧
      (members.NamedAlike → Deserializes ctx fuel spec members code) := by
  have hFormed := wellFormed_of_resolve fuel spec members h
  obtain ⟨less, entries, rfl, hEntries, hResolved, hLeaves⟩ := flatten_slots hCtx h
  obtain ⟨flattened, hFlat, hSafe⟩ := Option.map_eq_some_iff.mp hEntries
  have hFields : makePythonSafe (specFields spec) = spec.fields.map fun field => (field.1, [remapReserved field.2]) := by
    rw [makePythonSafe, specFields, List.map_map]
    rfl
  obtain ⟨front, hFront, hAsked⟩ := instantiate_resolved hCtx h package
  rw [← hFields] at hFront
  -- the code does not depend on the bytes
  have hCode (input : Bytes) := @emits_readEntries ⟨input, newInstance ctx (less + 1)⟩ ctx _ _
    (subReads_serializer ((constructs_newInstance ctx (less + 1) input).mono (Nat.le_succ less)))
    ((constructs_newInstance ctx (less + 1) input).mono (Nat.le_succ less)) ⟨.self, 1⟩ package _ hResolved counter
  obtain ⟨code, counter', hEmitted, _, _⟩ := hCode []
  refine ⟨front ++ .rewind :: code ++ postDeserialize (makePythonSafe (specFields spec)), ?_, ?_⟩
  · rw [deserializeFn, hFront, Option.bind_some, hFlat, Option.bind_some, hSafe, hEmitted]
    rfl
  intro hNames
  rw [remapPath_leaf hNames] at hLeaves
  have hFills : ∀ (input : Bytes) (cls : Str) (olds : List (Str × PyVal)), members.Instance olds →
      Fills (runAll ⟨input, newInstance ctx (less + 1)⟩ code (.method (.obj cls olds))) (.method (.obj cls olds)) 1 counter
        .self [] (fun attrs => some (.obj cls attrs)) (members.read input) := by
    intro input cls olds hInstance
    obtain ⟨code', counter'', hSame, _, hReads⟩ := hCode input
    obtain ⟨rfl, rfl⟩ := Prod.mk.inj (Option.some.inj (hEmitted.symm.trans hSame))
    have hPlaces := places_of_leaves hSlots hFormed hLeaves cls hInstance
    have hRun := hReads (.method (.obj cls olds)) .self [] _ (method_scoped _ counter) hPlaces
    rw [leavesOf, hLeaves] at hRun
    have hMembers := members.readsLeaves hSlots hFormed
    constructor
    · intro attrs n hRead
      obtain ⟨pairs, hPairs, hSet⟩ := hMembers.reads input attrs n hRead
      obtain ⟨f', o', hCode, hChange, hBecomes, hStop⟩ := hRun.reads pairs n hPairs
      have hAll := hSet cls [] olds hInstance fun _ _ => List.not_mem_nil
      obtain rfl := Option.some.inj (hChange.symm.trans hAll)
      exact ⟨f', _, hCode, rfl, hBecomes, hStop⟩
    · intro fault hRead
      exact hRun.raises fault (hMembers.raises input fault hRead)
  have hWhole : ∀ (input : Bytes) (cls : Str) (olds : List (Str × PyVal)), members.Instance olds →
      runAll ⟨input, newInstance ctx (less + 1)⟩ (front ++ .rewind :: code ++ postDeserialize (makePythonSafe (specFields spec)))
          (.method (.obj cls olds)) =
        (runAll ⟨input, newInstance ctx (less + 1)⟩ code (.method (.obj cls olds))).bind
          (runAll ⟨input, newInstance ctx (less + 1)⟩ (postDeserialize (makePythonSafe (specFields spec)))) := by
    intro input cls olds hInstance
    rw [runAll_append, runAll_append, runAll_eq_ok.mpr (exec_instantiate hSlots hInstance hAsked)]
    rfl
  constructor
  · intro input cls olds hInstance attrs n hRead
    obtain ⟨f, o, hRun, hObject, hBecomes, hStop⟩ := (hFills input cls olds hInstance).reads attrs n hRead
    obtain rfl := Option.some.inj hObject
    obtain ⟨v, v', _, hSet, hValue⟩ := hBecomes.object
    obtain rfl := Option.some.inj hSet
    exact ⟨f, hValue, hStop.trans (Nat.zero_add n), by rw [hWhole input cls olds hInstance, hRun]; rfl⟩
  · intro input cls olds hInstance fault hRead
    rw [hWhole input cls olds hInstance, (hFills input cls olds hInstance).raises fault hRead]
    rfl

theorem deserialize_eq_error_iff {code : List Stmt} (h : Deserializes ctx fuel spec members code) (input : Bytes) (cls : Str)
    {olds : List (Str × PyVal)} (hInstance : members.Instance olds) :
    deserialize ⟨input, newInstance ctx fuel⟩ code (.obj cls olds) = .error .deserializationError ↔
      members.read input = .error .struct := by
  rw [deserialize]
  cases hRead : members.read input with
  | error fault =>
    rw [h.raises input cls olds hInstance fault hRead]
    cases fault with
    | struct => exact iff_of_true rfl rfl
    | other => exact iff_of_false (by rintro ⟨⟩) (by rintro ⟨⟩)
  | ok read =>
    obtain ⟨attrs, n⟩ := read
    obtain ⟨f, _, _, hRun⟩ := h.reads input cls olds hInstance attrs n hRead
    refine iff_of_false (fun hRaised => ?_) (by rintro ⟨⟩)
    have hNot := run_postDeserialize ⟨input, newInstance ctx fuel⟩ (makePythonSafe (specFields spec)) f
    rw [hRun] at hRaised
    cases hCanon : runAll ⟨input, newInstance ctx fuel⟩ (postDeserialize (makePythonSafe (specFields spec))) f with
    | error fault =>
      rw [hCanon] at hRaised
      cases fault with
      | struct => exact hNot hCanon
      | other => cases hRaised
    | ok f' =>
      rw [hCanon] at hRaised
      cases hSelf : f'.valueOf .self with
      | none =>
        simp [Except.bind, hSelf, raising, Except.mapError, Raised.ofFault] at hRaised
      | some v =>
        simp [Except.bind, hSelf, raising, Except.mapError] at hRaised

theorem exists_methods (hCtx : PrimitivesUnregistered ctx) (h : resolve ctx fuel spec = some members)
    (hSlots : members.slots.Nodup) (package : Str) (counter counter' : Nat) :
    ∃ writer reader,
      serializeFn ctx fuel package (makePythonSafe (specFields spec)) counter = some writer ∧
      deserializeFn ctx fuel package (makePythonSafe (specFields spec)) counter' = some reader ∧
      (∀ env cls {attrs}, members.Canonical attrs → ∀ bs, serialize env writer (.obj cls attrs) = some bs ↔
        members.NamedAlike ∧ members.serial attrs = some bs) ∧
      (members.NamedAlike → Deserializes ctx fuel spec members reader) := by
  have hWrites := serializeFn_writes hCtx h hSlots package counter
  obtain ⟨writer, hWriter, _⟩ := hWrites ⟨[], newInstance ctx fuel⟩
  obtain ⟨reader, hReader, hReads⟩ := deserializeFn_deserializes hCtx h hSlots package counter'
  refine ⟨writer, reader, hWriter, hReader, fun env cls attrs hCanonical bs => ?_, hReads⟩
  obtain ⟨code, hCode, hRuns⟩ := hWrites env
  obtain rfl := Option.some.inj (hCode.symm.trans hWriter)
  obtain ⟨hAlike, hNot⟩ := hRuns cls attrs (members.shaped_of_canonical attrs hCanonical)
  rw [serialize]
  by_cases hNames : members.NamedAlike
  · rw [and_iff_right hNames]
    cases hSerial : members.serial attrs with
    | none => rw [(hAlike hNames).raises hSerial, Option.map_none]
    | some written =>
      obtain ⟨f, hRun, hBuff, _⟩ := (hAlike hNames).writes written hSerial
      rw [hRun, Option.map_some, hBuff]
      rfl
  · rw [hNot hNames]
    exact iff_of_false (by rintro ⟨⟩) fun hBoth => hNames hBoth.1

end

end XcRos.Genpy
