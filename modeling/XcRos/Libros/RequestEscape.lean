import XcRos.Libros.BoundMethods
import XcRos.Libros.ParentNamespace

/-! # Requests that end the server

The thread of the server carries out one request after another. It ends when something leaves a bound method that is no
`RobotRpcException`.
-/

namespace XcRos.Libros.BoundMethods

open XcRos.Foundation XcRos.Rpc
open XcRos.CppCommon (MString)

inductive Server where
  | running (node : Node)
  | ended (escape : Escape)

/-- A method of the table. What the loop of a multicall does behind the end of the thread is of no account. -/
def Handler.method (execute : Handler Node) : Method Server := fun params server =>
  match server with
  | .ended escape => (.ok .invalid, params, .ended escape)
  | .running node =>
    match execute params node with
    | .error escape => (.ok .invalid, params, .ended escape)
    | .ok (result, params, node) => (result, params, .running node)

/-- The other methods of the table, such as `getPid`: they throw a `RobotRpcException` at most, and advertise nothing. -/
structure OtherMethods where
  find : Bytes → Option (Method Node)
  noMulticall : find systemMulticall = none
  keepsTopics : ∀ {methodName execute}, find methodName = some execute → ∀ params node,
    (execute params node).2.2.advertisedTopics = node.advertisedTopics

def publisherUpdate : Bytes := bytes "publisherUpdate"
def requestTopic : Bytes := bytes "requestTopic"
def paramUpdate : Bytes := bytes "paramUpdate"

section

variable (env : Surroundings) (others : OtherMethods)

def handler (methodName : Bytes) : Option (Handler Node) :=
  if methodName = publisherUpdate then some (pubUpdateCallback env)
  else if methodName = requestTopic then some (requestTopicCallback env)
  else if methodName = paramUpdate then some paramUpdateCallback
  else (others.find methodName).map fun execute params node => .ok (execute params node)

def findMethod (methodName : Bytes) : Option (Method Server) := (handler env others methodName).map Handler.method

end

/-! ## Harmless calls -/

/-- `Header::write` fills its buffer, and the length is an `int`. -/
def writable (keyVals : MString) : Bool := (CppCommon.Header.write keyVals).any fun w => w.2.toNat ≤ intMax

section

variable (env : Surroundings) (topics : List Publication)

def harmlessUdpros (topic : Bytes) : List Value → Bool
  | [.base64 headerBytes, .string host, .int port, .int maxDatagramSize] =>
    match CppCommon.Header.parse headerBytes (.ofNat headerBytes.length) with
    | .outOfBounds => false
    | .failure _ _ => true
    | .success h _ =>
      match topics.find? fun p => p.name == topic && !p.dropped with
      | none => true
      | some p =>
        (p.validateHeader h).isSome || (env.allocates (keptDatagramSize maxDatagramSize) &&
          env.connect host port != .leftOpen && (env.connect host port == .refused || writable (p.answer env topic)))
  | _ => true

/-- The first protocol that is `TCPROS` or `UDPROS` decides, unless something else than a protocol is in front of it. -/
def harmlessProtos (topic : Bytes) : List Value → Bool
  | [] => true
  | .array (.string protoName :: params) :: protos =>
    if protoName = bytes "TCPROS" then true
    else if protoName = bytes "UDPROS" then harmlessUdpros env topics topic params
    else harmlessProtos topic protos
  | _ :: _ => true

def harmlessTopic (params : Value) : Bool :=
  match params.assertArray 3 with
  | none => true
  | some es =>
    match toText (es.getD 1 .invalid), elements (es.getD 2 .invalid) with
    | .ok topic, .ok protos => harmlessProtos env topics topic protos
    | _, _ => true

def harmlessParam (params : Value) : Bool :=
  match params.assertArray 3 with
  | none => true
  | some es =>
    match toText (es.getD 1 .invalid) with
    | .ok key => (Names.validate (Names.clean key)).isNone
    | .error _ => true

def harmless (call : Bytes × Value) : Bool :=
  if call.1 = requestTopic then harmlessTopic env topics call.2
  else if call.1 = paramUpdate then harmlessParam call.2
  else true

end

def callOf (entry : Value) : Option (Bytes × Value) :=
  match entryForm entry with
  | .call methodName params => some (methodName, params)
  | _ => none

/-- The calls that a request makes: its own, or those of the entries that a multicall reaches. -/
def calls (methodName : Bytes) (params : Value) : List (Bytes × Value) :=
  if methodName = systemMulticall then
    match multicallEntries params with
    | .ok entries => (reached entries).filterMap callOf
    | .error _ => []
  else [(methodName, params)]

/-! ## Names -/

theorem nameError_eq_none {nsKey : Bytes} (h : Names.validate nsKey = none) (fuel : Nat) : nameError fuel nsKey = none := by
  induction fuel generalizing nsKey with
  | zero => rfl
  | succ fuel ih =>
    rw [nameError]
    split
    · rfl
    · cases hParent : Names.parentNamespace nsKey with
      | ok parent => exact ih (Names.validate_parentNamespace hParent).2
      | error error => exact absurd h (Names.parentNamespace_error.mp ⟨error, hParent⟩)

/-! ## What a handler does -/

/-- A harmless call returns and leaves the topics alone, and another one does not return. -/
def Spec {α : Type} (nodeOf : α → Node) (topics : List Publication) (harmless : Bool) : Except Escape α → Prop
  | .ok a => harmless = true ∧ (nodeOf a).advertisedTopics = topics
  | .error _ => harmless = false

theorem Spec.map {α β : Type} {nodeOf : α → Node} {nodeOf' : β → Node} {topics : List Publication} {harmless : Bool}
    {r : Except Escape α} (h : Spec nodeOf topics harmless r) {f : α → β}
    (hKeeps : ∀ a, (nodeOf' (f a)).advertisedTopics = (nodeOf a).advertisedTopics) :
    Spec nodeOf' topics harmless (r.map f) := by
  cases r with
  | error escape => exact h
  | ok a => exact ⟨h.1, (hKeeps a).trans h.2⟩

def nodeOf (r : Except Fault Value × Value × Node) : Node := r.2.2

theorem update_spec (cache : Param.Cache) (key : Bytes) (v : Value) (node : Node) :
    Spec (fun cache => { node with cache := cache }) node.advertisedTopics (Names.validate (Names.clean key)).isNone
      (update cache key v) := by
  rw [update]
  cases hParent : Names.parentNamespace (Names.clean key) with
  | error error =>
    have hInvalid := Names.parentNamespace_error.mp ⟨error, hParent⟩
    show (Names.validate (Names.clean key)).isNone = false
    rwa [Option.isNone_eq_false_iff, ← Option.isSome_iff_ne_none] at *
  | ok parent =>
    obtain ⟨hKey, hValid⟩ := Names.validate_parentNamespace hParent
    dsimp only
    rw [nameError_eq_none hValid, hKey]
    exact ⟨rfl, rfl⟩

theorem paramUpdateCallback_spec (params : Value) (node : Node) :
    Spec nodeOf node.advertisedTopics (harmlessParam params) (paramUpdateCallback params node) := by
  rw [paramUpdateCallback, harmlessParam]
  cases params.assertArray 3 with
  | none => exact ⟨rfl, rfl⟩
  | some es =>
    dsimp only
    cases toText (es.getD 1 .invalid) with
    | error fault => exact ⟨rfl, rfl⟩
    | ok key => exact (update_spec node.cache key (es.getD 2 .invalid) node).map fun _ => rfl

theorem pubUpdate_topics (env : Surroundings) (node : Node) (topic : Bytes) (pubs : List Bytes) :
    (node.pubUpdate env topic pubs).2.advertisedTopics = node.advertisedTopics := by
  rw [Node.pubUpdate]
  split
  · rfl
  split
  · rfl
  split
  · rfl
  split
  · rfl
  · dsimp only
    split <;> rfl

theorem pubUpdateCallback_spec (env : Surroundings) (params : Value) (node : Node) :
    Spec nodeOf node.advertisedTopics true (pubUpdateCallback env params node) := by
  rw [pubUpdateCallback]
  split
  · exact ⟨rfl, rfl⟩
  split
  · exact ⟨rfl, rfl⟩
  dsimp only
  split
  · exact ⟨rfl, rfl⟩
  split
  · exact ⟨rfl, rfl⟩
  · exact ⟨rfl, pubUpdate_topics env node _ _⟩

theorem udprosIncomingConnection_topics (node : Node) (header : MString) :
    (node.udprosIncomingConnection header).advertisedTopics = node.advertisedTopics := by
  rw [Node.udprosIncomingConnection]
  split
  · rfl
  split
  · rfl
  split <;> rfl

theorem headerValue_spec {α : Type} (keyVals : MString) {nodeOf : α → Node} {topics : List Publication} {f : Value → α}
    (hKeeps : ∀ v, (nodeOf (f v)).advertisedTopics = topics) :
    Spec nodeOf topics (writable keyVals) ((headerValue keyVals).map f) := by
  rw [headerValue, writable]
  cases CppCommon.Header.write keyVals with
  | none => exact rfl
  | some w =>
    dsimp only
    rw [Option.any_some]
    split
    · rename_i hLong
      exact decide_eq_false (Nat.not_le.mpr hLong)
    · rename_i hShort
      exact ⟨decide_eq_true (Nat.not_lt.mp hShort), hKeeps _⟩

theorem outgoing_spec {α : Type} (env : Surroundings) {nodeOf : α → Node} {topics : List Publication} (host : Bytes)
    (port maxDatagramSize : Int32) (keyVals : MString) {f : Value → α} {refused : α}
    (hKeeps : ∀ v, (nodeOf (f v)).advertisedTopics = topics) (hRefused : (nodeOf refused).advertisedTopics = topics) :
    Spec nodeOf topics (env.allocates (keptDatagramSize maxDatagramSize) && env.connect host port != .leftOpen &&
        (env.connect host port == .refused || writable keyVals))
      ((createOutgoing env host port maxDatagramSize).bind fun transport =>
        if transport then (headerValue keyVals).map f else .ok refused) := by
  rw [createOutgoing]
  cases env.allocates (keptDatagramSize maxDatagramSize) with
  | false => exact rfl
  | true =>
    rw [Bool.true_and]
    cases env.connect host port with
    | connected => exact headerValue_spec keyVals hKeeps
    | refused => exact ⟨rfl, hRefused⟩
    | leftOpen => exact rfl

theorem requestUdpros_spec (env : Surroundings) (node : Node) (topic : Bytes) (params : List Value) :
    Spec Prod.snd node.advertisedTopics (harmlessUdpros env node.advertisedTopics topic params)
      (requestUdpros env node topic params) := by
  rw [requestUdpros.eq_def]
  split
  · rename_i headerBytes host port maxDatagramSize
    rw [harmlessUdpros]
    cases CppCommon.Header.parse headerBytes (.ofNat headerBytes.length) with
    | outOfBounds => exact rfl
    | failure _ _ => exact ⟨rfl, rfl⟩
    | success h _ =>
      dsimp only
      rw [Node.lookupPublication]
      cases node.advertisedTopics.find? fun p => p.name == topic && !p.dropped with
      | none => exact ⟨rfl, rfl⟩
      | some p =>
        dsimp only
        cases p.validateHeader h with
        | some errorMsg => exact ⟨rfl, rfl⟩
        | none =>
          exact outgoing_spec env host port maxDatagramSize (p.answer env topic)
            (fun _ => udprosIncomingConnection_topics _ h) rfl
  · rename_i hOther
    rw [harmlessUdpros.eq_2 _ _ _ _ hOther]
    exact ⟨rfl, rfl⟩

theorem requestProtos_spec (env : Surroundings) (node : Node) (topic : Bytes) (protos : List Value) :
    Spec Prod.snd node.advertisedTopics (harmlessProtos env node.advertisedTopics topic protos)
      (requestProtos env node topic protos) := by
  fun_induction requestProtos env node topic protos with
  | case1 => exact ⟨rfl, rfl⟩
  | case2 params protos =>
    rw [harmlessProtos, if_pos rfl]
    exact ⟨rfl, rfl⟩
  | case3 params protos hTcp =>
    rw [harmlessProtos, if_neg hTcp, if_pos rfl]
    exact requestUdpros_spec env node topic params
  | case4 protoName params protos hTcp hUdp ih =>
    rw [harmlessProtos, if_neg hTcp, if_neg hUdp]
    exact ih
  | case5 proto protos hOther =>
    rw [harmlessProtos.eq_3 _ _ _ _ _ hOther]
    exact ⟨rfl, rfl⟩

theorem requestTopicCallback_spec (env : Surroundings) (params : Value) (node : Node) :
    Spec nodeOf node.advertisedTopics (harmlessTopic env node.advertisedTopics params)
      (requestTopicCallback env params node) := by
  rw [requestTopicCallback, harmlessTopic]
  cases params.assertArray 3 with
  | none => exact ⟨rfl, rfl⟩
  | some es =>
    dsimp only
    cases toText (es.getD 1 .invalid) with
    | error fault => exact ⟨rfl, rfl⟩
    | ok topic =>
      dsimp only
      cases elements (es.getD 2 .invalid) with
      | error fault => exact ⟨rfl, rfl⟩
      | ok protos =>
        refine (requestProtos_spec env node topic protos).map fun r => ?_
        obtain ⟨accepted, left⟩ := r
        cases accepted <;> rfl

/-! ## The thread -/

section

variable {env : Surroundings} {others : OtherMethods}

theorem handler_spec {methodName : Bytes} {execute : Handler Node} (h : handler env others methodName = some execute)
    (params : Value) (node : Node) :
    Spec nodeOf node.advertisedTopics (harmless env node.advertisedTopics (methodName, params)) (execute params node) := by
  rw [handler] at h
  rw [harmless]
  split at h
  · rename_i hName
    cases h
    have hTopic : methodName ≠ requestTopic := by rw [hName]; decide
    have hParam : methodName ≠ paramUpdate := by rw [hName]; decide
    rw [if_neg hTopic, if_neg hParam]
    exact pubUpdateCallback_spec env params node
  split at h
  · rename_i hName
    cases h
    rw [if_pos hName]
    exact requestTopicCallback_spec env params node
  rename_i hTopic
  rw [if_neg hTopic]
  split at h
  · rename_i hName
    cases h
    rw [if_pos hName]
    exact paramUpdateCallback_spec params node
  · rename_i hParam
    rw [if_neg hParam]
    obtain ⟨method, hFind, rfl⟩ := Option.map_eq_some_iff.mp h
    exact ⟨rfl, others.keepsTopics hFind params node⟩

theorem harmless_of_handler_none {methodName : Bytes} (h : handler env others methodName = none) (topics : List Publication)
    (params : Value) : harmless env topics (methodName, params) = true := by
  rw [handler] at h
  split at h
  · cases h
  split at h
  · cases h
  rename_i hTopic
  split at h
  · cases h
  rename_i hParam
  rw [harmless, if_neg hTopic, if_neg hParam]

def Server.Alive (topics : List Publication) : Server → Prop
  | .running node => node.advertisedTopics = topics
  | .ended _ => False

theorem alive_method {methodName : Bytes} {execute : Handler Node} (h : handler env others methodName = some execute)
    (topics : List Publication) (params : Value) (server : Server) :
    (Handler.method execute params server).2.2.Alive topics ↔
      server.Alive topics ∧ harmless env topics (methodName, params) = true := by
  cases server with
  | ended escape => exact iff_of_false id fun hAlive => hAlive.1
  | running node =>
    have hSpec := handler_spec h params node
    rw [Handler.method]
    cases hRun : execute params node with
    | error escape =>
      rw [hRun] at hSpec
      refine iff_of_false id ?_
      rintro ⟨hTopics, hHarmless⟩
      rw [Server.Alive] at hTopics
      rw [← hTopics, hSpec] at hHarmless
      cases hHarmless
    | ok r =>
      rw [hRun] at hSpec
      obtain ⟨hHarmless, hTopics⟩ := hSpec
      show r.2.2.advertisedTopics = topics ↔ node.advertisedTopics = topics ∧ _
      rw [nodeOf] at hTopics
      rw [hTopics]
      exact ⟨fun hSame => ⟨hSame, hSame ▸ hHarmless⟩, And.left⟩

theorem alive_executeMethod {methodName : Bytes} {params : Value} {server : Server} {r : Except Fault Value × Value × Server}
    (h : executeMethod (findMethod env others) methodName params server = some r) (topics : List Publication) :
    r.2.2.Alive topics ↔ server.Alive topics ∧ harmless env topics (methodName, params) = true := by
  obtain ⟨method, hMethod, rfl⟩ := Option.map_eq_some_iff.mp h
  obtain ⟨execute, hExecute, rfl⟩ := Option.map_eq_some_iff.mp hMethod
  exact alive_method hExecute topics params server

theorem alive_answer {entry element : Value} {server server' : Server}
    (h : Answer (findMethod env others) entry server element server') (hTyped : entryForm entry ≠ .mistyped)
    (topics : List Publication) :
    server'.Alive topics ↔ server.Alive topics ∧ ∀ call ∈ callOf entry, harmless env topics call = true := by
  cases h with
  | malformed hForm => simp [callOf, hForm]
  | mistyped hForm => exact absurd hForm hTyped
  | @unknown methodName params hForm hNone =>
    have hHandler : handler env others methodName = none := Option.map_eq_none_iff.mp hNone
    simp [callOf, hForm, harmless_of_handler_none hHandler]
  | result hForm hExecute => simpa [callOf, hForm] using alive_executeMethod hExecute topics
  | thrown hForm hExecute => simpa [callOf, hForm] using alive_executeMethod hExecute topics

theorem alive_answers {entries elements : List Value} {server server' : Server}
    (h : Answers (findMethod env others) entries server elements server')
    (hTyped : ∀ entry ∈ entries, entryForm entry ≠ .mistyped) (topics : List Publication) :
    server'.Alive topics ↔
      server.Alive topics ∧ ∀ call ∈ entries.filterMap callOf, harmless env topics call = true := by
  induction h with
  | nil server => simp
  | @cons entry element entries elements server server' server'' hHead _ ih =>
    rw [ih fun e he => hTyped e (List.mem_cons_of_mem entry he),
      alive_answer hHead (hTyped entry List.mem_cons_self) topics, and_assoc, List.filterMap_cons]
    cases hCall : callOf entry with
    | none => simp
    | some call => simp

theorem findMethod_multicall : findMethod env others systemMulticall = none := by
  have hUpdate : systemMulticall ≠ publisherUpdate := by decide
  have hTopic : systemMulticall ≠ requestTopic := by decide
  have hParam : systemMulticall ≠ paramUpdate := by decide
  rw [findMethod, handler, if_neg hUpdate, if_neg hTopic, if_neg hParam, others.noMulticall]
  rfl

theorem executeCall_alone {methodName : Bytes} (hName : methodName ≠ systemMulticall) (params : Value) (server : Server) :
    ∃ r, (∀ fuel, executeCall (findMethod env others) (fuel + 2) methodName params server = some r) ∧
      ∀ topics, r.2.Alive topics ↔ server.Alive topics ∧ harmless env topics (methodName, params) = true := by
  cases hExecute : executeMethod (findMethod env others) methodName params server with
  | some r => exact ⟨(r.1, r.2.2), fun fuel => by rw [executeCall, hExecute], alive_executeMethod hExecute⟩
  | none =>
    have hMethod : findMethod env others methodName = none := Option.map_eq_none_iff.mp hExecute
    have hHandler : handler env others methodName = none := Option.map_eq_none_iff.mp hMethod
    refine ⟨(.error (unknownMethod methodName), server), fun fuel => ?_, fun topics => ?_⟩
    · rw [executeCall_multicall hMethod, executeMulticall_other hName, Option.map_some, multicallOutcome]
    · rw [harmless_of_handler_none hHandler, and_iff_left rfl]

theorem executeCall_reached {params : Value} {entries : List Value} (hEntries : multicallEntries params = .ok entries)
    (hSelf : callsItself entries = false) (server : Server) :
    ∃ r, (∀ fuel, executeCall (findMethod env others) (fuel + 2) systemMulticall params server = some r) ∧
      ∀ topics, r.2.Alive topics ↔
        server.Alive topics ∧ ∀ call ∈ (reached entries).filterMap callOf, harmless env topics call = true := by
  obtain ⟨elements, server', hAnswers⟩ := exists_answers (findMethod env others) (reached entries) server
  obtain ⟨outcome, params', hOutcome, hEnd⟩ := executeMulticall_reached hEntries hSelf hAnswers
  have hState : (multicallOutcome systemMulticall (outcome, params', server')).2 = server' := by
    obtain ⟨rfl, _⟩ | ⟨rfl, _⟩ := hOutcome <;> rfl
  refine ⟨multicallOutcome systemMulticall (outcome, params', server'), fun fuel => ?_, fun topics => ?_⟩
  · rw [executeCall_multicall findMethod_multicall, hEnd, Option.map_some]
  · rw [hState]
    exact alive_answers hAnswers (fun _ hEntry => typed_of_mem_reached hEntry) topics

theorem mem_calls_multicall {entries : List Value} :
    callsItself entries = true ↔ ∃ call ∈ (reached entries).filterMap callOf, call.1 = systemMulticall := by
  rw [callsItself_iff]
  constructor
  · rintro ⟨entry, hEntry, params, hForm⟩
    exact ⟨_, List.mem_filterMap.mpr ⟨entry, hEntry, by rw [callOf, hForm]⟩, rfl⟩
  · rintro ⟨⟨methodName, params⟩, hCall, rfl⟩
    obtain ⟨entry, hEntry, hForm⟩ := List.mem_filterMap.mp hCall
    refine ⟨entry, hEntry, params, ?_⟩
    rw [callOf] at hForm
    split at hForm
    · rename_i hCallForm
      cases hForm
      exact hCallForm
    · cases hForm

theorem running_iff {methodName : Bytes} {params : Value} {node : Node} {Harmless : List Publication → Prop}
    {r : Except Fault Value × Server}
    (hEnds : ∀ fuel, executeCall (findMethod env others) (fuel + 2) methodName params (.running node) = some r)
    (hAlive : ∀ topics, r.2.Alive topics ↔ (Server.running node).Alive topics ∧ Harmless topics) :
    (∃ fuel outcome node', executeCall (findMethod env others) fuel methodName params (.running node) =
        some (outcome, .running node')) ↔ Harmless node.advertisedTopics := by
  constructor
  · rintro ⟨fuel, outcome, node', hCall⟩
    have hMore := executeCall_le (Nat.le_add_right fuel 2) hCall
    rw [hEnds] at hMore
    cases hMore
    obtain ⟨hTopics, hHarmless⟩ := (hAlive node'.advertisedTopics).mp rfl
    rw [Server.Alive] at hTopics
    rwa [hTopics]
  · intro hHarmless
    have hRunning := (hAlive node.advertisedTopics).mpr ⟨rfl, hHarmless⟩
    obtain ⟨outcome, server⟩ := r
    cases server with
    | running node' => exact ⟨2, outcome, node', hEnds 0⟩
    | ended escape => cases hRunning

theorem executeCall_running_iff (methodName : Bytes) (params : Value) (node : Node) :
    (∃ fuel outcome node', executeCall (findMethod env others) fuel methodName params (.running node) =
        some (outcome, .running node')) ↔
      ∀ call ∈ calls methodName params, call.1 ≠ systemMulticall ∧ harmless env node.advertisedTopics call = true := by
  rcases eq_or_ne methodName systemMulticall with rfl | hName
  · rw [calls, if_pos rfl]
    cases hEntries : multicallEntries params with
    | error fault =>
      refine iff_of_true ⟨2, .error fault, node, ?_⟩ (by simp)
      rw [executeCall_multicall findMethod_multicall, executeMulticall, fuelled]
      simp only [ne_eq, not_true_eq_false, if_false, hEntries, Option.map_some, multicallOutcome]
    | ok entries =>
      cases hSelf : callsItself entries with
      | true =>
        obtain ⟨call, hCall, hItself⟩ := mem_calls_multicall.mp hSelf
        refine iff_of_false ?_ fun hAll => (hAll call hCall).1 hItself
        rintro ⟨fuel, outcome, node', hRun⟩
        rw [executeCall_multicall findMethod_multicall, executeMulticall_none findMethod_multicall fuel hEntries hSelf] at hRun
        cases hRun
      | false =>
        obtain ⟨r, hEnds, hAlive⟩ := @executeCall_reached env others _ _ hEntries hSelf (.running node)
        rw [running_iff hEnds hAlive]
        refine forall₂_congr fun call hCall => (and_iff_right ?_).symm
        intro hItself
        rw [mem_calls_multicall.mpr ⟨call, hCall, hItself⟩] at hSelf
        cases hSelf
  · obtain ⟨r, hEnds, hAlive⟩ := @executeCall_alone env others _ hName params (.running node)
    rw [running_iff hEnds hAlive, calls, if_neg hName]
    simp only [List.mem_singleton, forall_eq]
    exact (and_iff_right hName).symm

theorem executeRequest_running_iff [DoubleText] (request : Bytes) (node : Node) :
    (∃ fuel response node', executeRequest (findMethod env others) fuel request (.running node) =
        some (response, .running node')) ↔
      ∃ fuel outcome node', executeCall (findMethod env others) fuel (parseRequest request).1
        (paramsValue (parseRequest request).2) (.running node) = some (outcome, .running node') := by
  constructor
  · rintro ⟨fuel, response, node', hRun⟩
    obtain ⟨⟨outcome, server⟩, hCall, hResponse⟩ := Option.map_eq_some_iff.mp hRun
    cases hResponse
    exact ⟨fuel, outcome, node', hCall⟩
  · rintro ⟨fuel, outcome, node', hCall⟩
    exact ⟨fuel, generate outcome, node', by rw [executeRequest, hCall, Option.map_some]⟩

/-- A request leaves the thread at work, with a response, just if it makes harmless calls only. -/
theorem request_answered_iff [DoubleText] (env : Surroundings) (others : OtherMethods) (request : Bytes) (node : Node) :
    (∃ fuel response node', executeRequest (findMethod env others) fuel request (.running node) =
        some (response, .running node')) ↔
      ∀ call ∈ calls (parseRequest request).1 (paramsValue (parseRequest request).2),
        call.1 ≠ systemMulticall ∧ harmless env node.advertisedTopics call = true := by
  rw [executeRequest_running_iff, executeCall_running_iff]

end

/-! ## Requests that end the thread -/

def noOthers : OtherMethods where
  find _ := none
  noMulticall := rfl
  keepsTopics h := by cases h

def surroundings : Surroundings where
  name := bytes "/talker"
  host := bytes "here"
  tcpPort := 4000
  udpPort := 4001
  serverURI := bytes "http://here:4002/"
  connect _ _ := .connected
  allocates _ := true
  contacted _ _ _ := true

def talker : Node where
  shuttingDown := false
  advertisedTopics := [⟨bytes "/chatter", bytes "std_msgs/String", bytes "992c", bytes "string data", false⟩]
  subscriberLinks := []
  subscriptions := []
  cache := .empty
  connectionIdCounter := 0
  lastErrorMessage := bytes "Unknown Error"

def digitUpdate : List Value := [.string (bytes "/master"), .string (bytes "9lives"), .int 1]

def cutHeader : List Value := [.base64 [7], .string (bytes "there"), .int 5000, .int 1500]

def cutRequest : List Value :=
  [.string (bytes "/listener"), .string (bytes "/chatter"), .array [.array (.string (bytes "UDPROS") :: cutHeader)]]

theorem not_harmless_cutHeader : harmlessUdpros surroundings talker.advertisedTopics (bytes "/chatter") cutHeader = false := by
  have hParse : CppCommon.Header.parse [7] (.ofNat [(7 : UInt8)].length) = .outOfBounds := by
    rw [CppCommon.Header.parse, CppCommon.Header.parseFrom]
    rfl
  rw [cutHeader, harmlessUdpros, hParse]

theorem digitUpdate_codable [DoubleText] : ∀ v ∈ digitUpdate, v.Codable := by
  simp only [digitUpdate, List.forall_mem_cons, List.not_mem_nil, false_implies, implies_true, and_true]
  exact ⟨.string _, .string _, .int _⟩

theorem cutRequest_codable [DoubleText] : ∀ v ∈ cutRequest, v.Codable := by
  have hProtocol : ∀ v ∈ Value.string (bytes "UDPROS") :: cutHeader, v.Codable := by
    simp only [cutHeader, List.forall_mem_cons, List.not_mem_nil, false_implies, implies_true, and_true]
    exact ⟨.string _, .base64 _, .string _, .int _, .int _⟩
  simp only [cutRequest, List.forall_mem_cons, List.not_mem_nil, false_implies, implies_true, and_true]
  exact ⟨.string _, .string _, .array (List.forall_mem_singleton.mpr (.array hProtocol))⟩

theorem unanswered_of_harmful {methodName : Bytes} (hName : 60 ∉ methodName) (hNonempty : methodName ≠ []) {params : List Value}
    (hParams : ∀ v ∈ params, @Value.Codable noDoubles v)
    (hLength : (@Client.requestBody noDoubles methodName (.array params)).length ≤ intMax)
    {env : Surroundings} {others : OtherMethods} {node : Node} (hMulticall : methodName ≠ systemMulticall) (hSome : params ≠ [])
    (hHarmful : harmless env node.advertisedTopics (methodName, .array params) = false) :
    ¬ ∃ fuel response node', @executeRequest Server (findMethod env others) noDoubles fuel
      (@Client.requestBody noDoubles methodName (.array params)) (.running node) = some (response, .running node') := by
  intro hAnswered
  have hCalls := executeCall_running_iff _ _ _ |>.mp ((@executeRequest_running_iff env others noDoubles _ node).mp hAnswered)
  rw [@parseRequest_elements noDoubles methodName hName hNonempty params hParams hLength] at hCalls
  obtain ⟨v, params, rfl⟩ := List.exists_cons_of_ne_nil hSome
  have hCall := (hCalls (methodName, .array (v :: params)) (by
    show _ ∈ calls methodName (.array (v :: params))
    rw [calls, if_neg hMulticall]
    exact List.mem_singleton_self _)).2
  rw [hHarmful] at hCall
  cases hCall

theorem request_unanswered :
    (¬ ∃ fuel response node', @executeRequest Server (findMethod surroundings noOthers) noDoubles fuel
      (@Client.requestBody noDoubles paramUpdate (.array digitUpdate)) (.running talker) =
        some (response, .running node')) ∧
    ¬ ∃ fuel response node', @executeRequest Server (findMethod surroundings noOthers) noDoubles fuel
      (@Client.requestBody noDoubles requestTopic (.array cutRequest)) (.running talker) =
        some (response, .running node') := by
  constructor
  · exact unanswered_of_harmful (by decide) (by decide) (@digitUpdate_codable noDoubles) (by decide +kernel) (by decide)
      (List.cons_ne_nil _ _) (by decide)
  · exact unanswered_of_harmful (by decide) (by decide) (@cutRequest_codable noDoubles) (by decide +kernel) (by decide)
      (List.cons_ne_nil _ _) not_harmless_cutHeader

end XcRos.Libros.BoundMethods
