import XcRos.Foundation.Fuel
import XcRos.Rpc.CallRoundTrip

/-! # Execution of requests

`executeRequest` with `executeMethod` and `executeMulticall`. The registered methods are a parameter: a method may
change its parameters and a state, and leaves a result or throws. The recursion takes fuel.
-/

namespace XcRos.Rpc

open XcRos.Foundation

universe u

/-- `RobotRpcException` -/
structure Fault where
  message : Bytes
  code : Int32
deriving DecidableEq, Repr

/-- `RobotRpcServerMethod::execute`: the result or the exception, the parameters it leaves, and the state. -/
abbrev Method (σ : Type u) := Value → σ → Except Fault Value × Value × σ

def systemMulticall : Bytes := bytes "system.multicall"
def methodNameMember : Bytes := bytes "methodName"
def paramsMember : Bytes := bytes "params"

def typeError : Fault := ⟨bytes "type error", -1⟩

def notAnArray : Fault := ⟨bytes "type error: expected an array", -1⟩

def expectedArray : Fault := ⟨systemMulticall ++ bytes ": Invalid argument (expected an array)", -1⟩

def expectedStruct : Fault :=
  ⟨systemMulticall ++ bytes ": Invalid argument (expected a struct with members methodName and params)", -1⟩

def unknownMethod (methodName : Bytes) : Fault := ⟨methodName ++ bytes ": unknown method name", -1⟩

def Fault.toStruct (fault : Fault) : Value := faultStruct fault.message fault.code

def ensureValid : Value → Value
  | .invalid => .string []
  | v => v

section

variable {σ : Type u} (findMethod : Bytes → Option (Method σ))

/-- `none` if there is no method of that name. -/
def executeMethod (methodName : Bytes) (params : Value) (s : σ) : Option (Except Fault Value × Value × σ) :=
  (findMethod methodName).map fun execute =>
    let r := execute params s
    (r.1.map ensureValid, r.2)

/-! ## Entries -/

/-- The array in the one parameter of `system.multicall`. -/
def multicallEntries : Value → Except Fault (List Value)
  | .array [.array entries] => .ok entries
  | .array _ => .error expectedArray
  | .string s => .error (if s.length = 1 then notAnArray else expectedArray)
  | .base64 data => .error (if data.length = 1 then notAnArray else expectedArray)
  | .struct members => .error (if members.length = 1 then notAnArray else expectedArray)
  | _ => .error typeError

/-- What an entry is: no struct with both members, one whose `methodName` is no string, or a call. -/
inductive EntryForm where
  | malformed
  | mistyped
  | call (methodName : Bytes) (params : Value)

def entryForm : Value → EntryForm
  | .struct members =>
    match members.lookup methodNameMember, members.lookup paramsMember with
    | some (.string methodName), some params => .call methodName params
    -- the conversion makes an empty string of an invalid value
    | some .invalid, some params => .call [] params
    | some _, some _ => .mistyped
    | _, _ => .malformed
  | _ => .malformed

def setParams (params : Value) : Value → Value
  | .struct members => .struct (members.map fun m => if m.1 = paramsMember then (m.1, params) else m)
  | v => v

/-- The element of the result for an entry: the result, or a fault. `none` stands for an unknown name. -/
def entryResult (methodName : Bytes) : Except Fault (Option Value) → Value
  | .ok (some v) => .array [v]
  | .ok none => (unknownMethod methodName).toStruct
  | .error fault => fault.toStruct

/-! ## Multicall -/

/-- What `executeMulticall` leaves: false, or true and the result, or an exception; then the parameters and the state. -/
abbrev MulticallResult (σ : Type u) := Except Fault (Option Value) × Value × σ

/-- The loop of `executeMulticall`, with so many entries to go. `sub` is the recursive call. -/
def multicallLoop (sub : Bytes × Value × σ → Option (MulticallResult σ)) :
    Nat → List Value → List Value → σ → Option (MulticallResult σ)
  | 0, results, entries, s => some (.ok (some (.array results)), .array [.array entries], s)
  | remaining + 1, results, entries, s =>
    let i := results.length
    match entryForm (entries.getD i .invalid) with
    | .malformed => multicallLoop sub remaining (results ++ [expectedStruct.toStruct]) entries s
    -- the name is converted outside of the try block
    | .mistyped => some (.error typeError, .array [.array entries], s)
    | .call methodName methodParams =>
      match executeMethod findMethod methodName methodParams s with
      | some (outcome, params, s) =>
        multicallLoop sub remaining (results ++ [entryResult methodName (outcome.map some)])
          (entries.modify i (setParams params)) s
      | none =>
        -- the recursive call gets the parameters of this one, and not those of the entry
        (sub (methodName, .array [.array entries], s)).bind fun (outcome, params, s) =>
          multicallLoop sub remaining (results ++ [entryResult methodName outcome])
            (match multicallEntries params with
              | .ok entries => entries
              | .error _ => []) s

def executeMulticall : Nat → Bytes × Value × σ → Option (MulticallResult σ) :=
  fuelled fun sub (methodName, params, s) =>
    if methodName ≠ systemMulticall then some (.ok none, params, s)
    else
      match multicallEntries params with
      | .error fault => some (.error fault, params, s)
      | .ok entries => multicallLoop findMethod sub entries.length [] entries s

/-- What `executeMulticall` means for the request: a result, or a fault. -/
def multicallOutcome (methodName : Bytes) : MulticallResult σ → Except Fault Value × σ
  | (.ok (some v), _, s) => (.ok v, s)
  | (.ok none, _, s) => (.error (unknownMethod methodName), s)
  | (.error fault, _, s) => (.error fault, s)

/-- The `try` block of `executeRequest`: the result, or the exception or the unknown name. -/
def executeCall (fuel : Nat) (methodName : Bytes) (params : Value) (s : σ) : Option (Except Fault Value × σ) :=
  match executeMethod findMethod methodName params s with
  | some (result, _, s) => some (result, s)
  | none => (executeMulticall findMethod fuel (methodName, params, s)).map (multicallOutcome methodName)

def generate [DoubleText] : Except Fault Value → Bytes
  | .ok v => generateResponse v.toXml
  | .error fault => generateFaultResponse fault.message fault.code

/-- `executeRequest`: the response and the state. -/
def executeRequest [DoubleText] (fuel : Nat) (request : Bytes) (s : σ) : Option (Bytes × σ) :=
  let parsed := parseRequest request
  (executeCall findMethod fuel parsed.1 (paramsValue parsed.2) s).map fun r => (generate r.1, r.2)

end

/-! ## Each entry alone -/

section

variable {σ : Type u} {findMethod : Bytes → Option (Method σ)}

/-- The element for an entry by itself, and the state that its call leaves. -/
inductive Answer (findMethod : Bytes → Option (Method σ)) (entry : Value) (s : σ) : Value → σ → Prop
  | malformed (hForm : entryForm entry = .malformed) : Answer findMethod entry s expectedStruct.toStruct s
  | mistyped (hForm : entryForm entry = .mistyped) (fault : Fault) : Answer findMethod entry s fault.toStruct s
  | unknown {methodName : Bytes} {params : Value} (hForm : entryForm entry = .call methodName params)
      (hNone : findMethod methodName = none) : Answer findMethod entry s (unknownMethod methodName).toStruct s
  | result {methodName : Bytes} {params params' v : Value} {s' : σ} (hForm : entryForm entry = .call methodName params)
      (hExecute : executeMethod findMethod methodName params s = some (.ok v, params', s')) :
      Answer findMethod entry s (.array [v]) s'
  | thrown {methodName : Bytes} {params params' : Value} {fault : Fault} {s' : σ}
      (hForm : entryForm entry = .call methodName params)
      (hExecute : executeMethod findMethod methodName params s = some (.error fault, params', s')) :
      Answer findMethod entry s fault.toStruct s'

inductive Answers (findMethod : Bytes → Option (Method σ)) : List Value → σ → List Value → σ → Prop
  | nil (s : σ) : Answers findMethod [] s [] s
  | cons {entry element : Value} {entries elements : List Value} {s s' s'' : σ}
      (hHead : Answer findMethod entry s element s') (hTail : Answers findMethod entries s' elements s'') :
      Answers findMethod (entry :: entries) s (element :: elements) s''

theorem Answers.length_eq {entries elements : List Value} {s s' : σ} (h : Answers findMethod entries s elements s') :
    elements.length = entries.length := by
  induction h with
  | nil => rfl
  | cons _ _ ih => rw [List.length_cons, List.length_cons, ih]

theorem exists_answer (findMethod : Bytes → Option (Method σ)) (entry : Value) (s : σ) : ∃ element s', Answer findMethod entry s element s' := by
  cases hForm : entryForm entry with
  | malformed => exact ⟨_, s, .malformed hForm⟩
  | mistyped => exact ⟨_, s, .mistyped hForm typeError⟩
  | call methodName params =>
    cases hMethod : findMethod methodName with
    | none => exact ⟨_, s, .unknown hForm hMethod⟩
    | some execute =>
      have hExecute : executeMethod findMethod methodName params s =
          some ((execute params s).1.map ensureValid, (execute params s).2) := by
        rw [executeMethod, hMethod, Option.map_some]
      cases hResult : (execute params s).1.map ensureValid with
      | ok v =>
        rw [hResult] at hExecute
        exact ⟨_, _, .result hForm hExecute⟩
      | error fault =>
        rw [hResult] at hExecute
        exact ⟨_, _, .thrown hForm hExecute⟩

theorem exists_answers (findMethod : Bytes → Option (Method σ)) (entries : List Value) (s : σ) :
    ∃ elements s', Answers findMethod entries s elements s' := by
  induction entries generalizing s with
  | nil => exact ⟨[], s, .nil s⟩
  | cons entry entries ih =>
    obtain ⟨element, s', hHead⟩ := exists_answer findMethod entry s
    obtain ⟨elements, s'', hTail⟩ := ih s'
    exact ⟨element :: elements, s'', .cons hHead hTail⟩

/-- The loop reaches an entry that names `system.multicall`. -/
def callsItself : List Value → Bool
  | [] => false
  | entry :: entries =>
    match entryForm entry with
    | .malformed => callsItself entries
    | .mistyped => false
    | .call methodName _ => methodName == systemMulticall || callsItself entries

def isMistyped (entry : Value) : Bool :=
  match entryForm entry with
  | .mistyped => true
  | _ => false

theorem isMistyped_iff {entry : Value} : isMistyped entry = true ↔ entryForm entry = .mistyped := by
  rw [isMistyped]
  cases entryForm entry with
  | mistyped => exact ⟨fun _ => rfl, fun _ => rfl⟩
  | malformed => exact ⟨fun h => absurd h (by simp), fun h => by cases h⟩
  | call methodName params => exact ⟨fun h => absurd h (by simp), fun h => by cases h⟩

/-- The entries in front of the first whose `methodName` is no string. -/
def reached (entries : List Value) : List Value := entries.takeWhile fun entry => !isMistyped entry

theorem typed_of_mem_reached {entries : List Value} {entry : Value} (h : entry ∈ reached entries) :
    entryForm entry ≠ .mistyped := by
  intro hForm
  have hTyped := List.mem_takeWhile_imp h
  rw [isMistyped_iff.mpr hForm] at hTyped
  cases hTyped

theorem reached_eq_self {entries : List Value} (h : ∀ entry ∈ entries, entryForm entry ≠ .mistyped) :
    reached entries = entries := by
  refine List.takeWhile_eq_self_iff.mpr fun entry hEntry => ?_
  rw [Bool.not_eq_true', ← Bool.not_eq_true, isMistyped_iff]
  exact h entry hEntry

theorem reached_append (entries : List Value) :
    entries = reached entries ∨
      ∃ entry rest, entryForm entry = .mistyped ∧ entries = reached entries ++ entry :: rest := by
  induction entries with
  | nil => exact .inl rfl
  | cons entry entries ih =>
    cases hMistyped : isMistyped entry with
    | true => exact .inr ⟨entry, entries, isMistyped_iff.mp hMistyped, by simp [reached, hMistyped]⟩
    | false =>
      have hCons : reached (entry :: entries) = entry :: reached entries := by simp [reached, hMistyped]
      rw [hCons]
      rcases ih with hAll | ⟨e, rest, hForm, hSplit⟩
      · exact .inl (congrArg _ hAll)
      · exact .inr ⟨e, rest, hForm, congrArg _ hSplit⟩

theorem callsItself_iff {entries : List Value} :
    callsItself entries = true ↔ ∃ entry ∈ reached entries, ∃ params, entryForm entry = .call systemMulticall params := by
  induction entries with
  | nil => exact ⟨fun h => (by cases h), fun ⟨_, h, _⟩ => absurd h List.not_mem_nil⟩
  | cons entry entries ih =>
    rw [callsItself]
    cases hForm : entryForm entry with
    | malformed => simpa [reached, isMistyped, hForm] using ih
    | mistyped => simp [reached, isMistyped, hForm]
    | call methodName params => simpa [reached, isMistyped, hForm] using or_congr Iff.rfl ih

theorem entryForm_setParams {entry params : Value} {methodName : Bytes} (h : entryForm entry = .call methodName params)
    (params' : Value) : entryForm (setParams params' entry) = .call methodName params' := by
  cases entry with
  | struct members =>
    let set : Bytes × Value → Bytes × Value := fun m => if m.1 = paramsMember then (m.1, params') else m
    have hName : (members.map set).lookup methodNameMember = members.lookup methodNameMember := by
      clear h
      induction members with
      | nil => rfl
      | cons m members ih =>
        obtain ⟨name, v⟩ := m
        rw [List.map_cons]
        by_cases hName : name = paramsMember
        · have hOther : (methodNameMember == paramsMember) = false := by decide
          simp [set, hName, List.lookup_cons, hOther, ih]
        · simp [set, hName, List.lookup_cons, ih]
    have hParams : (members.map set).lookup paramsMember = (members.lookup paramsMember).map fun _ => params' := by
      clear h hName
      induction members with
      | nil => rfl
      | cons m members ih =>
        obtain ⟨name, v⟩ := m
        rw [List.map_cons]
        by_cases hName : name = paramsMember
        · simp [set, hName]
        · have hOther : (paramsMember == name) = false := beq_false_of_ne (Ne.symm hName)
          simp [set, hName, List.lookup_cons, hOther, ih]
    rw [entryForm] at h
    show entryForm (.struct (members.map set)) = _
    rw [entryForm, hName, hParams]
    cases hFirst : members.lookup methodNameMember with
    | none => simp [hFirst] at h
    | some name =>
      cases hSecond : members.lookup paramsMember with
      | none => cases name <;> simp [hFirst, hSecond] at h
      | some old => cases name <;> simp_all
  | _ => cases h

/-! ## The loop -/

theorem getD_middle (front rest : List Value) (entry : Value) :
    (front ++ entry :: rest).getD front.length .invalid = entry := by
  simp [List.getD]

theorem modify_middle (front rest : List Value) (entry : Value) (g : Value → Value) :
    (front ++ entry :: rest).modify front.length g = front ++ g entry :: rest := by
  induction front with
  | nil => rfl
  | cons e front ih => rw [List.cons_append, List.length_cons, List.modify_succ_cons, ih, List.cons_append]

variable {sub : Bytes × Value × σ → Option (MulticallResult σ)}

theorem multicallLoop_answer
    (hSub : ∀ methodName params s, methodName ≠ systemMulticall → sub (methodName, params, s) = some (.ok none, params, s))
    {entry element : Value} {s s' : σ} (hAnswer : Answer findMethod entry s element s')
    (hTyped : entryForm entry ≠ .mistyped) (hOther : ∀ params, entryForm entry ≠ .call systemMulticall params)
    {results front : List Value} (hLength : results.length = front.length) (rest : List Value) :
    ∃ entry', multicallLoop findMethod sub (rest.length + 1) results (front ++ entry :: rest) s =
      multicallLoop findMethod sub rest.length (results ++ [element]) (front ++ entry' :: rest) s' := by
  have hEntry : (front ++ entry :: rest).getD results.length .invalid = entry := by rw [hLength, getD_middle]
  have hModify (g : Value → Value) : (front ++ entry :: rest).modify results.length g = front ++ g entry :: rest := by
    rw [hLength, modify_middle]
  cases hAnswer with
  | malformed hForm =>
    refine ⟨entry, ?_⟩
    simp only [multicallLoop, hEntry, hForm]
  | mistyped hForm => exact absurd hForm hTyped
  | @unknown methodName params hForm hNone =>
    have hName : methodName ≠ systemMulticall := fun h => hOther params (h ▸ hForm)
    have hExecute : executeMethod findMethod methodName params s = none := by
      rw [executeMethod, hNone, Option.map_none]
    refine ⟨entry, ?_⟩
    simp only [multicallLoop, hEntry, hForm, hExecute, hSub _ _ _ hName, Option.bind_some, multicallEntries, entryResult]
  | @result methodName params params' v s' hForm hExecute =>
    refine ⟨setParams params' entry, ?_⟩
    simp only [multicallLoop, hEntry, hForm, hExecute, hModify, Except.map, entryResult]
  | @thrown methodName params params' fault s' hForm hExecute =>
    refine ⟨setParams params' entry, ?_⟩
    simp only [multicallLoop, hEntry, hForm, hExecute, hModify, Except.map, entryResult]

theorem multicallLoop_front
    (hSub : ∀ methodName params s, methodName ≠ systemMulticall → sub (methodName, params, s) = some (.ok none, params, s))
    {entries elements : List Value} {s s' : σ} (hAnswers : Answers findMethod entries s elements s')
    (hTyped : ∀ entry ∈ entries, entryForm entry ≠ .mistyped)
    (hOther : ∀ entry ∈ entries, ∀ params, entryForm entry ≠ .call systemMulticall params)
    (results front rest : List Value) (hLength : results.length = front.length) :
    ∃ left, (results ++ elements).length = (front ++ left).length ∧
      multicallLoop findMethod sub (entries ++ rest).length results (front ++ (entries ++ rest)) s =
        multicallLoop findMethod sub rest.length (results ++ elements) (front ++ left ++ rest) s' := by
  induction hAnswers generalizing results front with
  | nil s => exact ⟨[], by simp only [List.append_nil, hLength], by simp only [List.nil_append, List.append_nil]⟩
  | @cons entry element entries elements s s' s'' hHead _ ih =>
    obtain ⟨entry', hRound⟩ := multicallLoop_answer hSub hHead (hTyped entry List.mem_cons_self)
      (hOther entry List.mem_cons_self) hLength (entries ++ rest)
    obtain ⟨left, hLeft, hRest⟩ := ih (fun e he => hTyped e (List.mem_cons_of_mem entry he))
      (fun e he => hOther e (List.mem_cons_of_mem entry he)) (results ++ [element]) (front ++ [entry'])
      (by simp [hLength])
    simp only [List.append_assoc, List.singleton_append] at hLeft hRest
    refine ⟨entry' :: left, hLeft, ?_⟩
    rw [List.cons_append, List.length_cons, hRound, hRest, List.append_assoc, List.cons_append]

theorem multicallLoop_answers
    (hSub : ∀ methodName params s, methodName ≠ systemMulticall → sub (methodName, params, s) = some (.ok none, params, s))
    {entries elements : List Value} {s s' : σ} (hAnswers : Answers findMethod entries s elements s')
    (hTyped : ∀ entry ∈ entries, entryForm entry ≠ .mistyped)
    (hOther : ∀ entry ∈ entries, ∀ params, entryForm entry ≠ .call systemMulticall params) :
    ∃ params, multicallLoop findMethod sub entries.length [] entries s =
      some (.ok (some (.array elements)), params, s') := by
  obtain ⟨left, _, hRun⟩ := multicallLoop_front hSub hAnswers hTyped hOther [] [] [] rfl
  simp only [List.append_nil, List.nil_append] at hRun
  exact ⟨_, hRun⟩

theorem multicallLoop_mistyped
    (hSub : ∀ methodName params s, methodName ≠ systemMulticall → sub (methodName, params, s) = some (.ok none, params, s))
    {entries elements : List Value} {s s' : σ} (hAnswers : Answers findMethod entries s elements s')
    (hTyped : ∀ entry ∈ entries, entryForm entry ≠ .mistyped)
    (hOther : ∀ entry ∈ entries, ∀ params, entryForm entry ≠ .call systemMulticall params)
    {entry : Value} (hForm : entryForm entry = .mistyped) (rest : List Value) :
    ∃ params, multicallLoop findMethod sub (entries ++ entry :: rest).length [] (entries ++ entry :: rest) s =
      some (.error typeError, params, s') := by
  obtain ⟨left, hLength, hRun⟩ := multicallLoop_front hSub hAnswers hTyped hOther [] [] (entry :: rest) rfl
  simp only [List.nil_append] at hLength hRun
  have hEntry : (left ++ entry :: rest).getD elements.length .invalid = entry := by rw [hLength, getD_middle]
  rw [hRun, List.length_cons, multicallLoop]
  simp only [hEntry, hForm]
  exact ⟨_, rfl⟩

theorem multicallLoop_none (hMulticall : findMethod systemMulticall = none)
    (hSub : ∀ methodName params s, methodName ≠ systemMulticall →
      sub (methodName, params, s) = none ∨ sub (methodName, params, s) = some (.ok none, params, s))
    (hItself : ∀ entries s, callsItself entries = true → sub (systemMulticall, .array [.array entries], s) = none)
    {entries : List Value} (hSelf : callsItself entries = true) (results front : List Value)
    (hFront : ∀ rest, callsItself (front ++ rest) = callsItself rest) (hLength : results.length = front.length) (s : σ) :
    multicallLoop findMethod sub entries.length results (front ++ entries) s = none := by
  induction entries generalizing s results front with
  | nil => cases hSelf
  | cons entry entries ih =>
    have hEntry : (front ++ entry :: entries).getD results.length .invalid = entry := by rw [hLength, getD_middle]
    have hContinue (entry' element : Value) (s' : σ) (hSame : ∀ rest, callsItself (entry' :: rest) = callsItself rest)
        (hRest : callsItself entries = true) :
        multicallLoop findMethod sub entries.length (results ++ [element]) (front ++ entry' :: entries) s' = none := by
      have hEnd := ih hRest (results ++ [element]) (front ++ [entry'])
        (by intro rest; rw [List.append_assoc, hFront, List.singleton_append, hSame]) (by simp [hLength]) s'
      rwa [List.append_assoc, List.singleton_append] at hEnd
    cases hForm : entryForm entry with
    | malformed =>
      rw [callsItself, hForm] at hSelf
      simp only [List.length_cons, multicallLoop, hEntry, hForm]
      exact hContinue entry _ s (by intro rest; rw [callsItself, hForm]) hSelf
    | mistyped =>
      rw [callsItself, hForm] at hSelf
      cases hSelf
    | call methodName params =>
      rw [List.length_cons, multicallLoop]
      simp only [hEntry, hForm]
      rcases eq_or_ne methodName systemMulticall with rfl | hName
      · have hExecute : executeMethod findMethod systemMulticall params s = none := by
          rw [executeMethod, hMulticall, Option.map_none]
        have hCall := hItself (front ++ entry :: entries) s (by rw [hFront]; exact hSelf)
        simp only [hExecute, hCall, Option.bind_none]
      · have hKeep (params' : Value) (entry' : Value) (hForm' : entryForm entry' = .call methodName params') :
            ∀ rest, callsItself (entry' :: rest) = callsItself rest := by
          intro rest
          simp [callsItself, hForm', hName]
        rw [hKeep params entry hForm] at hSelf
        cases hExecute : executeMethod findMethod methodName params s with
        | some r =>
          obtain ⟨outcome, params', s'⟩ := r
          have hModify : (front ++ entry :: entries).modify results.length (setParams params') =
              front ++ setParams params' entry :: entries := by rw [hLength, modify_middle]
          simp only [hModify]
          exact hContinue _ _ s' (hKeep params' _ (entryForm_setParams hForm params')) hSelf
        | none =>
          rcases hSub methodName (.array [.array (front ++ entry :: entries)]) s hName with hNone | hSome
          · simp only [hNone, Option.bind_none]
          · simp only [hSome, Option.bind_some, multicallEntries]
            exact hContinue entry _ s (hKeep params entry hForm) hSelf

/-! ## The recursion -/

theorem multicallLoop_mono {f g : Bytes × Value × σ → Option (MulticallResult σ)}
    (hMore : ∀ a b, f a = some b → g a = some b) {remaining : Nat} {results entries : List Value} {s : σ}
    {r : MulticallResult σ} (h : multicallLoop findMethod f remaining results entries s = some r) :
    multicallLoop findMethod g remaining results entries s = some r := by
  induction remaining generalizing results entries s with
  | zero => exact h
  | succ remaining ih =>
    rw [multicallLoop] at h ⊢
    dsimp only at h ⊢
    cases hForm : entryForm (entries.getD results.length .invalid) with
    | malformed =>
      rw [hForm] at h
      exact ih h
    | mistyped =>
      rw [hForm] at h
      exact h
    | call methodName params =>
      rw [hForm] at h
      dsimp only at h ⊢
      cases hExecute : executeMethod findMethod methodName params s with
      | some executed =>
        rw [hExecute] at h
        exact ih h
      | none =>
        rw [hExecute] at h
        obtain ⟨called, hCall, hRest⟩ := Option.bind_eq_some_iff.mp h
        dsimp only
        rw [hMore _ _ hCall]
        exact ih hRest

theorem executeMulticall_le {fuel more : Nat} (hLe : fuel ≤ more) {call : Bytes × Value × σ} {r : MulticallResult σ}
    (h : executeMulticall findMethod fuel call = some r) : executeMulticall findMethod more call = some r := by
  refine fuelled_le ?_ hLe h
  intro f g hMore a b hBody
  obtain ⟨methodName, params, s⟩ := a
  dsimp only at hBody ⊢
  split at hBody
  · rename_i hName
    rwa [if_pos hName]
  · rename_i hName
    rw [if_neg hName]
    cases hEntries : multicallEntries params with
    | error fault =>
      rw [hEntries] at hBody
      exact hBody
    | ok entries =>
      rw [hEntries] at hBody
      exact multicallLoop_mono hMore hBody

theorem executeMulticall_other {methodName : Bytes} (hName : methodName ≠ systemMulticall) (fuel : Nat) (params : Value)
    (s : σ) : executeMulticall findMethod (fuel + 1) (methodName, params, s) = some (.ok none, params, s) :=
  if_pos hName

theorem executeMulticall_entries (fuel : Nat) {params : Value} {entries : List Value}
    (hEntries : multicallEntries params = .ok entries) (s : σ) :
    executeMulticall findMethod (fuel + 1) (systemMulticall, params, s) =
      multicallLoop findMethod (executeMulticall findMethod fuel) entries.length [] entries s := by
  rw [executeMulticall, fuelled]
  simp only [ne_eq, not_true_eq_false, if_false, hEntries]

theorem executeMulticall_none (hMulticall : findMethod systemMulticall = none) (fuel : Nat) {params : Value}
    {entries : List Value} (hEntries : multicallEntries params = .ok entries) (hSelf : callsItself entries = true) (s : σ) :
    executeMulticall findMethod fuel (systemMulticall, params, s) = none := by
  induction fuel generalizing params entries s with
  | zero => rfl
  | succ fuel ih =>
    rw [executeMulticall_entries fuel hEntries]
    refine multicallLoop_none hMulticall ?_ (fun entries s hItself => ih rfl hItself s) hSelf [] []
      (fun _ => rfl) rfl s
    intro methodName params s hName
    cases fuel with
    | zero => exact .inl rfl
    | succ fuel => exact .inr (executeMulticall_other hName fuel params s)

def Recurses (findMethod : Bytes → Option (Method σ)) (methodName : Bytes) (params : Value) : Prop :=
  findMethod systemMulticall = none ∧ methodName = systemMulticall ∧
    ∃ entries, multicallEntries params = .ok entries ∧ callsItself entries = true

/-- The call has this result: its method leaves it, or it is the array of what the entries yield alone. -/
inductive HasResult (findMethod : Bytes → Option (Method σ)) (methodName : Bytes) (params : Value) (s : σ) : Value → Prop
  | method {v params' : Value} {s' : σ}
      (hExecute : executeMethod findMethod methodName params s = some (.ok v, params', s')) :
      HasResult findMethod methodName params s v
  | multicall {entries elements : List Value} {s' : σ} (hName : methodName = systemMulticall)
      (hMulticall : findMethod systemMulticall = none) (hEntries : multicallEntries params = .ok entries)
      (hTyped : ∀ entry ∈ entries, entryForm entry ≠ .mistyped) (hAnswers : Answers findMethod entries s elements s') :
      HasResult findMethod methodName params s (.array elements)

theorem not_self_of_reached {entries : List Value} (hSelf : callsItself entries = false) :
    ∀ entry ∈ reached entries, ∀ params, entryForm entry ≠ .call systemMulticall params := by
  intro entry hEntry params hForm
  rw [callsItself_iff.mpr ⟨entry, hEntry, params, hForm⟩] at hSelf
  cases hSelf

theorem executeMulticall_answers {params : Value} {entries elements : List Value} {s s' : σ}
    (hEntries : multicallEntries params = .ok entries) (hAnswers : Answers findMethod entries s elements s')
    (hTyped : ∀ entry ∈ entries, entryForm entry ≠ .mistyped)
    (hOther : ∀ entry ∈ entries, ∀ params, entryForm entry ≠ .call systemMulticall params) (fuel : Nat) :
    ∃ params', executeMulticall findMethod (fuel + 2) (systemMulticall, params, s) =
      some (.ok (some (.array elements)), params', s') := by
  obtain ⟨params', hEnd⟩ := multicallLoop_answers (fun _ params s hName => executeMulticall_other hName fuel params s)
    hAnswers hTyped hOther
  exact ⟨params', by rw [executeMulticall_entries (fuel + 1) hEntries]; exact hEnd⟩

/-- What comes of the entries that are reached: the array of what they yield alone, or a fault because one more has a
`methodName` that is no string. -/
theorem executeMulticall_reached {params : Value} {entries elements : List Value} {s s' : σ}
    (hEntries : multicallEntries params = .ok entries) (hSelf : callsItself entries = false)
    (hAnswers : Answers findMethod (reached entries) s elements s') :
    ∃ outcome params', (outcome = .ok (some (.array elements)) ∧ entries = reached entries ∨
        outcome = .error typeError ∧ ∃ entry ∈ entries, entryForm entry = .mistyped) ∧
      ∀ fuel, executeMulticall findMethod (fuel + 2) (systemMulticall, params, s) = some (outcome, params', s') := by
  have hTyped : ∀ entry ∈ reached entries, entryForm entry ≠ .mistyped := fun _ h => typed_of_mem_reached h
  have hOther := not_self_of_reached hSelf
  rcases reached_append entries with hAll | ⟨entry, rest, hForm, hSplit⟩
  · rw [← hAll] at hAnswers hTyped hOther
    obtain ⟨params', hEnd⟩ := executeMulticall_answers hEntries hAnswers hTyped hOther 0
    exact ⟨_, params', .inl ⟨rfl, hAll⟩, fun fuel => executeMulticall_le (Nat.le_add_left 2 fuel) hEnd⟩
  · obtain ⟨params', hEnd⟩ := multicallLoop_mistyped (fun _ params s hName => executeMulticall_other hName 0 params s)
      hAnswers hTyped hOther hForm rest
    refine ⟨_, params', .inr ⟨rfl, entry, ?_, hForm⟩, fun fuel => executeMulticall_le (Nat.le_add_left 2 fuel) ?_⟩
    · rw [hSplit]
      exact List.mem_append_right _ List.mem_cons_self
    · rw [executeMulticall_entries 1 hEntries]
      rwa [← hSplit] at hEnd

theorem executeMulticall_mistyped {params : Value} {entries : List Value} (hEntries : multicallEntries params = .ok entries)
    (hSelf : callsItself entries = false) (hMistyped : ∃ entry ∈ entries, entryForm entry = .mistyped) (s : σ) :
    ∃ params' s', ∀ fuel, executeMulticall findMethod (fuel + 2) (systemMulticall, params, s) =
      some (.error typeError, params', s') := by
  obtain ⟨elements, s', hAnswers⟩ := exists_answers findMethod (reached entries) s
  obtain ⟨outcome, params', ⟨_, hAll⟩ | ⟨rfl, _⟩, hEnd⟩ := executeMulticall_reached hEntries hSelf hAnswers
  · obtain ⟨entry, hEntry, hForm⟩ := hMistyped
    rw [hAll] at hEntry
    exact absurd hForm (typed_of_mem_reached hEntry)
  · exact ⟨params', s', hEnd⟩

theorem executeCall_multicall {methodName : Bytes} {params : Value} {s : σ} (hMethod : findMethod methodName = none)
    (fuel : Nat) :
    executeCall findMethod fuel methodName params s =
      (executeMulticall findMethod fuel (methodName, params, s)).map (multicallOutcome methodName) := by
  rw [executeCall, executeMethod, hMethod, Option.map_none]

theorem HasResult.inv {methodName : Bytes} {params v : Value} {s : σ} (h : HasResult findMethod methodName params s v)
    (hMethod : findMethod methodName = none) :
    ∃ entries elements s', methodName = systemMulticall ∧ multicallEntries params = .ok entries ∧
      (∀ entry ∈ entries, entryForm entry ≠ .mistyped) ∧ Answers findMethod entries s elements s' ∧ v = .array elements := by
  cases h with
  | method hExecute =>
    rw [executeMethod, hMethod] at hExecute
    cases hExecute
  | multicall hName _ hEntries hTyped hAnswers => exact ⟨_, _, _, hName, hEntries, hTyped, hAnswers, rfl⟩

theorem executeCall_ends {methodName : Bytes} {params : Value} (h : ¬ Recurses findMethod methodName params) (s : σ) :
    ∃ outcome s', (∀ fuel, executeCall findMethod (fuel + 2) methodName params s = some (outcome, s')) ∧
      ∀ v, HasResult findMethod methodName params s v ↔ outcome = .ok v := by
  cases hMethod : findMethod methodName with
  | some execute =>
    have hExecute : executeMethod findMethod methodName params s =
        some ((execute params s).1.map ensureValid, (execute params s).2) := by rw [executeMethod, hMethod, Option.map_some]
    refine ⟨_, _, fun fuel => by rw [executeCall, hExecute], fun v => ⟨?_, fun hOk => ?_⟩⟩
    · intro hResult
      cases hResult with
      | method hOther =>
        rw [hExecute] at hOther
        exact congrArg Prod.fst (Option.some.inj hOther)
      | multicall hName hMulticall =>
        rw [hName, hMulticall] at hMethod
        cases hMethod
    · rw [hOk] at hExecute
      exact .method hExecute
  | none =>
    rcases eq_or_ne methodName systemMulticall with rfl | hName
    · cases hEntries : multicallEntries params with
      | error fault =>
        refine ⟨.error fault, s, fun fuel => ?_, fun v => ⟨fun hResult => ?_, by simp⟩⟩
        · rw [executeCall_multicall hMethod, executeMulticall, fuelled]
          simp only [ne_eq, not_true_eq_false, if_false, hEntries, Option.map_some, multicallOutcome]
        · obtain ⟨_, _, _, _, hOther, _⟩ := hResult.inv hMethod
          rw [hEntries] at hOther
          cases hOther
      | ok entries =>
        have hSelf : callsItself entries = false := by
          rw [← Bool.not_eq_true]
          exact fun hSelf => h ⟨hMethod, rfl, entries, hEntries, hSelf⟩
        by_cases hTyped : ∀ entry ∈ entries, entryForm entry ≠ .mistyped
        · have hOther := not_self_of_reached hSelf
          rw [reached_eq_self hTyped] at hOther
          obtain ⟨elements, s', hAnswers⟩ := exists_answers findMethod entries s
          refine ⟨.ok (.array elements), s', fun fuel => ?_, fun v => ⟨fun hResult => ?_, ?_⟩⟩
          · obtain ⟨params', hEnd⟩ := executeMulticall_answers hEntries hAnswers hTyped hOther fuel
            rw [executeCall_multicall hMethod, hEnd, Option.map_some, multicallOutcome]
          · obtain ⟨entries', elements', _, _, hEntries', _, hAnswers', rfl⟩ := hResult.inv hMethod
            rw [hEntries] at hEntries'
            cases hEntries'
            obtain ⟨_, hEnd⟩ := executeMulticall_answers hEntries hAnswers hTyped hOther 0
            obtain ⟨_, hEnd'⟩ := executeMulticall_answers hEntries hAnswers' hTyped hOther 0
            rw [hEnd] at hEnd'
            cases hEnd'
            rfl
          · rintro ⟨⟩
            exact .multicall rfl hMethod hEntries hTyped hAnswers
        · have hMistyped : ∃ entry ∈ entries, entryForm entry = .mistyped := by simpa using hTyped
          obtain ⟨params', s', hEnd⟩ := @executeMulticall_mistyped σ findMethod _ _ hEntries hSelf hMistyped s
          refine ⟨.error typeError, s', fun fuel => ?_, fun v => ⟨fun hResult => ?_, by simp⟩⟩
          · rw [executeCall_multicall hMethod, hEnd, Option.map_some, multicallOutcome]
          · obtain ⟨_, _, _, _, hEntries', hTyped', _⟩ := hResult.inv hMethod
            rw [hEntries] at hEntries'
            cases hEntries'
            exact absurd hTyped' hTyped
    · refine ⟨.error (unknownMethod methodName), s, fun fuel => ?_, fun v => ⟨fun hResult => ?_, by simp⟩⟩
      · rw [executeCall_multicall hMethod, executeMulticall_other hName, Option.map_some, multicallOutcome]
      · obtain ⟨_, _, _, hMulticall, _⟩ := hResult.inv hMethod
        exact absurd hMulticall hName

theorem executeCall_le {fuel more : Nat} (hLe : fuel ≤ more) {methodName : Bytes} {params : Value} {s : σ}
    {r : Except Fault Value × σ} (h : executeCall findMethod fuel methodName params s = some r) :
    executeCall findMethod more methodName params s = some r := by
  cases hExecute : executeMethod findMethod methodName params s with
  | some executed =>
    rw [executeCall, hExecute] at h ⊢
    exact h
  | none =>
    rw [executeCall, hExecute] at h ⊢
    obtain ⟨result, hResult, rfl⟩ := Option.map_eq_some_iff.mp h
    show (executeMulticall findMethod more (methodName, params, s)).map _ = _
    rw [executeMulticall_le hLe hResult, Option.map_some]

theorem executeCall_mistyped (hMulticall : findMethod systemMulticall = none) {entries : List Value}
    (hSelf : callsItself entries = false) (hMistyped : ∃ entry ∈ entries, entryForm entry = .mistyped) {s s' : σ}
    {fuel : Nat} {outcome : Except Fault Value}
    (h : executeCall findMethod fuel systemMulticall (.array [.array entries]) s = some (outcome, s')) :
    outcome = .error typeError := by
  obtain ⟨params', s'', hEnd⟩ := @executeMulticall_mistyped σ findMethod (.array [.array entries]) _ rfl hSelf hMistyped s
  have hMore := executeCall_le (Nat.le_add_right fuel 2) h
  rw [executeCall_multicall hMulticall, hEnd, Option.map_some, multicallOutcome] at hMore
  cases hMore
  rfl

/-! ## Responses -/

theorem responseHeader_ne_nil (body : Bytes) : responseHeader body ≠ [] := by
  have hFront : 0 < (bytes "HTTP/1.1 200 OK\r\nServer: ").length := by decide
  refine List.ne_nil_of_length_pos ?_
  simp only [responseHeader, List.length_append]
  omega

theorem callsItself_eq_false {entries : List Value}
    (hOther : ∀ entry ∈ entries, ∀ params, entryForm entry ≠ .call systemMulticall params) : callsItself entries = false := by
  induction entries with
  | nil => rfl
  | cons entry entries ih =>
    have hRest := ih fun e he => hOther e (List.mem_cons_of_mem entry he)
    have hHead := hOther entry List.mem_cons_self
    cases hForm : entryForm entry with
    | malformed => rwa [callsItself, hForm]
    | mistyped => rw [callsItself, hForm]
    | call methodName params =>
      have hName : methodName ≠ systemMulticall := fun h => hHead params (h ▸ hForm)
      rw [callsItself, hForm]
      simp [hName, hRest]

theorem generateResponse_ne_nil_iff (resultXml : Bytes) :
    generateResponse resultXml ≠ [] ↔
      (responseHeader (responseBody resultXml)).length + (responseBody resultXml).length ≤ intMax := by
  simp only [generateResponse]
  split
  · rename_i hLong
    exact ⟨fun h => absurd rfl h, fun h => absurd h (Nat.not_le.mpr hLong)⟩
  · rename_i hShort
    exact ⟨fun _ => Nat.not_lt.mp hShort, fun _ => List.append_ne_nil_of_left_ne_nil (responseHeader_ne_nil _) _⟩

variable [DoubleText]

theorem generateFaultResponse_ne_nil (errorMsg : Bytes) (errorCode : Int32) :
    generateFaultResponse errorMsg errorCode ≠ [] :=
  List.append_ne_nil_of_left_ne_nil (responseHeader_ne_nil _) _

/-- Execution ends with a response just if it does not recurse, and the result is not too large for a response. -/
theorem executeRequest_ends_iff (findMethod : Bytes → Option (Method σ)) (request : Bytes) (s : σ) :
    (∃ fuel response s', executeRequest findMethod fuel request s = some (response, s') ∧ response ≠ []) ↔
      ¬ Recurses findMethod (parseRequest request).1 (paramsValue (parseRequest request).2) ∧
        ∀ v, HasResult findMethod (parseRequest request).1 (paramsValue (parseRequest request).2) s v →
          (responseHeader (responseBody v.toXml)).length + (responseBody v.toXml).length ≤ intMax := by
  generalize hName : (parseRequest request).1 = methodName
  generalize hParams : paramsValue (parseRequest request).2 = params
  have hExecute (fuel : Nat) : executeRequest findMethod fuel request s =
      (executeCall findMethod fuel methodName params s).map fun r => (generate r.1, r.2) := by
    rw [executeRequest, ← hName, ← hParams]
  constructor
  · rintro ⟨fuel, response, s', hRun, hSome⟩
    rw [hExecute] at hRun
    obtain ⟨⟨outcome, s''⟩, hCall, hResponse⟩ := Option.map_eq_some_iff.mp hRun
    cases hResponse
    have hEnds : ¬ Recurses findMethod methodName params := by
      rintro ⟨hMulticall, rfl, entries, hEntries, hSelf⟩
      rw [executeCall_multicall hMulticall, executeMulticall_none hMulticall fuel hEntries hSelf] at hCall
      cases hCall
    refine ⟨hEnds, fun v hResult => ?_⟩
    obtain ⟨outcome', s', hEnd, hIff⟩ := executeCall_ends hEnds s
    have hMore := executeCall_le (Nat.le_add_right fuel 2) hCall
    rw [hEnd] at hMore
    cases hMore
    rw [(hIff v).mp hResult] at hSome
    exact (generateResponse_ne_nil_iff _).mp hSome
  · rintro ⟨hEnds, hFits⟩
    obtain ⟨outcome, s', hEnd, hIff⟩ := executeCall_ends hEnds s
    refine ⟨2, generate outcome, s', by rw [hExecute, hEnd, Option.map_some], ?_⟩
    cases outcome with
    | error fault => exact generateFaultResponse_ne_nil _ _
    | ok v => exact (generateResponse_ne_nil_iff _).mpr (hFits v ((hIff v).mpr rfl))

/-- The result of `system.multicall` is the array of what its entries yield alone just if no `methodName` in them is of
another type than string. -/
theorem executeCall_isolated_iff (hMulticall : findMethod systemMulticall = none) {request : Bytes} {entries : List Value}
    (hRequest : parseRequest request = (systemMulticall, [.array entries]))
    (hOther : ∀ entry ∈ entries, ∀ params, entryForm entry ≠ .call systemMulticall params) (s : σ) :
    (∃ fuel elements s', elements.length = entries.length ∧ Answers findMethod entries s elements s' ∧
      executeCall findMethod fuel (parseRequest request).1 (paramsValue (parseRequest request).2) s =
        some (.ok (.array elements), s')) ↔
      ∀ entry ∈ entries, entryForm entry ≠ .mistyped := by
  rw [hRequest]
  constructor
  · rintro ⟨fuel, elements, s', _, _, hCall⟩
    by_contra hMistyped
    have hFault := executeCall_mistyped hMulticall (callsItself_eq_false hOther) (by simpa using hMistyped) hCall
    cases hFault
  · intro hTyped
    obtain ⟨elements, s', hAnswers⟩ := exists_answers findMethod entries s
    obtain ⟨params', hEnd⟩ := @executeMulticall_answers σ findMethod (.array [.array entries]) _ _ _ _ rfl hAnswers hTyped hOther 0
    refine ⟨2, elements, s', hAnswers.length_eq, hAnswers, ?_⟩
    show executeCall findMethod 2 systemMulticall (.array [.array entries]) s = _
    rw [executeCall_multicall hMulticall, hEnd, Option.map_some, multicallOutcome]

end

/-! ## Samples -/

def greeter (methodName : Bytes) : Option (Method Unit) :=
  if methodName = bytes "hello" then some fun params s => (.ok (.string (bytes "hi")), params, s) else none

def callOf (methodName : Value) : Value := .struct [(methodNameMember, methodName), (paramsMember, .array [])]

theorem callOf_codable {methodName : Value} (h : @Value.Codable noDoubles methodName) :
    @Value.Codable noDoubles (callOf methodName) := by
  refine @Value.Codable.struct noDoubles _ ?_ ?_ ?_
  · unfold KeysSorted
    simp only [List.pairwise_cons, List.mem_singleton, forall_eq, List.not_mem_nil, false_implies, implies_true,
      List.Pairwise.nil, and_self, and_true]
    decide
  · simp only [List.mem_cons, List.not_mem_nil, or_false, forall_eq_or_imp, forall_eq, PlainName]
    exact ⟨List.all_iff_forall_prop.mp (by decide), List.all_iff_forall_prop.mp (by decide)⟩
  · simp only [List.mem_cons, List.not_mem_nil, or_false, forall_eq_or_imp, forall_eq]
    exact ⟨h, @Value.Codable.array noDoubles [] (by simp)⟩

/-- A request for `system.multicall` with these names in its entries. -/
def multicallRequest (methodNames : List Value) : Bytes :=
  @Client.requestBody noDoubles systemMulticall (.array [.array (methodNames.map callOf)])

theorem parseRequest_multicall {methodNames : List Value} (hNames : ∀ name ∈ methodNames, @Value.Codable noDoubles name)
    (hLength : (multicallRequest methodNames).length ≤ intMax) :
    @parseRequest noDoubles (multicallRequest methodNames) = (systemMulticall, [.array (methodNames.map callOf)]) := by
  refine @parseRequest_elements noDoubles systemMulticall (by decide) (by decide) _ ?_ hLength
  simp only [List.mem_cons, List.not_mem_nil, or_false, forall_eq]
  refine @Value.Codable.array noDoubles _ fun v hv => ?_
  obtain ⟨name, hName, rfl⟩ := List.mem_map.mp hv
  exact callOf_codable (hNames name hName)

/-- An entry that names `system.multicall` keeps the server busy for ever. -/
theorem executeRequest_endless :
    ¬ ∃ fuel r, @executeRequest Unit greeter noDoubles fuel (multicallRequest [.string systemMulticall]) () = some r := by
  rintro ⟨fuel, r, hRun⟩
  have hParse := @parseRequest_multicall [.string systemMulticall]
    (by simpa using @Value.Codable.string noDoubles systemMulticall) (by decide +kernel)
  rw [executeRequest, hParse] at hRun
  obtain ⟨result, hCall, _⟩ := Option.map_eq_some_iff.mp hRun
  have hNone : executeCall greeter fuel systemMulticall (.array [.array [callOf (.string systemMulticall)]]) () = none := by
    rw [executeCall_multicall (by decide), executeMulticall_none (by decide) fuel rfl (by decide)]
    rfl
  exact absurd (hNone.symm.trans hCall) (by simp)

theorem executeCall_isolated_sample :
    (∃ fuel elements s', elements.length = [callOf (.string (bytes "hello"))].length ∧
      Answers greeter [callOf (.string (bytes "hello"))] () elements s' ∧
      executeCall greeter fuel (@parseRequest noDoubles (multicallRequest [.string (bytes "hello")])).1
        (paramsValue (@parseRequest noDoubles (multicallRequest [.string (bytes "hello")])).2) () =
          some (.ok (.array elements), s')) ↔
      ∀ entry ∈ [callOf (.string (bytes "hello"))], entryForm entry ≠ .mistyped := by
  have hParse := @parseRequest_multicall [.string (bytes "hello")]
    (by simpa using @Value.Codable.string noDoubles (bytes "hello")) (by decide +kernel)
  refine @executeCall_isolated_iff Unit greeter noDoubles (by decide) _ [callOf (.string (bytes "hello"))] hParse ?_ ()
  intro entry hEntry params
  rw [List.mem_singleton.mp hEntry]
  simp [callOf, entryForm, methodNameMember, paramsMember, systemMulticall, bytes, List.lookup_cons]

/-- The call of `hello` has no result because the entry before it has a number for a name. -/
theorem executeCall_mistyped_sample :
    @parseRequest noDoubles (multicallRequest [.int 5, .string (bytes "hello")]) =
        (systemMulticall, [.array [callOf (.int 5), callOf (.string (bytes "hello"))]]) ∧
      ¬ ∃ fuel elements s', Answers greeter [callOf (.int 5), callOf (.string (bytes "hello"))] () elements s' ∧
        executeCall greeter fuel systemMulticall
          (.array [.array [callOf (.int 5), callOf (.string (bytes "hello"))]]) () = some (.ok (.array elements), s') := by
  constructor
  · refine @parseRequest_multicall [.int 5, .string (bytes "hello")] ?_ (by decide +kernel)
    simp only [List.mem_cons, List.not_mem_nil, or_false, forall_eq_or_imp, forall_eq]
    exact ⟨@Value.Codable.int noDoubles 5, @Value.Codable.string noDoubles (bytes "hello")⟩
  · rintro ⟨fuel, elements, s', _, hCall⟩
    have hFault := executeCall_mistyped (by decide) (by decide) ⟨_, List.mem_cons_self, rfl⟩ hCall
    cases hFault

end XcRos.Rpc
